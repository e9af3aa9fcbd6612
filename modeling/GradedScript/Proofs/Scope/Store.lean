import GradedScript.Scope
import Mathlib.Data.List.DropRight

/-!
# Well-formed stores of scopes

In a well-formed store each scope lies inside an earlier one, whatever lies around a captured scope
is captured, the global scope is, and the top scope is not dead. Then the walks outward meet only
scopes that are held. `ScopeStore.Keeps a b` says what a store may become while something runs on
top of it: the scopes of `a` stay where they are, and what `b` has more is released.
-/

namespace GradedScript

/-! ## Bindings -/

theorem mem_of_lookup {entries : List (String × Value)} {name : String} {value : Value}
    (h : entries.lookup name = some value) : (name, value) ∈ entries := by
  induction entries with
  | nil => simp at h
  | cons entry entries ih =>
    obtain ⟨other, old⟩ := entry
    by_cases hname : name = other
    · subst hname
      simp only [List.lookup_cons_self, Option.some.injEq] at h
      subst h
      exact List.mem_cons_self
    · have hne : (name == other) = false := by simp [hname]
      rw [List.lookup_cons, hne] at h
      exact List.mem_cons_of_mem _ (ih h)

theorem mem_insertEntry {entries : List (String × Value)} {name : String} {value : Value}
    {entry : String × Value} (h : entry ∈ insertEntry name value entries) :
    entry = (name, value) ∨ entry ∈ entries := by
  induction entries with
  | nil => simpa [insertEntry] using h
  | cons first entries ih =>
    obtain ⟨other, old⟩ := first
    rw [insertEntry] at h
    split at h
    · rcases List.mem_cons.1 h with h | h
      · exact .inl h
      · exact .inr (List.mem_cons_of_mem _ h)
    · rcases List.mem_cons.1 h with h | h
      · exact .inr (h ▸ List.mem_cons_self)
      · rcases ih h with h | h
        · exact .inl h
        · exact .inr (List.mem_cons_of_mem _ h)

namespace ScopeStore

variable {store : ScopeStore} {i j : ScopeId} {s : Scope}

/-! ## What the operations do to a scope -/

theorem lt_size (h : store.scope? i = some s) : i < store.size :=
  (Array.getElem?_eq_some_iff.1 h).1

theorem exists_scope (h : i < store.size) : ∃ s, store.scope? i = some s :=
  ⟨_, Array.getElem?_eq_getElem h⟩

theorem scope?_eq_none (h : store.size ≤ i) : store.scope? i = none :=
  Array.getElem?_eq_none h

@[simp] theorem size_push (e : ScopeId) : (store.push e).size = store.size + 1 :=
  Array.size_push ..

theorem scope?_push (e : ScopeId) : (store.push e).scope? i =
    if i = store.size then some { enclosing := some e } else store.scope? i :=
  Array.getElem?_push

@[simp] theorem size_update (f : Scope → Scope) : (store.update j f).size = store.size :=
  Array.size_modify

theorem scope?_update (f : Scope → Scope) : (store.update j f).scope? i =
    if j = i then (store.scope? i).map f else store.scope? i :=
  Array.getElem?_modify

@[simp] theorem size_bind (name : String) (value : Value) :
    (store.bind j name value).size = store.size :=
  size_update _

/-- Popping from an array leaves a part in front; what goes is popped for a reason, and what is then
last stays for one. -/
theorem popWhile_spec {α : Type} (p : α → Bool) (as : Array α) :
    (as.popWhile p).size ≤ as.size ∧
    (∀ k, k < (as.popWhile p).size → (as.popWhile p)[k]? = as[k]?) ∧
    (∀ k a, (as.popWhile p).size ≤ k → as[k]? = some a → p a = true) ∧
    (∀ a, (as.popWhile p)[(as.popWhile p).size - 1]? = some a → p a = false) := by
  obtain ⟨l⟩ := as
  -- from the end of the list, where popping begins
  induction l using List.reverseRecOn with
  | nil => simp
  | append_singleton l x ih =>
    simp only [List.popWhile_toArray, List.reverse_append, List.reverse_singleton,
      List.singleton_append, List.dropWhile_cons, List.getElem?_toArray, List.size_toArray] at ih ⊢
    obtain ⟨hsize, hkept, hgone, hlast⟩ := ih
    by_cases hx : p x = true
    · simp only [hx, ↓reduceIte, List.length_append, List.length_singleton]
      refine ⟨by omega, ?_, ?_, hlast⟩
      · intro k hk
        rw [hkept k hk, List.getElem?_append_left (by omega)]
      · intro k a hk ha
        by_cases hkl : k < l.length
        · rw [List.getElem?_append_left hkl] at ha
          exact hgone k a hk ha
        · rw [List.getElem?_append_right (by omega)] at ha
          have hax : a = x := List.mem_singleton.1 (List.mem_of_getElem? ha)
          rw [hax]
          exact hx
    · simp only [hx, Bool.false_eq_true, ↓reduceIte, List.reverse_cons, List.reverse_reverse,
        List.length_append, List.length_singleton]
      refine ⟨le_refl _, fun k _ => trivial, ?_, ?_⟩
      · intro k a hk ha
        have := (List.getElem?_eq_some_iff.1 ha).1
        simp only [List.length_append, List.length_singleton] at this
        omega
      · intro a ha
        simp only [Nat.add_sub_cancel, List.getElem?_concat_length, Option.some.injEq] at ha
        rw [← ha]
        simpa using hx

theorem size_reclaim_le : store.reclaim.size ≤ store.size :=
  (popWhile_spec Scope.dead store.scopes).1

/-- What reclaiming leaves is as it was. -/
theorem scope?_reclaim (h : store.reclaim.scope? i = some s) : store.scope? i = some s := by
  rw [← h]
  exact ((popWhile_spec Scope.dead store.scopes).2.1 i (lt_size h)).symm

/-- Reclaiming leaves every scope that is not dead. -/
theorem scope?_reclaim_of_alive (h : store.scope? i = some s) (halive : s.dead = false) :
    store.reclaim.scope? i = some s := by
  obtain ⟨-, hkept, hgone, -⟩ := popWhile_spec Scope.dead store.scopes
  have hi : i < store.reclaim.size := by
    -- what goes is dead
    by_contra hi
    have hdead : s.dead = true := hgone i s (Nat.le_of_not_lt hi) h
    rw [halive] at hdead
    exact Bool.false_ne_true hdead
  exact (hkept i hi).trans h

/-! ## Well-formed stores -/

/-- A scope is held and captured. -/
def Captured (store : ScopeStore) (i : ScopeId) : Prop :=
  ∃ s, store.scope? i = some s ∧ s.captured = true

/-- Each scope lies inside an earlier one. -/
def Nested (store : ScopeStore) : Prop :=
  ∀ i s j, store.scope? i = some s → s.enclosing = some j → j < i

/-- The top scope, if there is one, is not dead. -/
def TopAlive (store : ScopeStore) : Prop :=
  ∀ s, store.scope? (store.size - 1) = some s → s.dead = false

/-- A store as a run leaves it. -/
structure WellFormed (store : ScopeStore) : Prop where
  /-- the global scope stays for good -/
  root : store.Captured globalId
  nested : store.Nested
  /-- what lies around a captured scope is captured -/
  closed : ∀ i s j, store.scope? i = some s → s.captured = true → s.enclosing = some j →
    store.Captured j
  top : store.TopAlive

theorem Captured.lt_size (h : store.Captured i) : i < store.size := by
  obtain ⟨s, hs, -⟩ := h
  exact ScopeStore.lt_size hs

theorem topAlive_reclaim : store.reclaim.TopAlive :=
  (popWhile_spec Scope.dead store.scopes).2.2.2

/-- Captured scopes are never reclaimed. -/
theorem captured_reclaim_iff : store.reclaim.Captured i ↔ store.Captured i := by
  constructor
  · rintro ⟨s, hs, hcap⟩
    exact ⟨s, scope?_reclaim hs, hcap⟩
  · rintro ⟨s, hs, hcap⟩
    exact ⟨s, scope?_reclaim_of_alive hs (by simp [Scope.dead, hcap]), hcap⟩

theorem scope?_fresh (h : fresh.scope? i = some s) : i = globalId ∧ s = { captured := true } := by
  obtain rfl : i = 0 := Nat.lt_one_iff.1 (lt_size h)
  cases h
  exact ⟨rfl, rfl⟩

theorem wellFormed_fresh : fresh.WellFormed where
  root := ⟨{ captured := true }, rfl, rfl⟩
  nested i s j hs hj := by
    obtain ⟨-, rfl⟩ := scope?_fresh hs
    cases hj
  closed i s j hs _ hj := by
    obtain ⟨-, rfl⟩ := scope?_fresh hs
    cases hj
  top s hs := by
    obtain ⟨-, rfl⟩ := scope?_fresh hs
    rfl

/-! ## Binding a name -/

theorem scope?_bind (name : String) (value : Value) : (store.bind j name value).scope? i =
    if j = i then
      (store.scope? i).map fun s => { s with bindings := s.bindings.insert name value }
    else store.scope? i :=
  scope?_update _

/-- Binding a name changes bindings only. -/
theorem exists_of_bind {name : String} {value : Value}
    (h : (store.bind j name value).scope? i = some s) :
    ∃ s₀, store.scope? i = some s₀ ∧ s = { s₀ with bindings := s.bindings } := by
  rw [scope?_bind] at h
  split at h
  · obtain ⟨s₀, hs₀, rfl⟩ := Option.map_eq_some_iff.1 h
    exact ⟨s₀, hs₀, rfl⟩
  · exact ⟨s, h, rfl⟩

/-- Binding a name leaves every scope, but for its bindings. -/
theorem exists_bind (j : ScopeId) (name : String) (value : Value) (h : store.scope? i = some s) :
    ∃ b, (store.bind j name value).scope? i = some { s with bindings := b } := by
  rw [scope?_bind, h]
  split
  · exact ⟨_, rfl⟩
  · exact ⟨s.bindings, rfl⟩

theorem captured_bind_iff {name : String} {value : Value} :
    (store.bind j name value).Captured i ↔ store.Captured i := by
  constructor
  · rintro ⟨s, hs, hcap⟩
    obtain ⟨s₀, hs₀, heq⟩ := exists_of_bind hs
    rw [heq] at hcap
    exact ⟨s₀, hs₀, hcap⟩
  · rintro ⟨s, hs, hcap⟩
    obtain ⟨b, hb⟩ := exists_bind j name value hs
    exact ⟨_, hb, hcap⟩

theorem WellFormed.bind (h : store.WellFormed) (name : String) (value : Value) :
    (store.bind j name value).WellFormed where
  root := captured_bind_iff.2 h.root
  nested i s k hs hk := by
    obtain ⟨s₀, hs₀, heq⟩ := exists_of_bind hs
    rw [heq] at hk
    exact h.nested i s₀ k hs₀ hk
  closed i s k hs hcap hk := by
    obtain ⟨s₀, hs₀, heq⟩ := exists_of_bind hs
    rw [heq] at hcap hk
    exact captured_bind_iff.2 (h.closed i s₀ k hs₀ hcap hk)
  top s hs := by
    rw [size_bind] at hs
    obtain ⟨s₀, hs₀, heq⟩ := exists_of_bind hs
    rw [heq]
    exact h.top s₀ hs₀

/-! ## Opening a scope -/

theorem captured_push_iff {e : ScopeId} : (store.push e).Captured i ↔ store.Captured i := by
  unfold Captured
  rw [scope?_push]
  split
  · rename_i hi
    rw [hi, scope?_eq_none (Nat.le_refl _)]
    simp
  · rfl

/-- A scope may be opened inside any scope that is held. -/
theorem WellFormed.push (h : store.WellFormed) {e : ScopeId} (he : e < store.size) :
    (store.push e).WellFormed where
  root := captured_push_iff.2 h.root
  nested i s k hs hk := by
    rw [scope?_push] at hs
    split at hs
    · rename_i hi
      cases hs
      cases hk
      rwa [hi]
    · exact h.nested i s k hs hk
  closed i s k hs hcap hk := by
    rw [scope?_push] at hs
    split at hs
    · cases hs
      cases hcap
    · exact captured_push_iff.2 (h.closed i s k hs hcap hk)
  top s hs := by
    rw [size_push, Nat.add_sub_cancel, scope?_push, if_pos rfl] at hs
    cases hs
    rfl

/-! ## Capturing scopes -/

/-- In a nested store, walking outward from a scope that is held meets no scope that is not. -/
theorem missingOutward?_eq_none (h : store.Nested) (hi : i < store.size) :
    store.missingOutward? i = none := by
  induction i using Nat.strongRecOn with
  | _ i ih =>
    obtain ⟨s, hs⟩ := exists_scope hi
    rw [missingOutward?, hs]
    dsimp only
    split
    · rfl
    · split
      · rfl
      · rename_i j hj
        have hlt := h i s j hs hj
        rw [if_pos hlt]
        exact ih j hlt (hlt.trans hi)

/-- One store is another with scopes marked as captured. -/
structure Marked (a b : ScopeStore) : Prop where
  size_eq : b.size = a.size
  marks : ∀ i s, a.scope? i = some s →
    ∃ c, b.scope? i = some { s with captured := c } ∧ (s.captured = true → c = true)

theorem Marked.refl (a : ScopeStore) : Marked a a :=
  ⟨rfl, fun _ s hs => ⟨s.captured, hs, id⟩⟩

theorem Marked.trans {a b c : ScopeStore} (hab : Marked a b) (hbc : Marked b c) : Marked a c := by
  refine ⟨hbc.size_eq.trans hab.size_eq, ?_⟩
  intro i s hs
  obtain ⟨x, hx, hsx⟩ := hab.marks i s hs
  obtain ⟨y, hy, hxy⟩ := hbc.marks i _ hx
  exact ⟨y, hy, fun h => hxy (hsx h)⟩

/-- A scope of the marked store was there before. -/
theorem Marked.exists_of {a b : ScopeStore} (h : Marked a b) {s' : Scope}
    (hs' : b.scope? i = some s') :
    ∃ s, a.scope? i = some s ∧ s' = { s with captured := s'.captured } ∧
      (s.captured = true → s'.captured = true) := by
  obtain ⟨s, hs⟩ := exists_scope (h.size_eq ▸ ScopeStore.lt_size hs')
  obtain ⟨c, hc, hmono⟩ := h.marks i s hs
  rw [hs'] at hc
  cases hc
  exact ⟨s, hs, rfl, hmono⟩

theorem Marked.captured {a b : ScopeStore} (h : Marked a b) (hi : a.Captured i) : b.Captured i := by
  obtain ⟨s, hs, hcap⟩ := hi
  obtain ⟨c, hc, hmono⟩ := h.marks i s hs
  exact ⟨_, hc, hmono hcap⟩

/-- The store with one scope marked. -/
def mark (store : ScopeStore) (i : ScopeId) : ScopeStore :=
  store.update i fun s => { s with captured := true }

theorem marked_mark (store : ScopeStore) (i : ScopeId) : Marked store (store.mark i) := by
  refine ⟨size_update _, ?_⟩
  intro k s hs
  rw [mark, scope?_update, hs]
  split
  · exact ⟨true, rfl, fun _ => rfl⟩
  · exact ⟨s.captured, rfl, id⟩

theorem captured_mark (hs : store.scope? i = some s) : (store.mark i).Captured i := by
  refine ⟨{ s with captured := true }, ?_, rfl⟩
  rw [mark, scope?_update, if_pos rfl, hs]
  rfl

/-- One step of the walk that marks scopes. -/
theorem markOutward_eq (h : store.Nested) (hs : store.scope? i = some s) :
    store.markOutward i =
      if s.captured = true then store
      else match s.enclosing with
        | none => store.mark i
        | some j => (store.mark i).markOutward j := by
  rw [markOutward, hs]
  dsimp only
  split
  · rfl
  · rcases he : s.enclosing with _ | j
    · rfl
    · dsimp only
      rw [if_pos (h i s j hs he)]
      rfl

theorem markOutward_of_captured (h : store.Captured i) : store.markOutward i = store := by
  obtain ⟨s, hs, hcap⟩ := h
  rw [markOutward, hs]
  simp only [hcap, ↓reduceIte]

theorem Nested.marked {a b : ScopeStore} (h : a.Nested) (hab : Marked a b) : b.Nested := by
  intro i s' j hs' hj
  obtain ⟨s, hs, heq, -⟩ := hab.exists_of hs'
  rw [heq] at hj
  exact h i s j hs hj

/-- What lies around a captured scope is captured, or is the scope `i`. -/
def ClosedBut (store : ScopeStore) (i : ScopeId) : Prop :=
  ∀ k s j, store.scope? k = some s → s.captured = true → s.enclosing = some j →
    store.Captured j ∨ j = i

/-- **Marking outward captures the scope and closes the gap.** The walk may start where a scope just
marked has left a scope around it unmarked; it stops at the first captured scope, beyond which
there is nothing to do. -/
theorem markOutward_spec (h : store.Nested) (hi : i < store.size) (hclosed : store.ClosedBut i) :
    Marked store (store.markOutward i) ∧ (store.markOutward i).Captured i ∧
      ∀ k s j, (store.markOutward i).scope? k = some s → s.captured = true →
        s.enclosing = some j → (store.markOutward i).Captured j := by
  induction i using Nat.strongRecOn generalizing store with
  | _ i ih =>
    obtain ⟨s, hs⟩ := exists_scope hi
    rw [markOutward_eq h hs]
    split
    · rename_i hcap
      -- the walk ends here, and the gap was not one
      refine ⟨.refl store, ⟨s, hs, hcap⟩, ?_⟩
      intro k t j ht htcap hj
      rcases hclosed k t j ht htcap hj with hj | rfl
      · exact hj
      · exact ⟨s, hs, hcap⟩
    · have hmark := marked_mark store i
      have hcap := captured_mark hs
      -- a scope other than `i` that is captured now was captured before
      have hold : ∀ k t j, (store.mark i).scope? k = some t → t.captured = true → k ≠ i →
          t.enclosing = some j → (store.mark i).Captured j := by
        intro k t j ht htcap hk hj
        rw [mark, scope?_update, if_neg (Ne.symm hk)] at ht
        rcases hclosed k t j ht htcap hj with hj | rfl
        · exact hmark.captured hj
        · exact hcap
      have henc : ∀ t, (store.mark i).scope? i = some t → t.enclosing = s.enclosing := by
        intro t ht
        rw [mark, scope?_update, if_pos rfl, hs] at ht
        cases ht
        rfl
      rcases he : s.enclosing with _ | outer
      · refine ⟨hmark, hcap, ?_⟩
        intro k t j ht htcap hj
        by_cases hk : k = i
        · subst hk
          rw [henc t ht, he] at hj
          cases hj
        · exact hold k t j ht htcap hk hj
      · have hlt := h i s outer hs he
        -- marking `i` moves the gap one scope outward
        have hgap : (store.mark i).ClosedBut outer := by
          intro k t j ht htcap hj
          by_cases hk : k = i
          · subst hk
            rw [henc t ht, he] at hj
            cases hj
            exact .inr rfl
          · exact .inl (hold k t j ht htcap hk hj)
        have houter : outer < (store.mark i).size := by
          rw [hmark.size_eq]
          exact hlt.trans hi
        obtain ⟨hmarked, -, hall⟩ := ih outer hlt (h.marked hmark) houter hgap
        exact ⟨hmark.trans hmarked, hmarked.captured hcap, hall⟩

theorem WellFormed.closedBut (h : store.WellFormed) (i : ScopeId) : store.ClosedBut i :=
  fun k s j hs hcap hj => .inl (h.closed k s j hs hcap hj)

theorem WellFormed.marked_markOutward (h : store.WellFormed) (hi : i < store.size) :
    Marked store (store.markOutward i) :=
  (markOutward_spec h.nested hi (h.closedBut i)).1

theorem WellFormed.captured_markOutward (h : store.WellFormed) (hi : i < store.size) :
    (store.markOutward i).Captured i :=
  (markOutward_spec h.nested hi (h.closedBut i)).2.1

theorem WellFormed.markOutward (h : store.WellFormed) (hi : i < store.size) :
    (store.markOutward i).WellFormed := by
  have hmarked := h.marked_markOutward hi
  refine ⟨hmarked.captured h.root, h.nested.marked hmarked, ?_, ?_⟩
  · exact (markOutward_spec h.nested hi (h.closedBut i)).2.2
  · -- the top scope is the same but for a mark, which does not make it dead
    intro s' hs'
    rw [hmarked.size_eq] at hs'
    obtain ⟨s, hs, heq, hmono⟩ := hmarked.exists_of hs'
    have halive := h.top s hs
    rw [heq]
    simp only [Scope.dead, Bool.and_eq_false_iff, Bool.not_eq_false'] at halive ⊢
    rcases halive with hr | hc
    · exact .inl hr
    · exact .inr (hmono hc)

/-! ## Keeping what is held -/

/-- The scopes of `a` are still held by `b`, in their places and no less captured; what `b` holds
besides is released. -/
structure Keeps (a b : ScopeStore) : Prop where
  kept : ∀ i s, a.scope? i = some s → ∃ s', b.scope? i = some s' ∧ s'.enclosing = s.enclosing ∧
    s'.released = s.released ∧ (s.captured = true → s'.captured = true)
  added : ∀ i s', b.scope? i = some s' → a.size ≤ i → s'.released = true

namespace Keeps

variable {a b c : ScopeStore}

theorem refl (a : ScopeStore) : Keeps a a := by
  refine ⟨fun i s hs => ⟨s, hs, rfl, rfl, id⟩, ?_⟩
  intro i s' hs' hi
  rw [scope?_eq_none hi] at hs'
  cases hs'

theorem trans (hab : Keeps a b) (hbc : Keeps b c) : Keeps a c := by
  constructor
  · intro i s hs
    obtain ⟨s', hs', he', hr', hc'⟩ := hab.kept i s hs
    obtain ⟨s'', hs'', he'', hr'', hc''⟩ := hbc.kept i s' hs'
    exact ⟨s'', hs'', he''.trans he', hr''.trans hr', fun h => hc'' (hc' h)⟩
  · intro i s'' hs'' hi
    -- the scope was added on the way to `c`, or it was in `b` and is released as it was there
    by_cases hib : b.size ≤ i
    · exact hbc.added i s'' hs'' hib
    · obtain ⟨s', hs'⟩ := exists_scope (Nat.lt_of_not_le hib)
      obtain ⟨t, ht, -, hr, -⟩ := hbc.kept i s' hs'
      rw [hs''] at ht
      cases ht
      rw [hr]
      exact hab.added i s' hs' hi

theorem captured (hab : Keeps a b) (h : a.Captured i) : b.Captured i := by
  obtain ⟨s, hs, hcap⟩ := h
  obtain ⟨s', hs', -, -, hmono⟩ := hab.kept i s hs
  exact ⟨s', hs', hmono hcap⟩

theorem size_le (hab : Keeps a b) : a.size ≤ b.size := by
  by_contra hlt
  obtain ⟨s, hs⟩ := exists_scope (Nat.lt_of_not_le hlt)
  obtain ⟨s', hs', -⟩ := hab.kept b.size s hs
  exact Nat.lt_irrefl _ (ScopeStore.lt_size hs')

theorem of_marked (h : Marked a b) : Keeps a b := by
  constructor
  · intro i s hs
    obtain ⟨c, hc, hmono⟩ := h.marks i s hs
    exact ⟨_, hc, rfl, rfl, hmono⟩
  · intro i s' hs' hi
    rw [scope?_eq_none (h.size_eq ▸ hi)] at hs'
    cases hs'

theorem bind (a : ScopeStore) (j : ScopeId) (name : String) (value : Value) :
    Keeps a (a.bind j name value) := by
  constructor
  · intro i s hs
    obtain ⟨b, hb⟩ := exists_bind j name value hs
    exact ⟨_, hb, rfl, rfl, id⟩
  · intro i s' hs' hi
    rw [scope?_eq_none ((size_bind name value).trans_le hi)] at hs'
    cases hs'

/-- A scope that is not dead is kept so. -/
theorem alive (hab : Keeps a b) (hs : a.scope? i = some s) (halive : s.dead = false) :
    ∃ s', b.scope? i = some s' ∧ s'.dead = false := by
  obtain ⟨s', hs', -, hr, hmono⟩ := hab.kept i s hs
  refine ⟨s', hs', ?_⟩
  simp only [Scope.dead, Bool.and_eq_false_iff, Bool.not_eq_false'] at halive ⊢
  rcases halive with h | h
  · exact .inl (hr.trans h)
  · exact .inr (hmono h)

end Keeps

/-! ## Releasing a scope -/

theorem scope?_release (h : (store.release j).scope? i = some s) :
    ∃ s₀, store.scope? i = some s₀ ∧ s = { s₀ with released := s₀.released || decide (i = j) } := by
  have h := scope?_reclaim h
  rw [scope?_update] at h
  split at h
  · rename_i hij
    obtain ⟨s₀, hs₀, rfl⟩ := Option.map_eq_some_iff.1 h
    exact ⟨s₀, hs₀, by simp [hij]⟩
  · rename_i hij
    exact ⟨s, h, by simp [Ne.symm hij]⟩

theorem size_release_le (store : ScopeStore) (j : ScopeId) : (store.release j).size ≤ store.size :=
  size_reclaim_le.trans (size_update _).le

theorem captured_release_iff : (store.release j).Captured i ↔ store.Captured i := by
  rw [release, captured_reclaim_iff]
  unfold Captured
  rw [scope?_update]
  split
  · simp
  · rfl

theorem WellFormed.release (h : store.WellFormed) : (store.release j).WellFormed where
  root := captured_release_iff.2 h.root
  nested i s k hs hk := by
    obtain ⟨s₀, hs₀, rfl⟩ := scope?_release hs
    exact h.nested i s₀ k hs₀ hk
  closed i s k hs hcap hk := by
    obtain ⟨s₀, hs₀, rfl⟩ := scope?_release hs
    exact captured_release_iff.2 (h.closed i s₀ k hs₀ hcap hk)
  top := topAlive_reclaim

/-- Releasing a scope opened on top of a store reclaims nothing of that store: the walk down stops
at its top at the latest, which is not dead. -/
theorem size_le_release {a b : ScopeStore} {e : ScopeId} (ha : a.TopAlive)
    (hab : Keeps (a.push e) b) : a.size ≤ (b.release a.size).size := by
  rcases Nat.eq_zero_or_pos a.size with hzero | hpos
  · omega
  have hlt : a.size - 1 < a.size := Nat.sub_one_lt_of_lt hpos
  obtain ⟨t, ht⟩ := exists_scope hlt
  have hpush : (a.push e).scope? (a.size - 1) = some t := by
    rw [scope?_push, if_neg hlt.ne]
    exact ht
  obtain ⟨t', ht', halive⟩ := hab.alive hpush (ha t ht)
  have hupdate : (b.update a.size fun s => { s with released := true }).scope? (a.size - 1) =
      some t' := by
    rw [scope?_update, if_neg hlt.ne']
    exact ht'
  have hheld : a.size - 1 < (b.release a.size).size :=
    ScopeStore.lt_size (scope?_reclaim_of_alive hupdate halive)
  omega

/-- **Opening a scope, running something on top and releasing the scope keeps what was held.** -/
theorem Keeps.release {a b : ScopeStore} {e : ScopeId} (ha : a.TopAlive)
    (hab : Keeps (a.push e) b) : Keeps a (b.release a.size) := by
  have hsize := size_le_release ha hab
  constructor
  · intro i s hs
    have hi := ScopeStore.lt_size hs
    have hpush : (a.push e).scope? i = some s := by
      rw [scope?_push, if_neg (Nat.ne_of_lt hi)]
      exact hs
    obtain ⟨s', hs', henc, hrel, hcap⟩ := hab.kept i s hpush
    obtain ⟨t, ht⟩ := exists_scope (Nat.lt_of_lt_of_le hi hsize)
    obtain ⟨t₀, ht₀, rfl⟩ := scope?_release ht
    rw [hs'] at ht₀
    cases ht₀
    refine ⟨_, ht, henc, ?_, hcap⟩
    simp [Nat.ne_of_lt hi, hrel]
  · intro i s' hs' hi
    obtain ⟨s₀, hs₀, rfl⟩ := scope?_release hs'
    -- the scope that was opened is released now, and those above it were before
    rcases Nat.eq_or_lt_of_le hi with heq | hlt
    · simp [heq]
    · have hrel := hab.added i s₀ hs₀ (by rw [size_push]; omega)
      simp [hrel]

/-! ## Looking names up -/

/-- In a nested store, a name looked up from a scope that is held is bound by a scope that is held,
or by none. -/
theorem resolve_cases (h : store.Nested) (hi : i < store.size) (name : String) :
    (∃ owner value s, store.resolve name i = .ok (owner, value) ∧
      store.scope? owner = some s ∧ s.bindings.find? name = some value) ∨
    store.resolve name i = .error .unbound := by
  induction i using Nat.strongRecOn with
  | _ i ih =>
    obtain ⟨s, hs⟩ := exists_scope hi
    rw [resolve, hs]
    dsimp only
    split
    · rename_i value hvalue
      exact .inl ⟨i, value, s, rfl, hs, hvalue⟩
    · split
      · exact .inr rfl
      · rename_i j hj
        have hlt := h i s j hs hj
        rw [if_pos hlt]
        exact ih j hlt (hlt.trans hi)

/-- The names seen from a scope that is held can be listed. -/
theorem exists_namesFrom (h : store.Nested) (hi : i < store.size) (found : List String) :
    ∃ names, store.namesFrom found i = .ok names := by
  induction i using Nat.strongRecOn generalizing found with
  | _ i ih =>
    obtain ⟨s, hs⟩ := exists_scope hi
    rw [namesFrom, hs]
    dsimp only
    split
    · exact ⟨_, rfl⟩
    · rename_i j hj
      have hlt := h i s j hs hj
      rw [if_pos hlt]
      exact ih j hlt (hlt.trans hi) _

/-! ## What a store binds -/

/-- Every value bound in a store has a property. -/
def AllBound (P : Value → Prop) (store : ScopeStore) : Prop :=
  ∀ i s, store.scope? i = some s → ∀ entry ∈ s.bindings.entries, P entry.2

section

variable {P : Value → Prop} {name : String} {value : Value}

theorem AllBound.bind (h : store.AllBound P) (j : ScopeId) (name : String) (hvalue : P value) :
    (store.bind j name value).AllBound P := by
  intro i s hs entry hentry
  rw [scope?_bind] at hs
  split at hs
  · obtain ⟨s₀, hs₀, rfl⟩ := Option.map_eq_some_iff.1 hs
    rcases mem_insertEntry hentry with rfl | hold
    · exact hvalue
    · exact h i s₀ hs₀ entry hold
  · exact h i s hs entry hentry

theorem AllBound.push (h : store.AllBound P) (e : ScopeId) : (store.push e).AllBound P := by
  intro i s hs entry hentry
  rw [scope?_push] at hs
  split at hs
  · cases hs
    cases hentry
  · exact h i s hs entry hentry

theorem AllBound.release (h : store.AllBound P) (j : ScopeId) : (store.release j).AllBound P := by
  intro i s hs entry hentry
  obtain ⟨s₀, hs₀, rfl⟩ := scope?_release hs
  exact h i s₀ hs₀ entry hentry

/-- The walk that marks scopes does nothing else, wherever it begins. -/
theorem marked_markOutward (store : ScopeStore) (i : ScopeId) :
    Marked store (store.markOutward i) := by
  fun_induction markOutward store i with
  | case1 store | case2 store => exact .refl store
  | case3 store i => exact marked_mark store i
  | case4 store i _ _ _ _ _ _ _ _ ih => exact (marked_mark store i).trans ih
  | case5 store i => exact marked_mark store i

theorem AllBound.markOutward (h : store.AllBound P) (i : ScopeId) :
    (store.markOutward i).AllBound P := by
  intro k s' hs' entry hentry
  obtain ⟨s, hs, heq, -⟩ := (marked_markOutward store i).exists_of hs'
  rw [heq] at hentry
  exact h k s hs entry hentry

theorem AllBound.resolve (h : store.AllBound P) {owner : ScopeId}
    (hres : store.resolve name i = .ok (owner, value)) : P value := by
  fun_induction ScopeStore.resolve store name i with
  | case1 => cases hres
  | case2 i s hs found hfind =>
    obtain ⟨rfl, rfl⟩ := Prod.mk.inj (Except.ok.inj hres)
    exact h i s hs (name, found) (mem_of_lookup hfind)
  | case3 => cases hres
  | case4 i s hs _ outer _ _ ih => exact ih hres
  | case5 => cases hres

theorem AllBound.getLocal? (h : store.AllBound P) (hfound : store.getLocal? i name = some value) :
    P value := by
  obtain ⟨s, hs, hfind⟩ := Option.bind_eq_some_iff.1 hfound
  exact h i s hs (name, value) (mem_of_lookup hfind)

end

end ScopeStore

end GradedScript
