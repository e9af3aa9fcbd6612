import GradedScript.Proofs.Scope.Reindexing

/-!
# Stores in step

Two runs that go on side by side open the same scopes and see the same of those opened before. A
`View` says which scopes they see. `ScopeStore.InStep T I V a b` says that the scopes in sight are
alike in both stores: they bind the same names to matching values, lie inside the same scopes and
are captured alike. Of scopes out of sight nothing is known; no operation on a scope in sight
changes one (`ScopeStore.SameBeyond`). Looking a name up, binding one, opening, capturing and
releasing a scope in both stores keeps them in step.
-/

namespace GradedScript

/-! ## Bindings -/

theorem lookup_insertEntry (name : String) (value : Value) (entries : List (String × Value))
    (other : String) : (insertEntry name value entries).lookup other =
      if other = name then some value else entries.lookup other := by
  have hcons : ∀ (bound : String) (v : Value) (rest : List (String × Value)),
      ((bound, v) :: rest).lookup other = if other = bound then some v else rest.lookup other := by
    intro bound v rest
    rw [List.lookup_cons]
    by_cases h : other = bound
    · simp [h]
    · have hne : (other == bound) = false := by simp [h]
      simp only [hne, if_neg h]
  induction entries with
  | nil => exact hcons name value []
  | cons entry entries ih =>
    obtain ⟨bound, old⟩ := entry
    rw [insertEntry]
    split
    · rename_i hbound
      rw [eq_of_beq hbound, hcons, hcons]
      split <;> rfl
    · rename_i hbound
      rw [hcons, hcons, ih]
      by_cases h : other = bound
      · have hne : other ≠ name := by
          rintro rfl
          exact hbound (beq_iff_eq.2 h.symm)
        simp [h, h ▸ hne]
      · simp [h]

/-- After a name is bound, it has the new value and all others the values they had. -/
theorem Bindings.find?_insert (b : Bindings) (name : String) (value : Value) (other : String) :
    (b.insert name value).find? other = if other = name then some value else b.find? other :=
  lookup_insertEntry name value b.entries other

theorem Bindings.mem_names_iff (b : Bindings) (name : String) :
    name ∈ b.names ↔ (b.find? name).isSome := by
  obtain ⟨entries⟩ := b
  unfold Bindings.names Bindings.find?
  induction entries with
  | nil => simp
  | cons entry entries ih =>
    obtain ⟨other, value⟩ := entry
    dsimp only at ih ⊢
    by_cases hname : name = other
    · simp [hname]
    · rw [List.map_cons, List.mem_cons, List.lookup_cons, beq_false_of_ne hname, ih]
      exact or_iff_right hname

/-! ## Scopes that are alike -/

/-- Scopes that cannot be told apart by looking names up, or by walking outward. -/
structure Scope.Alike (T : TokenMatch) (L : Links) (s s' : Scope) : Prop where
  bindings : ∀ name,
    Option.Rel (Value.Matches T L) (s.bindings.find? name) (s'.bindings.find? name)
  enclosing : s'.enclosing = s.enclosing
  captured : s'.captured = s.captured

theorem option_rel_mono {α β : Type} {R R' : α → β → Prop} (h : ∀ a b, R a b → R' a b)
    {x : Option α} {y : Option β} (hxy : Option.Rel R x y) : Option.Rel R' x y := by
  cases hxy with
  | none => exact .none
  | some hr => exact .some (h _ _ hr)

section

variable {T : TokenMatch} {L L' : Links} {s s' : Scope}

theorem Scope.Alike.mono (hscopes : ∀ c c', L.scopes c c' → L'.scopes c c')
    (hidentities : ∀ i i', L.identities i i' → L'.identities i i') (h : s.Alike T L s') :
    s.Alike T L' s' :=
  { h with bindings := fun name =>
      option_rel_mono (fun _ _ hv => hv.mono hscopes hidentities) (h.bindings name) }

/-- Binding a name to matching values leaves scopes alike. -/
theorem Scope.Alike.insert (h : s.Alike T L s') (name : String) {value value' : Value}
    (hvalue : value.Matches T L value') :
    Scope.Alike T L { s with bindings := s.bindings.insert name value }
      { s' with bindings := s'.bindings.insert name value' } := by
  refine { h with bindings := fun other => ?_ }
  rw [Bindings.find?_insert, Bindings.find?_insert]
  split
  · exact .some hvalue
  · exact h.bindings other

end

/-! ## What is in sight -/

/-- The scopes that a run sees: all from `base` on, which it opens itself, and some before. -/
structure View where
  base : Nat
  Sees : ScopeId → Prop
  sees_of_le : ∀ i, base ≤ i → Sees i

/-- Every scope is in sight. -/
def View.whole : View where
  base := 0
  Sees _ := True
  sees_of_le _ _ := trivial

/-- The captured scopes of a store are in sight, and all that is opened later. -/
def View.onlyCaptured (store : ScopeStore) : View where
  base := store.size
  Sees i := store.size ≤ i ∨ store.Captured i
  sees_of_le _ := .inl

namespace ScopeStore

/-- Functions correspond if they are declared in the same captured scope; how their identities do is
left open. -/
def linksBy (store : ScopeStore) (I : Nat → Nat → Prop) : Links where
  scopes c c' := c = c' ∧ store.Captured c
  identities := I

/-- Scopes out of sight are the same in both stores. -/
def SameBeyond (V : View) (a b : ScopeStore) : Prop :=
  ∀ i, ¬ V.Sees i → b.scope? i = a.scope? i

variable {T : TokenMatch} {I I' : Nat → Nat → Prop} {V : View} {a b c : ScopeStore}
  {i j : ScopeId}

theorem linksBy_mono (h : ∀ i, a.Captured i → b.Captured i) (c c' : ScopeId)
    (hc : (a.linksBy I).scopes c c') : (b.linksBy I').scopes c c' :=
  ⟨hc.1, h c hc.2⟩

theorem SameBeyond.refl (V : View) (a : ScopeStore) : SameBeyond V a a :=
  fun _ _ => rfl

theorem SameBeyond.trans (hab : SameBeyond V a b) (hbc : SameBeyond V b c) : SameBeyond V a c :=
  fun i hi => (hbc i hi).trans (hab i hi)

theorem lt_base_of_not_sees (hi : ¬ V.Sees i) : i < V.base :=
  Nat.lt_of_not_le fun hle => hi (V.sees_of_le i hle)

theorem sameBeyond_update (hj : V.Sees j) (f : Scope → Scope) : SameBeyond V a (a.update j f) := by
  intro i hi
  have hne : j ≠ i := by
    rintro rfl
    exact hi hj
  rw [scope?_update, if_neg hne]

theorem sameBeyond_push (hbase : V.base ≤ a.size) (e : ScopeId) : SameBeyond V a (a.push e) := by
  intro i hi
  have hlt : i < a.size := Nat.lt_of_lt_of_le (lt_base_of_not_sees hi) hbase
  rw [scope?_push, if_neg (Nat.ne_of_lt hlt)]

/-- Releasing a scope that the run opened leaves what is out of sight, if nothing of it is
reclaimed. -/
theorem sameBeyond_release (hj : V.base ≤ j) (hsize : V.base ≤ (a.release j).size) :
    SameBeyond V a (a.release j) := by
  intro i hi
  have hlt := lt_base_of_not_sees hi
  obtain ⟨s, hs⟩ := exists_scope (Nat.lt_of_lt_of_le hlt hsize)
  obtain ⟨s₀, hs₀, rfl⟩ := scope?_release hs
  have hne : i ≠ j := Nat.ne_of_lt (Nat.lt_of_lt_of_le hlt hj)
  rw [hs, hs₀]
  simp [hne]

/-! ## Walking outward in two stores at once

What is met on the way outward is in sight, so both walks find the same. -/

/-- The scopes in sight lie inside one another in the same way and are captured alike. -/
structure SameShape (V : View) (a b : ScopeStore) : Prop where
  left : a.Nested
  right : b.Nested
  scopes : ∀ i, V.Sees i → Option.Rel
    (fun s s' : Scope => s'.enclosing = s.enclosing ∧ s'.captured = s.captured)
    (a.scope? i) (b.scope? i)
  enclosed : ∀ i s j, V.Sees i → a.scope? i = some s → s.enclosing = some j → V.Sees j

theorem SameShape.mark (h : SameShape V a b) (i : ScopeId) : SameShape V (a.mark i) (b.mark i) where
  left := h.left.marked (marked_mark a i)
  right := h.right.marked (marked_mark b i)
  scopes k hk := by
    rw [ScopeStore.mark, ScopeStore.mark, scope?_update, scope?_update]
    split
    · rcases option_rel_cases (h.scopes k hk) with ⟨hs, hs'⟩ | ⟨s, s', hs, hs', henc, -⟩
      · rw [hs, hs']
        exact .none
      · rw [hs, hs']
        exact .some ⟨henc, rfl⟩
    · exact h.scopes k hk
  enclosed k s j hk hs hj := by
    obtain ⟨s₀, hs₀, heq, -⟩ := (marked_mark a i).exists_of hs
    rw [heq] at hj
    exact h.enclosed k s₀ j hk hs₀ hj

/-- Marking outward from a scope in sight goes the same way in both stores, and never out of
sight. -/
theorem SameShape.markOutward (h : SameShape V a b) (hi : V.Sees i) :
    SameShape V (a.markOutward i) (b.markOutward i) ∧ SameBeyond V a (a.markOutward i) ∧
      SameBeyond V b (b.markOutward i) := by
  induction i using Nat.strongRecOn generalizing a b with
  | _ i ih =>
    rcases option_rel_cases (h.scopes i hi) with ⟨hs, hs'⟩ | ⟨s, s', hs, hs', henc, hcap⟩
    · rw [ScopeStore.markOutward, ScopeStore.markOutward, hs, hs']
      exact ⟨h, .refl V a, .refl V b⟩
    · rw [markOutward_eq h.left hs, markOutward_eq h.right hs', henc, hcap]
      split
      · exact ⟨h, .refl V a, .refl V b⟩
      · have hmark := h.mark i
        have hbeyond : SameBeyond V a (a.mark i) := sameBeyond_update hi _
        have hbeyond' : SameBeyond V b (b.mark i) := sameBeyond_update hi _
        split
        · exact ⟨hmark, hbeyond, hbeyond'⟩
        · rename_i j hj
          obtain ⟨hshape, hrest, hrest'⟩ := ih j (h.left i s j hs hj) hmark (h.enclosed i s j hi hs hj)
          exact ⟨hshape, hbeyond.trans hrest, hbeyond'.trans hrest'⟩

/-! ## Stores in step -/

/-- The scopes in sight are alike in both stores, and those the runs opened themselves are released
alike. What is captured is in sight, and so is what lies around a scope in sight. -/
structure InStep (T : TokenMatch) (I : Nat → Nat → Prop) (V : View) (a b : ScopeStore) : Prop where
  left : a.WellFormed
  right : b.WellFormed
  size_eq : b.size = a.size
  base_le : V.base ≤ a.size
  scopes : ∀ i s s', V.Sees i → a.scope? i = some s → b.scope? i = some s' →
    s.Alike T (a.linksBy I) s'
  released : ∀ i s s', V.base ≤ i → a.scope? i = some s → b.scope? i = some s' →
    s'.released = s.released
  enclosed : ∀ i s j, V.Sees i → a.scope? i = some s → s.enclosing = some j → V.Sees j
  captured : ∀ i, a.Captured i → V.Sees i

namespace InStep

theorem lt_right (h : InStep T I V a b) (hi : i < a.size) : i < b.size :=
  h.size_eq ▸ hi

theorem mono (hI : ∀ i i', I i i' → I' i i') (h : InStep T I V a b) : InStep T I' V a b :=
  { h with scopes := fun i s s' hi hs hs' =>
      (h.scopes i s s' hi hs hs').mono (linksBy_mono fun _ => id) hI }

/-- A scope is in both stores or in neither. -/
theorem exists_right (h : InStep T I V a b) {s : Scope} (hs : a.scope? i = some s) :
    ∃ s', b.scope? i = some s' :=
  exists_scope (h.lt_right (lt_size hs))

theorem sameShape (h : InStep T I V a b) : SameShape V a b where
  left := h.left.nested
  right := h.right.nested
  scopes i hi := by
    cases hs : a.scope? i with
    | none =>
      have hle : b.size ≤ i := by
        rw [h.size_eq]
        exact Array.getElem?_eq_none_iff.1 hs
      rw [scope?_eq_none hle]
      exact .none
    | some s =>
      obtain ⟨s', hs'⟩ := h.exists_right hs
      have halike := h.scopes i s s' hi hs hs'
      rw [hs']
      exact .some ⟨halike.enclosing, halike.captured⟩
  enclosed := h.enclosed

/-- Names are looked up alike from scopes in sight. -/
theorem resolve_alike (h : InStep T I V a b) (hi : V.Sees i) (hlt : i < a.size) (name : String) :
    ResolvesAlike (fun owner owner' => owner' = owner ∧ V.Sees owner)
      (Value.Matches T (a.linksBy I)) (a.resolve name i) (b.resolve name i) := by
  induction i using Nat.strongRecOn with
  | _ i ih =>
    obtain ⟨s, hs⟩ := exists_scope hlt
    obtain ⟨s', hs'⟩ := h.exists_right hs
    have halike := h.scopes i s s' hi hs hs'
    rw [resolve, resolve, hs, hs']
    dsimp only
    rcases option_rel_cases (halike.bindings name) with ⟨hv, hv'⟩ | ⟨value, value', hv, hv', hvalue⟩
    · rw [hv, hv', halike.enclosing]
      dsimp only
      cases hj : s.enclosing with
      | none => exact .unbound
      | some j =>
        have hji := h.left.nested i s j hs hj
        dsimp only
        rw [if_pos hji, if_pos hji]
        exact ih j hji (h.enclosed i s j hi hs hj) (hji.trans hlt)
    · rw [hv, hv']
      exact .found ⟨rfl, hi⟩ hvalue

/-- Binding a name to matching values. -/
theorem bind (h : InStep T I V a b) (j : ScopeId) (name : String) {value value' : Value}
    (hvalue : value.Matches T (a.linksBy I) value') :
    InStep T I V (a.bind j name value) (b.bind j name value') where
  left := h.left.bind name value
  right := h.right.bind name value'
  size_eq := by
    rw [size_bind, size_bind]
    exact h.size_eq
  base_le := by
    rw [size_bind]
    exact h.base_le
  scopes i s s' hi hs hs' := by
    have hmono : ∀ c c', (a.linksBy I).scopes c c' → ((a.bind j name value).linksBy I).scopes c c' :=
      linksBy_mono fun _ => captured_bind_iff.2
    rw [scope?_bind] at hs hs'
    split at hs
    · rename_i hji
      rw [if_pos hji] at hs'
      obtain ⟨s₀, hs₀, rfl⟩ := Option.map_eq_some_iff.1 hs
      obtain ⟨s₀', hs₀', rfl⟩ := Option.map_eq_some_iff.1 hs'
      exact ((h.scopes i s₀ s₀' hi hs₀ hs₀').insert name hvalue).mono hmono fun _ _ => id
    · rename_i hji
      rw [if_neg hji] at hs'
      exact (h.scopes i s s' hi hs hs').mono hmono fun _ _ => id
  released i s s' hi hs hs' := by
    obtain ⟨s₀, hs₀, heq⟩ := exists_of_bind hs
    obtain ⟨s₀', hs₀', heq'⟩ := exists_of_bind hs'
    rw [heq, heq']
    exact h.released i s₀ s₀' hi hs₀ hs₀'
  enclosed i s k hi hs hk := by
    obtain ⟨s₀, hs₀, heq⟩ := exists_of_bind hs
    rw [heq] at hk
    exact h.enclosed i s₀ k hi hs₀ hk
  captured i hi := h.captured i (captured_bind_iff.1 hi)

/-- Opening scopes inside one in sight. -/
theorem push (h : InStep T I V a b) {e : ScopeId} (he : V.Sees e) (hlt : e < a.size) :
    InStep T I V (a.push e) (b.push e) := by
  have hnew : V.Sees a.size := V.sees_of_le _ h.base_le
  refine ⟨h.left.push hlt, h.right.push (h.lt_right hlt), ?_, ?_, ?_, ?_, ?_, ?_⟩
  · rw [size_push, size_push, h.size_eq]
  · rw [size_push]
    exact Nat.le_succ_of_le h.base_le
  · intro i s s' hi hs hs'
    rw [scope?_push] at hs hs'
    rw [h.size_eq] at hs'
    split at hs
    · rename_i hia
      rw [if_pos hia] at hs'
      cases hs
      cases hs'
      exact ⟨fun _ => .none, rfl, rfl⟩
    · rename_i hia
      rw [if_neg hia] at hs'
      exact (h.scopes i s s' hi hs hs').mono (linksBy_mono fun _ => captured_push_iff.2)
        fun _ _ => id
  · intro i s s' hi hs hs'
    rw [scope?_push] at hs hs'
    rw [h.size_eq] at hs'
    split at hs
    · rename_i hia
      rw [if_pos hia] at hs'
      cases hs
      cases hs'
      rfl
    · rename_i hia
      rw [if_neg hia] at hs'
      exact h.released i s s' hi hs hs'
  · intro i s k hi hs hk
    rw [scope?_push] at hs
    split at hs
    · cases hs
      cases hk
      exact he
    · exact h.enclosed i s k hi hs hk
  · intro i hi
    exact h.captured i (captured_push_iff.1 hi)

/-- Capturing a scope in sight. -/
theorem markOutward (h : InStep T I V a b) (hi : V.Sees i) (hlt : i < a.size) :
    InStep T I V (a.markOutward i) (b.markOutward i) := by
  have hmarked := h.left.marked_markOutward hlt
  have hmarked' := h.right.marked_markOutward (h.lt_right hlt)
  obtain ⟨hshape, hbeyond, -⟩ := h.sameShape.markOutward hi
  refine ⟨h.left.markOutward hlt, h.right.markOutward (h.lt_right hlt), ?_, ?_, ?_, ?_,
    hshape.enclosed, ?_⟩
  · rw [hmarked.size_eq, hmarked'.size_eq, h.size_eq]
  · rw [hmarked.size_eq]
    exact h.base_le
  · intro k s s' hk hs hs'
    obtain ⟨s₀, hs₀, heq, -⟩ := hmarked.exists_of hs
    obtain ⟨s₀', hs₀', heq', -⟩ := hmarked'.exists_of hs'
    have halike := (h.scopes k s₀ s₀' hk hs₀ hs₀').mono
      (linksBy_mono fun _ => hmarked.captured) fun _ _ => id
    -- only the marks are new, and they are the same
    have hsame := hshape.scopes k hk
    rw [hs, hs'] at hsame
    cases hsame with
    | some hsame =>
      rw [heq, heq']
      exact ⟨halike.bindings, halike.enclosing, hsame.2⟩
  · intro k s s' hk hs hs'
    obtain ⟨s₀, hs₀, heq, -⟩ := hmarked.exists_of hs
    obtain ⟨s₀', hs₀', heq', -⟩ := hmarked'.exists_of hs'
    rw [heq, heq']
    exact h.released k s₀ s₀' hk hs₀ hs₀'
  · intro k hk
    by_contra hunseen
    obtain ⟨s, hs, hcap⟩ := hk
    rw [hbeyond k hunseen] at hs
    exact hunseen (h.captured k ⟨s, hs, hcap⟩)

end InStep

/-! ## Releasing in step

Scopes on top are reclaimed if they are released and not captured. Both are alike for scopes that
the runs opened, so they go together. -/

/-- If what one array pops last is kept in the other, it is not popped for the same reason. -/
theorem size_popWhile_le {α β : Type} {p : α → Bool} {q : β → Bool} {as : Array α} {bs : Array β}
    (hsize : bs.size = as.size) {m : Nat} (hm : m ≤ (as.popWhile p).size)
    (hsame : ∀ k x y, m ≤ k → as[k]? = some x → bs[k]? = some y → q y = p x) :
    (bs.popWhile q).size ≤ (as.popWhile p).size := by
  obtain ⟨-, -, hgone, -⟩ := popWhile_spec p as
  obtain ⟨hle, hkept, -, hlast⟩ := popWhile_spec q bs
  by_contra hlt
  -- the last element that the second array keeps
  have hk : (bs.popWhile q).size - 1 < (bs.popWhile q).size := by omega
  have hk' : (bs.popWhile q).size - 1 < as.size := by omega
  have hy := Array.getElem?_eq_getElem hk
  have hx := Array.getElem?_eq_getElem hk'
  have hpopped := hgone _ _ (by omega) hx
  have hstays := hlast _ hy
  rw [hkept _ hk] at hy
  rw [hsame _ _ _ (by omega) hx hy, hpopped] at hstays
  exact Bool.false_ne_true hstays.symm

/-- Releasing a scope, when nothing that the runs found is reclaimed. -/
theorem InStep.release (h : InStep T I V a b) (j : ScopeId)
    (hleft : V.base ≤ (a.release j).size) (hright : V.base ≤ (b.release j).size) :
    InStep T I V (a.release j) (b.release j) := by
  let mark : Scope → Scope := fun s => { s with released := true }
  have hupdate : (b.update j mark).size = (a.update j mark).size := by
    rw [size_update, size_update, h.size_eq]
  -- scopes that the runs opened are dead alike
  have hdead : ∀ k x y, V.base ≤ k → (a.update j mark).scopes[k]? = some x →
      (b.update j mark).scopes[k]? = some y → y.dead = x.dead := by
    intro k x y hk hx hy
    have hx : (a.update j mark).scope? k = some x := hx
    have hy : (b.update j mark).scope? k = some y := hy
    rw [scope?_update] at hx hy
    split at hx
    · rename_i hjk
      rw [if_pos hjk] at hy
      obtain ⟨x₀, hx₀, rfl⟩ := Option.map_eq_some_iff.1 hx
      obtain ⟨y₀, hy₀, rfl⟩ := Option.map_eq_some_iff.1 hy
      have hcap := (h.scopes k x₀ y₀ (V.sees_of_le k hk) hx₀ hy₀).captured
      simp [Scope.dead, mark, hcap]
    · rename_i hjk
      rw [if_neg hjk] at hy
      have hcap := (h.scopes k x y (V.sees_of_le k hk) hx hy).captured
      simp [Scope.dead, hcap, h.released k x y hk hx hy]
  refine ⟨h.left.release, h.right.release, ?_, hleft, ?_, ?_, ?_, ?_⟩
  · refine Nat.le_antisymm (size_popWhile_le hupdate hleft hdead) ?_
    exact size_popWhile_le hupdate.symm hright fun k y x hk hy hx => (hdead k x y hk hx hy).symm
  · intro i s s' hi hs hs'
    obtain ⟨s₀, hs₀, rfl⟩ := scope?_release hs
    obtain ⟨s₀', hs₀', rfl⟩ := scope?_release hs'
    have hmono : ∀ c c', (a.linksBy I).scopes c c' → ((a.release j).linksBy I).scopes c c' :=
      linksBy_mono fun _ => captured_release_iff.2
    have halike := (h.scopes i s₀ s₀' hi hs₀ hs₀').mono hmono fun _ _ => id
    exact ⟨halike.bindings, halike.enclosing, halike.captured⟩
  · intro i s s' hi hs hs'
    obtain ⟨s₀, hs₀, rfl⟩ := scope?_release hs
    obtain ⟨s₀', hs₀', rfl⟩ := scope?_release hs'
    simp [h.released i s₀ s₀' hi hs₀ hs₀']
  · intro i s k hi hs hk
    obtain ⟨s₀, hs₀, rfl⟩ := scope?_release hs
    exact h.enclosed i s₀ k hi hs₀ hk
  · intro i hi
    exact h.captured i (captured_release_iff.1 hi)

end ScopeStore

end GradedScript
