import GradedScript.Proofs.Machine.Matching
import GradedScript.Proofs.Scope.Store

/-!
# Stores that differ by where scopes are

`ScopeStore.Reindexed T map a b` says that the scopes of `a` are scopes of `b` under other indices,
which `map` lists: corresponding scopes bind the same names to matching values and lie inside
corresponding scopes. The store `b` may hold more. Names are looked up alike in both, and opening a
scope, binding a name and capturing scopes in both keep the correspondence; reclaiming scopes of `a`
alone cuts the map short.
-/

namespace GradedScript

variable {T : TokenMatch} {L L' : Links} {map map' : List ScopeId} {a b : ScopeStore}

/-- Functions correspond if their closures are captured in the first store and are at corresponding
indices. -/
def ScopeStore.linksVia (store : ScopeStore) (map : List ScopeId) : Links where
  scopes c c' := store.Captured c ∧ map[c]? = some c'
  identities := Eq

/-- Two look-ups of a name come to the same: both find matching values, in scopes that correspond, or
both find nothing. -/
inductive ScopeStore.ResolvesAlike (owners : ScopeId → ScopeId → Prop)
    (values : Value → Value → Prop) :
    Except Absence (ScopeId × Value) → Except Absence (ScopeId × Value) → Prop
  | found {owner owner' value value'} (howner : owners owner owner') (hvalue : values value value') :
      ResolvesAlike owners values (.ok (owner, value)) (.ok (owner', value'))
  | unbound : ResolvesAlike owners values (.error .unbound) (.error .unbound)

/-! ## Matching scopes -/

/-- Related options are both empty, or hold related values. -/
theorem option_rel_cases {α β : Type} {R : α → β → Prop} {x : Option α} {y : Option β}
    (h : Option.Rel R x y) :
    (x = none ∧ y = none) ∨ ∃ v w, x = some v ∧ y = some w ∧ R v w := by
  cases h with
  | none => exact .inl ⟨rfl, rfl⟩
  | some hr => exact .inr ⟨_, _, rfl, rfl, hr⟩

/-- The same name with matching values. -/
def EntriesMatch (T : TokenMatch) (L : Links) (entry entry' : String × Value) : Prop :=
  entry.1 = entry'.1 ∧ entry.2.Matches T L entry'.2

/-- Scopes that bind the same names to matching values and lie inside corresponding scopes. -/
structure Scope.Matches (T : TokenMatch) (L : Links) (map : List ScopeId) (s s' : Scope) :
    Prop where
  entries : List.Forall₂ (EntriesMatch T L) s.bindings.entries s'.bindings.entries
  enclosing : Option.Rel (fun j j' => map[j]? = some j') s.enclosing s'.enclosing

theorem lookup_matches {name : String} {entries entries' : List (String × Value)}
    (h : List.Forall₂ (EntriesMatch T L) entries entries') :
    Option.Rel (Value.Matches T L) (entries.lookup name) (entries'.lookup name) := by
  induction h with
  | nil => exact .none
  | @cons entry entry' entries entries' hentry _ ih =>
    obtain ⟨hname, hvalue⟩ := hentry
    rw [List.lookup_cons, List.lookup_cons, hname]
    cases name == entry'.1 with
    | true => exact .some hvalue
    | false => exact ih

theorem names_eq_of_matches {entries entries' : List (String × Value)}
    (h : List.Forall₂ (EntriesMatch T L) entries entries') :
    entries.map Prod.fst = entries'.map Prod.fst := by
  induction h with
  | nil => rfl
  | cons hentry _ ih => rw [List.map_cons, List.map_cons, hentry.1, ih]

theorem insertEntry_matches {name : String} {value value' : Value}
    (hvalue : value.Matches T L value') {entries entries' : List (String × Value)}
    (h : List.Forall₂ (EntriesMatch T L) entries entries') :
    List.Forall₂ (EntriesMatch T L) (insertEntry name value entries)
      (insertEntry name value' entries') := by
  induction h with
  | nil => exact .cons ⟨rfl, hvalue⟩ .nil
  | @cons entry entry' entries entries' hentry hrest ih =>
    obtain ⟨other, old⟩ := entry
    obtain ⟨other', old'⟩ := entry'
    obtain ⟨rfl, hold⟩ := hentry
    unfold insertEntry
    split
    · exact .cons ⟨rfl, hvalue⟩ hrest
    · exact .cons ⟨rfl, hold⟩ ih

theorem Scope.Matches.mono {s s' : Scope} (h : s.Matches T L map s')
    (hscopes : ∀ c c', L.scopes c c' → L'.scopes c c')
    (hidentities : ∀ i i', L.identities i i' → L'.identities i i')
    (hmap : ∀ j j', s.enclosing = some j → map[j]? = some j' → map'[j]? = some j') :
    s.Matches T L' map' s' := by
  refine ⟨h.entries.imp fun _ _ hentry => ⟨hentry.1, hentry.2.mono hscopes hidentities⟩, ?_⟩
  rcases option_rel_cases h.enclosing with ⟨he, he'⟩ | ⟨j, j', he, he', hj⟩
  · rw [he, he']
    exact .none
  · have hj' := hmap j j' he hj
    rw [he, he']
    exact .some hj'

/-- What a list holds at an index, a longer one with the same beginning does too. -/
theorem getElem?_of_prefix {α : Type} {l l' : List α} (h : l <+: l') {i : Nat} {x : α}
    (hi : l[i]? = some x) : l'[i]? = some x := by
  obtain ⟨t, rfl⟩ := h
  rw [List.getElem?_append_left (List.getElem?_eq_some_iff.1 hi).1]
  exact hi

/-- What a list with one more at its end holds at an index, it held before, or it is the last. -/
theorem getElem?_concat_cases {α : Type} {l : List α} {i : Nat} {x y : α}
    (h : (l ++ [x])[i]? = some y) : l[i]? = some y ∨ (i = l.length ∧ y = x) := by
  rcases Nat.lt_or_ge i l.length with hlt | hge
  · rw [List.getElem?_append_left hlt] at h
    exact .inl h
  · have hlt : i < (l ++ [x]).length := (List.getElem?_eq_some_iff.1 h).1
    rw [List.length_append, List.length_singleton] at hlt
    obtain rfl : i = l.length := Nat.le_antisymm (Nat.le_of_lt_succ hlt) hge
    rw [List.getElem?_concat_length] at h
    exact .inr ⟨rfl, (Option.some.inj h).symm⟩

theorem getElem?_take_iff {α : Type} {l : List α} {n i : Nat} {x : α} :
    (l.take n)[i]? = some x ↔ i < n ∧ l[i]? = some x := by
  rw [List.getElem?_take]
  split
  · rename_i hlt
    exact ⟨fun h => ⟨hlt, h⟩, And.right⟩
  · rename_i hge
    exact ⟨fun h => absurd h (Option.some_ne_none x).symm, fun h => absurd h.1 hge⟩

namespace ScopeStore

/-- Functions stay linked while captured scopes stay captured and the map grows. -/
theorem linksVia_mono {a' : ScopeStore} (hcaptured : ∀ i, a.Captured i → a'.Captured i)
    (hmap : map <+: map') (c c' : ScopeId) (hc : (a.linksVia map).scopes c c') :
    (a'.linksVia map').scopes c c' :=
  ⟨hcaptured c hc.1, getElem?_of_prefix hmap hc.2⟩

/-- Releasing a scope unlinks no function, though it may cut the map short. -/
theorem linksVia_release (j : ScopeId) {c c' : ScopeId} (hc : (a.linksVia map).scopes c c') :
    ((a.release j).linksVia (map.take (a.release j).size)).scopes c c' := by
  have hcaptured : (a.release j).Captured c := captured_release_iff.2 hc.1
  refine ⟨hcaptured, ?_⟩
  rw [List.getElem?_take, if_pos hcaptured.lt_size]
  exact hc.2

/-! ## Reindexed stores -/

/-- The scopes of `a` are at the indices of `map` in `b`. -/
structure Reindexed (T : TokenMatch) (map : List ScopeId) (a b : ScopeStore) : Prop where
  left : a.WellFormed
  right : b.WellFormed
  length_eq : map.length = a.size
  root : map[globalId]? = some globalId
  injective : ∀ i j k : ScopeId, map[i]? = some k → map[j]? = some k → i = j
  scopes : ∀ i i' : ScopeId, map[i]? = some i' → ∃ s s', a.scope? i = some s ∧ b.scope? i' = some s' ∧
    s.Matches T (a.linksVia map) map s'

namespace Reindexed

variable {i i' j j' : ScopeId} {name : String} {value value' : Value}

theorem lt_left (h : Reindexed T map a b) (hi : map[i]? = some i') : i < a.size := by
  obtain ⟨s, -, hs, -⟩ := h.scopes i i' hi
  exact lt_size hs

theorem lt_right (h : Reindexed T map a b) (hi : map[i]? = some i') : i' < b.size := by
  obtain ⟨-, s', -, hs', -⟩ := h.scopes i i' hi
  exact lt_size hs'

/-- Names are looked up alike. -/
theorem resolve_alike (h : Reindexed T map a b) (hi : map[i]? = some i') (name : String) :
    ResolvesAlike (fun owner owner' => map[owner]? = some owner')
      (Value.Matches T (a.linksVia map)) (a.resolve name i) (b.resolve name i') := by
  -- outward in both stores at once; a step outward stays within the map
  induction i using Nat.strongRecOn generalizing i' with
  | _ i ih =>
    obtain ⟨s, s', hs, hs', hmatch⟩ := h.scopes i i' hi
    have hfind : Option.Rel (Value.Matches T (a.linksVia map)) (s.bindings.find? name)
        (s'.bindings.find? name) := lookup_matches hmatch.entries
    rw [resolve, resolve, hs, hs']
    dsimp only
    rcases option_rel_cases hfind with ⟨hv, hv'⟩ | ⟨value, value', hv, hv', hvalue⟩
    · rw [hv, hv']
      rcases option_rel_cases hmatch.enclosing with ⟨he, he'⟩ | ⟨j, j', he, he', hj⟩
      · rw [he, he']
        exact .unbound
      · have hlt := h.left.nested i s j hs he
        have hlt' := h.right.nested i' s' j' hs' he'
        rw [he, he']
        dsimp only
        rw [if_pos hlt, if_pos hlt']
        exact ih j hlt hj
    · rw [hv, hv']
      exact .found hi hvalue

/-- The same names are in sight. -/
theorem namesFrom_eq (h : Reindexed T map a b) (hi : map[i]? = some i') (found : List String) :
    a.namesFrom found i = b.namesFrom found i' := by
  induction i using Nat.strongRecOn generalizing i' found with
  | _ i ih =>
    obtain ⟨s, s', hs, hs', hmatch⟩ := h.scopes i i' hi
    have hnames : s.bindings.names = s'.bindings.names := names_eq_of_matches hmatch.entries
    rw [namesFrom, namesFrom, hs, hs']
    dsimp only
    rw [hnames]
    rcases option_rel_cases hmatch.enclosing with ⟨he, he'⟩ | ⟨j, j', he, he', hj⟩
    · rw [he, he']
    · have hlt := h.left.nested i s j hs he
      have hlt' := h.right.nested i' s' j' hs' he'
      rw [he, he']
      dsimp only
      rw [if_pos hlt, if_pos hlt']
      exact ih j hlt hj _

/-- Binding a name in corresponding scopes to matching values. -/
theorem bind (h : Reindexed T map a b) (hj : map[j]? = some j') (name : String)
    (hvalue : value.Matches T (a.linksVia map) value') :
    Reindexed T map (a.bind j name value) (b.bind j' name value') where
  left := h.left.bind name value
  right := h.right.bind name value'
  length_eq := h.length_eq.trans (size_bind name value).symm
  root := h.root
  injective := h.injective
  scopes i i' hi := by
    obtain ⟨s, s', hs, hs', hmatch⟩ := h.scopes i i' hi
    have hmono : ∀ c c', (a.linksVia map).scopes c c' →
        ((a.bind j name value).linksVia map).scopes c c' :=
      linksVia_mono (fun _ => captured_bind_iff.2) List.prefix_rfl
    rw [scope?_bind, scope?_bind, hs, hs']
    by_cases hij : j = i
    · subst hij
      obtain rfl : j' = i' := Option.some.inj (hj.symm.trans hi)
      rw [if_pos rfl, if_pos rfl]
      refine ⟨_, _, rfl, rfl, Scope.Matches.mono ?_ hmono (fun _ _ => id) fun _ _ _ => id⟩
      exact ⟨insertEntry_matches hvalue hmatch.entries, hmatch.enclosing⟩
    · -- no two scopes of the first store share one of the second
      have hij' : j' ≠ i' := fun heq => hij (h.injective j i i' (heq ▸ hj) hi)
      rw [if_neg hij, if_neg hij']
      exact ⟨s, s', rfl, rfl, hmatch.mono hmono (fun _ _ => id) fun _ _ _ => id⟩

/-- Opening scopes inside corresponding ones. -/
theorem push {e e' : ScopeId} (h : Reindexed T map a b) (he : map[e]? = some e') :
    Reindexed T (map ++ [b.size]) (a.push e) (b.push e') := by
  have hgrown : map <+: map ++ [b.size] := List.prefix_append _ _
  have hold : ∀ i i' : ScopeId, map[i]? = some i' → (map ++ [b.size])[i]? = some i' :=
    fun i i' hi => getElem?_of_prefix hgrown hi
  have hcases : ∀ i i' : ScopeId, (map ++ [b.size])[i]? = some i' →
      map[i]? = some i' ∨ (i = a.size ∧ i' = b.size) :=
    fun i i' hi => h.length_eq ▸ getElem?_concat_cases hi
  have hmono : ∀ c c', (a.linksVia map).scopes c c' →
      ((a.push e).linksVia (map ++ [b.size])).scopes c c' :=
    linksVia_mono (fun _ => captured_push_iff.2) hgrown
  refine ⟨h.left.push (h.lt_left he), h.right.push (h.lt_right he), ?_, hold _ _ h.root, ?_, ?_⟩
  · rw [List.length_append, h.length_eq, size_push]
    rfl
  · intro i j k hi hj
    rcases hcases i k hi with hi | ⟨rfl, rfl⟩ <;> rcases hcases j _ hj with hj | ⟨rfl, hk⟩
    · exact h.injective i j k hi hj
    · exact absurd hk (Nat.ne_of_lt (h.lt_right hi))
    · exact absurd (h.lt_right hj) (Nat.lt_irrefl _)
    · rfl
  · intro i i' hi
    rcases hcases i i' hi with hi | ⟨rfl, rfl⟩
    · obtain ⟨s, s', hs, hs', hmatch⟩ := h.scopes i i' hi
      rw [scope?_push, scope?_push, if_neg (Nat.ne_of_lt (h.lt_left hi)),
        if_neg (Nat.ne_of_lt (h.lt_right hi))]
      exact ⟨s, s', hs, hs', hmatch.mono hmono (fun _ _ => id) fun j j' _ => hold j j'⟩
    · rw [scope?_push, scope?_push, if_pos rfl, if_pos rfl]
      exact ⟨_, _, rfl, rfl, .nil, .some (hold e e' he)⟩

/-- Marking scopes as captured, whichever they are. -/
theorem marked {a₁ b₁ : ScopeStore} (h : Reindexed T map a b) (ha : Marked a a₁)
    (hb : Marked b b₁) (hleft : a₁.WellFormed) (hright : b₁.WellFormed) :
    Reindexed T map a₁ b₁ where
  left := hleft
  right := hright
  length_eq := h.length_eq.trans ha.size_eq.symm
  root := h.root
  injective := h.injective
  scopes i i' hi := by
    obtain ⟨s, s', hs, hs', hmatch⟩ := h.scopes i i' hi
    obtain ⟨c, hc, -⟩ := ha.marks i s hs
    obtain ⟨c', hc', -⟩ := hb.marks i' s' hs'
    have hmono : ∀ k k', (a.linksVia map).scopes k k' → (a₁.linksVia map).scopes k k' :=
      linksVia_mono (fun _ => ha.captured) List.prefix_rfl
    have hmatch : s.Matches T (a₁.linksVia map) map s' :=
      hmatch.mono hmono (fun _ _ => id) fun _ _ _ => id
    exact ⟨_, _, hc, hc', hmatch.entries, hmatch.enclosing⟩

/-- Releasing a scope of the first store alone. What is reclaimed there is the end of the map. -/
theorem release (h : Reindexed T map a b) (j : ScopeId) :
    Reindexed T (map.take (a.release j).size) (a.release j) b := by
  refine ⟨h.left.release, h.right, ?_, ?_, ?_, ?_⟩
  · rw [List.length_take, h.length_eq]
    exact Nat.min_eq_left (size_release_le a j)
  · exact getElem?_take_iff.2 ⟨h.left.release.root.lt_size, h.root⟩
  · intro i k l hi hk
    exact h.injective i k l (getElem?_take_iff.1 hi).2 (getElem?_take_iff.1 hk).2
  · intro i i' hi
    obtain ⟨hlt, hi⟩ := getElem?_take_iff.1 hi
    obtain ⟨s, s', hs, hs', hmatch⟩ := h.scopes i i' hi
    obtain ⟨t, ht⟩ := exists_scope hlt
    obtain ⟨s₀, hs₀, rfl⟩ := scope?_release ht
    obtain rfl : s = s₀ := Option.some.inj (hs.symm.trans hs₀)
    -- the scope around one that is left lies below it, so it is left too
    have hmatch := hmatch.mono (fun _ _ => linksVia_release j) (fun _ _ => id) fun k k' hk hk' =>
      getElem?_take_iff.2 ⟨(h.left.nested i s k hs hk).trans hlt, hk'⟩
    exact ⟨_, s', ht, hs', hmatch.entries, hmatch.enclosing⟩

end Reindexed

end ScopeStore

end GradedScript
