import GradedScript.Proofs.Scope.Reindexing

/-!
# Stores with blank scopes in between

`ScopeStore.Interposed T map a b` says that the scopes of `a` are scopes of `b` under other indices,
which `map` lists in order, and that `b` may have further scopes between them. Where a scope of `a`
lies inside another, its counterpart lies inside the counterpart of that one, or inside scopes that
bind nothing and lead there (`BlankPath`). Nothing is ever bound in those, so names are looked up
alike in both stores. Either store may reclaim scopes: what stays in `a` is under a captured scope,
and captured scopes have captured counterparts.
-/

namespace GradedScript

variable {T : TokenMatch} {map map' : List ScopeId}

namespace ScopeStore

variable {store store' a b : ScopeStore} {i i' j j' k : ScopeId}

/-! ## Blank paths -/

/-- From `j` outward one comes to `k`, over scopes that bind nothing and are not listed. -/
inductive BlankPath (map : List ScopeId) (store : ScopeStore) (k : ScopeId) : ScopeId → Prop
  | here : BlankPath map store k k
  | past {j e : ScopeId} {s : Scope} (hs : store.scope? j = some s)
      (hblank : s.bindings.entries = []) (he : s.enclosing = some e) (hapart : j ∉ map)
      (h : BlankPath map store k e) : BlankPath map store k j

namespace BlankPath

/-- On the way nothing is found, so names are looked up alike from both ends. -/
theorem resolve_eq (h : BlankPath map store k j) (hnested : store.Nested) (name : String) :
    store.resolve name j = store.resolve name k := by
  induction h with
  | here => rfl
  | @past j e s hs hblank he _ _ ih =>
    have hfind : s.bindings.find? name = none := by
      rw [Bindings.find?, hblank]
      rfl
    rw [resolve, hs]
    simp only [hfind, he, if_pos (hnested j s e hs he)]
    exact ih

/-- Captured scopes have captured scopes around them. -/
theorem captured (h : BlankPath map store k j) (hstore : store.WellFormed)
    (hj : store.Captured j) : store.Captured k := by
  induction h with
  | here => exact hj
  | past hs _ he _ _ ih =>
    obtain ⟨s', hs', hcap⟩ := hj
    rw [hs] at hs'
    cases hs'
    exact ih (hstore.closed _ _ _ hs hcap he)

/-- A path is kept as long as its scopes stay blank, unlisted and where they are. -/
theorem mono (h : BlankPath map store k j) (hnested : store.Nested)
    (hkept : ∀ i s, i ≤ j → store.scope? i = some s → s.bindings.entries = [] → i ∉ map →
      i ∉ map' ∧ ∃ s', store'.scope? i = some s' ∧ s'.bindings.entries = [] ∧
        s'.enclosing = s.enclosing) : BlankPath map' store' k j := by
  induction h with
  | here => exact .here
  | @past j e s hs hblank he hapart _ ih =>
    obtain ⟨hapart', s', hs', hblank', he'⟩ := hkept j s (Nat.le_refl j) hs hblank hapart
    refine .past hs' hblank' (he'.trans he) hapart' (ih fun i t hi => ?_)
    exact hkept i t (Nat.le_of_lt (Nat.lt_of_le_of_lt hi (hnested j s e hs he)))

/-- Binding a name in a listed scope. -/
theorem bind (h : BlankPath map store k j) (hnested : store.Nested) (hi : i ∈ map) (name : String)
    (value : Value) : BlankPath map (store.bind i name value) k j := by
  refine h.mono hnested fun l s _ hs hblank hapart => ⟨hapart, s, ?_, hblank, rfl⟩
  have hne : i ≠ l := fun heq => hapart (heq ▸ hi)
  rw [scope?_bind, if_neg hne, hs]

/-- Opening a scope, which may be listed from then on. -/
theorem push (h : BlankPath map store k j) (hnested : store.Nested) (e : ScopeId)
    (hmap : ∀ l ∈ map', l ∈ map ∨ l = store.size) : BlankPath map' (store.push e) k j := by
  refine h.mono hnested fun l s _ hs hblank hapart => ⟨fun hl => ?_, s, ?_, hblank, rfl⟩
  · rcases hmap l hl with hl | rfl
    · exact hapart hl
    · exact Nat.lt_irrefl _ (lt_size hs)
  · rw [scope?_push, if_neg (Nat.ne_of_lt (lt_size hs)), hs]

theorem marked (h : BlankPath map store k j) (hnested : store.Nested)
    (hmarked : Marked store store') : BlankPath map store' k j := by
  refine h.mono hnested fun l s _ hs hblank hapart => ⟨hapart, ?_⟩
  obtain ⟨c, hc, -⟩ := hmarked.marks l s hs
  exact ⟨_, hc, hblank, rfl⟩

/-- Releasing a scope, if where the path begins is not reclaimed, and so nothing on it. -/
theorem release (h : BlankPath map store k j) (hnested : store.Nested)
    (hj : j < (store.release i).size) : BlankPath map (store.release i) k j := by
  refine h.mono hnested fun l s hl hs hblank hapart => ⟨hapart, ?_⟩
  obtain ⟨t, ht⟩ := exists_scope (Nat.lt_of_le_of_lt hl hj)
  obtain ⟨s₀, hs₀, rfl⟩ := scope?_release ht
  rw [hs] at hs₀
  cases hs₀
  exact ⟨_, ht, hblank, rfl⟩

/-- Listing fewer scopes. -/
theorem sublist (h : BlankPath map store k j) (hnested : store.Nested) (hmap : map' ⊆ map) :
    BlankPath map' store k j :=
  h.mono hnested fun _ s _ hs hblank hapart => ⟨fun hl => hapart (hmap hl), s, hs, hblank, rfl⟩

end BlankPath

/-- The counterpart of `j` is the first listed scope from `j'` outward. -/
def Meets (map : List ScopeId) (store : ScopeStore) (j j' : ScopeId) : Prop :=
  ∃ k, map[j]? = some k ∧ BlankPath map store k j'

theorem Meets.of_mapped (h : map[j]? = some j') : Meets map store j j' :=
  ⟨j', h, .here⟩

/-- What the walk outward captures was captured, or lies outward from where the walk begins. -/
theorem captured_of_markOutward {P : ScopeId → Prop} (h : a.Nested) (hj : j < a.size)
    (hold : ∀ i, a.Captured i → P i)
    (hout : ∀ i s e, a.scope? i = some s → s.enclosing = some e → P i → P e) (hP : P j)
    (hi : (a.markOutward j).Captured i) : P i := by
  induction j using Nat.strongRecOn generalizing a with
  | _ j ih =>
    obtain ⟨s, hs⟩ := exists_scope hj
    -- marking one scope captures no other
    have hmark : ∀ l, (a.mark j).Captured l → P l := by
      rintro l ⟨t, ht, hcap⟩
      rw [mark, scope?_update] at ht
      split at ht
      · rename_i heq
        exact heq ▸ hP
      · exact hold l ⟨t, ht, hcap⟩
    rw [markOutward_eq h hs] at hi
    split at hi
    · exact hold i hi
    · rcases he : s.enclosing with _ | e
      · rw [he] at hi
        exact hmark i hi
      · have hmarked := marked_mark a j
        have hlt := h j s e hs he
        rw [he] at hi
        refine ih e hlt (h.marked hmarked) ?_ hmark ?_ (hout j s e hs he hP) hi
        · rw [hmarked.size_eq]
          exact hlt.trans hj
        · intro l t' k ht' hk
          obtain ⟨t, ht, heq, -⟩ := hmarked.exists_of ht'
          rw [heq] at hk
          exact hout l t k ht hk

/-! ## Interposed stores -/

/-- The scopes of `a` are at the indices of `map` in `b`, with blank scopes in between. -/
structure Interposed (T : TokenMatch) (map : List ScopeId) (a b : ScopeStore) : Prop where
  left : a.WellFormed
  right : b.WellFormed
  length_eq : map.length = a.size
  root : map[globalId]? = some globalId
  increasing : map.Pairwise (· < ·)
  captured : ∀ i i' : ScopeId, map[i]? = some i' → a.Captured i → b.Captured i'
  scopes : ∀ i i' : ScopeId, map[i]? = some i' → ∃ s s', a.scope? i = some s ∧
    b.scope? i' = some s' ∧
    List.Forall₂ (EntriesMatch T (a.linksVia map)) s.bindings.entries s'.bindings.entries ∧
    Option.Rel (Meets map b) s.enclosing s'.enclosing

theorem image_lt_image (h : map.Pairwise (· < ·)) (hi : map[i]? = some i')
    (hj : map[j]? = some j') (hij : i < j) : i' < j' := by
  obtain ⟨hilt, rfl⟩ := List.getElem?_eq_some_iff.1 hi
  obtain ⟨hjlt, rfl⟩ := List.getElem?_eq_some_iff.1 hj
  exact List.pairwise_iff_getElem.1 h i j hilt hjlt hij

namespace Interposed

variable {name : String} {value value' : Value}

theorem lt_left (h : Interposed T map a b) (hi : map[i]? = some i') : i < a.size := by
  obtain ⟨s, -, hs, -⟩ := h.scopes i i' hi
  exact lt_size hs

theorem lt_right (h : Interposed T map a b) (hi : map[i]? = some i') : i' < b.size := by
  obtain ⟨-, s', -, hs', -⟩ := h.scopes i i' hi
  exact lt_size hs'

theorem mem_lt (h : Interposed T map a b) (hi : i' ∈ map) : i' < b.size := by
  obtain ⟨i, hi⟩ := List.mem_iff_getElem?.1 hi
  exact h.lt_right hi

theorem exists_image (h : Interposed T map a b) (hi : i < a.size) : ∃ i', map[i]? = some i' :=
  ⟨_, List.getElem?_eq_getElem (h.length_eq ▸ hi)⟩

theorem injective (h : Interposed T map a b) (hi : map[i]? = some k) (hj : map[j]? = some k) :
    i = j := by
  rcases Nat.lt_trichotomy i j with hlt | heq | hlt
  · exact absurd (image_lt_image h.increasing hi hj hlt) (Nat.lt_irrefl k)
  · exact heq
  · exact absurd (image_lt_image h.increasing hj hi hlt) (Nat.lt_irrefl k)

/-- From where a counterpart is met there is a scope. -/
theorem meets_lt (h : Interposed T map a b) (hi : Meets map b i i') : i' < b.size := by
  obtain ⟨k, hk, hpath⟩ := hi
  cases hpath with
  | here => exact h.lt_right hk
  | past hs _ _ _ _ => exact lt_size hs

/-- Names are looked up alike. -/
theorem resolve_alike (h : Interposed T map a b) (hi : Meets map b i i') (name : String) :
    ResolvesAlike (fun owner owner' => map[owner]? = some owner')
      (Value.Matches T (a.linksVia map)) (a.resolve name i) (b.resolve name i') := by
  -- outward in the first store; the second one is walked over blank scopes to the counterpart
  induction i using Nat.strongRecOn generalizing i' with
  | _ i ih =>
    obtain ⟨k, hk, hpath⟩ := hi
    obtain ⟨s, s', hs, hs', hentries, henclosing⟩ := h.scopes i k hk
    have hfind : Option.Rel (Value.Matches T (a.linksVia map)) (s.bindings.find? name)
        (s'.bindings.find? name) := lookup_matches hentries
    rw [hpath.resolve_eq h.right.nested, resolve, resolve, hs, hs']
    dsimp only
    rcases option_rel_cases hfind with ⟨hv, hv'⟩ | ⟨value, value', hv, hv', hvalue⟩
    · rw [hv, hv']
      rcases option_rel_cases henclosing with ⟨he, he'⟩ | ⟨j, j', he, he', hj⟩
      · rw [he, he']
        exact .unbound
      · have hlt := h.left.nested i s j hs he
        have hlt' := h.right.nested k s' j' hs' he'
        rw [he, he']
        dsimp only
        rw [if_pos hlt, if_pos hlt']
        exact ih j hlt hj
    · rw [hv, hv']
      exact .found hk hvalue

/-- What two scopes have in common is kept while the correspondence grows. -/
theorem mono_scopes {L L' : Links} {s s' : Scope}
    (h : List.Forall₂ (EntriesMatch T L) s.bindings.entries s'.bindings.entries ∧
      Option.Rel (Meets map b) s.enclosing s'.enclosing)
    (hscopes : ∀ c c', L.scopes c c' → L'.scopes c c')
    (hidentities : ∀ i i', L.identities i i' → L'.identities i i')
    (hmeets : ∀ j j', s.enclosing = some j → s'.enclosing = some j' → Meets map b j j' →
      Meets map' store j j') :
    List.Forall₂ (EntriesMatch T L') s.bindings.entries s'.bindings.entries ∧
      Option.Rel (Meets map' store) s.enclosing s'.enclosing := by
  refine ⟨h.1.imp fun _ _ hentry => ⟨hentry.1, hentry.2.mono hscopes hidentities⟩, ?_⟩
  rcases option_rel_cases h.2 with ⟨he, he'⟩ | ⟨j, j', he, he', hj⟩
  · rw [he, he']
    exact .none
  · have hj' := hmeets j j' he he' hj
    rw [he, he']
    exact .some hj'

/-- Binding a name in corresponding scopes to matching values. -/
theorem bind (h : Interposed T map a b) (hj : map[j]? = some j') (name : String)
    (hvalue : value.Matches T (a.linksVia map) value') :
    Interposed T map (a.bind j name value) (b.bind j' name value') where
  left := h.left.bind name value
  right := h.right.bind name value'
  length_eq := h.length_eq.trans (size_bind name value).symm
  root := h.root
  increasing := h.increasing
  captured i i' hi hcap := captured_bind_iff.2 (h.captured i i' hi (captured_bind_iff.1 hcap))
  scopes i i' hi := by
    obtain ⟨s, s', hs, hs', hmatch⟩ := h.scopes i i' hi
    have hmono : ∀ c c', (a.linksVia map).scopes c c' →
        ((a.bind j name value).linksVia map).scopes c c' :=
      linksVia_mono (fun _ => captured_bind_iff.2) List.prefix_rfl
    have hmeets : ∀ l l', Meets map b l l' → Meets map (b.bind j' name value') l l' :=
      fun l l' ⟨k, hk, hpath⟩ =>
        ⟨k, hk, hpath.bind h.right.nested (List.mem_of_getElem? hj) name value'⟩
    rw [scope?_bind, scope?_bind, hs, hs']
    by_cases hij : j = i
    · subst hij
      obtain rfl : j' = i' := Option.some.inj (hj.symm.trans hi)
      rw [if_pos rfl, if_pos rfl]
      refine ⟨_, _, rfl, rfl, mono_scopes ?_ hmono (fun _ _ => id) fun l l' _ _ => hmeets l l'⟩
      exact ⟨insertEntry_matches hvalue hmatch.1, hmatch.2⟩
    · have hij' : j' ≠ i' := fun heq => hij (h.injective (heq ▸ hj) hi)
      rw [if_neg hij, if_neg hij']
      exact ⟨s, s', rfl, rfl, mono_scopes hmatch hmono (fun _ _ => id) fun l l' _ _ => hmeets l l'⟩

/-- A scope of the longer map is an old one or the new one. -/
theorem image_push_cases (h : Interposed T map a b) (hi : (map ++ [b.size])[i]? = some i') :
    map[i]? = some i' ∨ (i = a.size ∧ i' = b.size) :=
  h.length_eq ▸ getElem?_concat_cases hi

/-- Opening scopes inside ones from where the same is met. -/
theorem push {e e' : ScopeId} (h : Interposed T map a b) (he : Meets map b e e') :
    Interposed T (map ++ [b.size]) (a.push e) (b.push e') := by
  have hgrown : map <+: map ++ [b.size] := List.prefix_append _ _
  have hmono : ∀ c c', (a.linksVia map).scopes c c' →
      ((a.push e).linksVia (map ++ [b.size])).scopes c c' :=
    linksVia_mono (fun _ => captured_push_iff.2) hgrown
  have hmeets : ∀ l l', Meets map b l l' → Meets (map ++ [b.size]) (b.push e') l l' := by
    rintro l l' ⟨k, hk, hpath⟩
    refine ⟨k, getElem?_of_prefix hgrown hk, hpath.push h.right.nested e' fun m hm => ?_⟩
    simpa using hm
  have helt : e < a.size := by
    obtain ⟨k, hk, -⟩ := he
    exact h.lt_left hk
  refine ⟨h.left.push helt, h.right.push (h.meets_lt he), ?_, getElem?_of_prefix hgrown h.root,
    ?_, ?_, ?_⟩
  · rw [List.length_append, h.length_eq, size_push]
    rfl
  · refine List.pairwise_append.2 ⟨h.increasing, List.pairwise_singleton _ _, ?_⟩
    intro i' hi' k hk
    rw [List.mem_singleton.1 hk]
    exact h.mem_lt hi'
  · intro i i' hi hcap
    rcases h.image_push_cases hi with hi | ⟨rfl, rfl⟩
    · exact captured_push_iff.2 (h.captured i i' hi (captured_push_iff.1 hcap))
    · exact absurd (captured_push_iff.1 hcap).lt_size (Nat.lt_irrefl _)
  · intro i i' hi
    rcases h.image_push_cases hi with hi | ⟨rfl, rfl⟩
    · obtain ⟨s, s', hs, hs', hmatch⟩ := h.scopes i i' hi
      rw [scope?_push, scope?_push, if_neg (Nat.ne_of_lt (h.lt_left hi)),
        if_neg (Nat.ne_of_lt (h.lt_right hi))]
      exact ⟨s, s', hs, hs', mono_scopes hmatch hmono (fun _ _ => id) fun l l' _ _ => hmeets l l'⟩
    · rw [scope?_push, scope?_push, if_pos rfl, if_pos rfl]
      exact ⟨_, _, rfl, rfl, .nil, .some (hmeets e e' he)⟩

/-- Opening a scope in the second store alone. -/
theorem pushRight {e e' : ScopeId} (h : Interposed T map a b) (he : Meets map b e e') :
    Interposed T map a (b.push e') ∧ Meets map (b.push e') e b.size := by
  have hmeets : ∀ l l', Meets map b l l' → Meets map (b.push e') l l' := by
    rintro l l' ⟨k, hk, hpath⟩
    exact ⟨k, hk, hpath.push h.right.nested e' fun m hm => .inl hm⟩
  refine ⟨⟨h.left, h.right.push (h.meets_lt he), h.length_eq, h.root, h.increasing, ?_, ?_⟩, ?_⟩
  · intro i i' hi hcap
    exact captured_push_iff.2 (h.captured i i' hi hcap)
  · intro i i' hi
    obtain ⟨s, s', hs, hs', hmatch⟩ := h.scopes i i' hi
    rw [scope?_push, if_neg (Nat.ne_of_lt (h.lt_right hi))]
    exact ⟨s, s', hs, hs', mono_scopes hmatch (fun _ _ => id) (fun _ _ => id)
      fun l l' _ _ => hmeets l l'⟩
  · obtain ⟨k, hk, hpath⟩ := hmeets e e' he
    have hscope : (b.push e').scope? b.size = some { enclosing := some e' } := by
      rw [scope?_push, if_pos rfl]
    exact ⟨k, hk, .past hscope rfl rfl (fun hmem => Nat.lt_irrefl _ (h.mem_lt hmem)) hpath⟩

/-- Marking scopes as captured, in the second store the counterparts at least. -/
theorem marked {a₁ b₁ : ScopeStore} (h : Interposed T map a b) (ha : Marked a a₁)
    (hb : Marked b b₁) (hleft : a₁.WellFormed) (hright : b₁.WellFormed)
    (hcaptured : ∀ i i' : ScopeId, map[i]? = some i' → a₁.Captured i → b₁.Captured i') :
    Interposed T map a₁ b₁ where
  left := hleft
  right := hright
  length_eq := h.length_eq.trans ha.size_eq.symm
  root := h.root
  increasing := h.increasing
  captured := hcaptured
  scopes i i' hi := by
    obtain ⟨s, s', hs, hs', hmatch⟩ := h.scopes i i' hi
    obtain ⟨c, hc, -⟩ := ha.marks i s hs
    obtain ⟨c', hc', -⟩ := hb.marks i' s' hs'
    have hmono : ∀ k k', (a.linksVia map).scopes k k' → (a₁.linksVia map).scopes k k' :=
      linksVia_mono (fun _ => ha.captured) List.prefix_rfl
    have hmatch := mono_scopes hmatch hmono (fun _ _ => id) fun l l' _ _ ⟨k, hk, hpath⟩ =>
      (⟨k, hk, hpath.marked h.right.nested hb⟩ : Meets map b₁ l l')
    exact ⟨_, _, hc, hc', hmatch⟩

/-- What is captured by the walk outward in the first store is captured in the second, if the
counterpart of where the walk begins is. -/
theorem captured_markOutward (h : Interposed T map a b) {b₁ : ScopeStore} (hb : Marked b b₁)
    (hright : b₁.WellFormed) (hj : map[j]? = some j') (hcap : b₁.Captured j')
    (hi : map[i]? = some i') (hmarked : (a.markOutward j).Captured i) : b₁.Captured i' := by
  have hall : ∀ k' : ScopeId, map[i]? = some k' → b₁.Captured k' := by
    refine captured_of_markOutward h.left.nested (h.lt_left hj)
      (P := fun i => ∀ k' : ScopeId, map[i]? = some k' → b₁.Captured k') ?_ ?_ ?_ hmarked
    · intro l hl l' hl'
      exact hb.captured (h.captured l l' hl' hl)
    · -- from the counterpart of a scope over blank scopes to that of the one around it
      intro l t e ht he hl e' he'
      obtain ⟨l', hl'⟩ := h.exists_image (lt_size ht)
      obtain ⟨s, s', hs, hs', -, henclosing⟩ := h.scopes l l' hl'
      obtain rfl : t = s := Option.some.inj (ht.symm.trans hs)
      obtain ⟨u, hu, hucap⟩ := hl l' hl'
      obtain ⟨c', hc', -⟩ := hb.marks l' s' hs'
      obtain rfl := Option.some.inj (hc'.symm.trans hu)
      rw [he] at henclosing
      rcases option_rel_cases henclosing with ⟨hnone, -⟩ | ⟨m, m', hm, hm', k, hk, hpath⟩
      · cases hnone
      · cases hm
        obtain rfl : e' = k := Option.some.inj (he'.symm.trans hk)
        exact (hpath.marked h.right.nested hb).captured hright (hright.closed l' _ m' hu hucap hm')
    · intro k' hk'
      obtain rfl : j' = k' := Option.some.inj (hj.symm.trans hk')
      exact hcap
  exact hall i' hi

/-- Capturing corresponding scopes. -/
theorem markOutward (h : Interposed T map a b) (hj : map[j]? = some j') :
    Interposed T map (a.markOutward j) (b.markOutward j') := by
  have hlt := h.lt_left hj
  have hlt' := h.lt_right hj
  have hright := h.right.markOutward hlt'
  have hb := h.right.marked_markOutward hlt'
  refine h.marked (h.left.marked_markOutward hlt) hb (h.left.markOutward hlt) hright ?_
  intro i i' hi hcap
  exact h.captured_markOutward hb hright hj (h.right.captured_markOutward hlt') hi hcap

/-- Releasing a scope of the first store. What is reclaimed there is the end of the map. -/
theorem releaseLeft (h : Interposed T map a b) (j : ScopeId) :
    Interposed T (map.take (a.release j).size) (a.release j) b := by
  refine ⟨h.left.release, h.right, ?_, ?_, ?_, ?_, ?_⟩
  · rw [List.length_take, h.length_eq]
    exact Nat.min_eq_left (size_release_le a j)
  · exact getElem?_take_iff.2 ⟨h.left.release.root.lt_size, h.root⟩
  · exact h.increasing.sublist (List.take_sublist _ _)
  · intro i i' hi hcap
    exact h.captured i i' (getElem?_take_iff.1 hi).2 (captured_release_iff.1 hcap)
  · intro i i' hi
    obtain ⟨hlt, hi⟩ := getElem?_take_iff.1 hi
    obtain ⟨s, s', hs, hs', hmatch⟩ := h.scopes i i' hi
    obtain ⟨t, ht⟩ := exists_scope hlt
    obtain ⟨s₀, hs₀, rfl⟩ := scope?_release ht
    obtain rfl : s = s₀ := Option.some.inj (hs.symm.trans hs₀)
    -- the scope around one that is left lies below it, so it is left too
    have hmatch := mono_scopes hmatch (fun _ _ => linksVia_release j) (fun _ _ => id)
      fun l l' hl _ ⟨k, hk, hpath⟩ =>
        (⟨k, getElem?_take_iff.2 ⟨(h.left.nested i s l hs hl).trans hlt, hk⟩,
          hpath.sublist h.right.nested (List.take_subset _ _)⟩ : Meets _ b l l')
    exact ⟨_, s', ht, hs', hmatch⟩

/-- Releasing a scope of the second store, if that reclaims no counterpart. -/
theorem releaseRight (h : Interposed T map a b) (himages : ∀ i' ∈ map, i' < (b.release j).size) :
    Interposed T map a (b.release j) where
  left := h.left
  right := h.right.release
  length_eq := h.length_eq
  root := h.root
  increasing := h.increasing
  captured i i' hi hcap := captured_release_iff.2 (h.captured i i' hi hcap)
  scopes i i' hi := by
    obtain ⟨s, s', hs, hs', hmatch⟩ := h.scopes i i' hi
    have hlt := himages i' (List.mem_of_getElem? hi)
    obtain ⟨t, ht⟩ := exists_scope hlt
    obtain ⟨s₀, hs₀, rfl⟩ := scope?_release ht
    obtain rfl : s' = s₀ := Option.some.inj (hs'.symm.trans hs₀)
    have hmatch := mono_scopes hmatch (fun _ _ => id) (fun _ _ => id)
      fun l l' _ hl' ⟨k, hk, hpath⟩ =>
        (⟨k, hk, hpath.release h.right.nested ((h.right.nested i' s' l' hs' hl').trans hlt)⟩ :
          Meets map (b.release j) l l')
    exact ⟨s, _, hs, ht, hmatch⟩

/-- **No counterpart is reclaimed** with the scope that was opened on top of the second store. What
the first store holds besides what it held then lies under a captured scope, whose counterpart is
captured. -/
theorem image_lt_release {map₁ : List ScopeId} {a₁ b₁ : ScopeStore} {e' : ScopeId}
    (h : Interposed T map a b) (h₁ : Interposed T map₁ a₁ b₁) (hmap : map <+: map₁)
    (hkeeps : Keeps a a₁) (hkeeps' : Keeps (b.push e') b₁) :
    ∀ i' ∈ map₁, i' < (b₁.release b.size).size := by
  intro i' hi'
  obtain ⟨i, hi⟩ := List.mem_iff_getElem?.1 hi'
  rcases Nat.lt_or_ge i a.size with hlt | hge
  · obtain ⟨k, hk⟩ := h.exists_image hlt
    have hold := getElem?_of_prefix hmap hk
    obtain rfl : k = i' := Option.some.inj (hold.symm.trans hi)
    exact Nat.lt_of_lt_of_le (h.lt_right hk) (size_le_release h.right.top hkeeps')
  · -- the top scope was added, so it is released, and not dead
    have hlt := h₁.lt_left hi
    obtain ⟨top, htop⟩ := exists_scope (Nat.sub_one_lt_of_lt hlt)
    have hreleased := hkeeps.added _ top htop (Nat.le_sub_one_of_lt (Nat.lt_of_le_of_lt hge hlt))
    have halive := h₁.left.top top htop
    simp only [Scope.dead, hreleased, Bool.true_and, Bool.not_eq_false'] at halive
    obtain ⟨t', ht'⟩ := h₁.exists_image (lt_size htop)
    have hcap : b₁.Captured t' := h₁.captured _ t' ht' ⟨top, htop, halive⟩
    have hle : i' ≤ t' := by
      rcases Nat.eq_or_lt_of_le (Nat.le_sub_one_of_lt hlt) with rfl | hbelow
      · exact Nat.le_of_eq (Option.some.inj (hi.symm.trans ht'))
      · exact Nat.le_of_lt (image_lt_image h₁.increasing hi ht' hbelow)
    exact Nat.lt_of_le_of_lt hle (captured_release_iff.2 hcap).lt_size

end Interposed

end ScopeStore

end GradedScript
