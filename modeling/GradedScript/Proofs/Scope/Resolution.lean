import GradedScript.Proofs.Scope.Requests
import GradedScript.Proofs.Scope.Sharing

/-!
# Names are looked up along the way out

To look a name up from a scope, to assign it and to list the names in sight are three walks outward.
They agree: each follows the chain of scopes around the scope, and what counts is the first scope of
the chain that binds the name (`names_follow_chains`). A binding made or changed on the way touches
that one binding, so from every other scope the same names have the same values as before, unless
the chain from there meets the binding first.
-/

namespace GradedScript

/-! ## Bindings -/

/-- Binding a name adds it to the names, unless it is one of them. -/
theorem Bindings.names_insert (b : Bindings) (name : String) (value : Value) :
    (b.insert name value).names = if name ∈ b.names then b.names else b.names ++ [name] := by
  obtain ⟨entries⟩ := b
  unfold Bindings.names Bindings.insert
  dsimp only
  induction entries with
  | nil => rfl
  | cons entry entries ih =>
    obtain ⟨other, old⟩ := entry
    rw [insertEntry]
    by_cases hname : other = name
    · simp [hname]
    · rw [if_neg (by simpa using hname), List.map_cons, ih]
      have hne : name ≠ other := fun heq => hname heq.symm
      simp only [List.map_cons, List.mem_cons, hne, false_or]
      split <;> rfl

theorem Bindings.nodup_names_insert {b : Bindings} (h : b.names.Nodup) (name : String)
    (value : Value) : (b.insert name value).names.Nodup := by
  rw [b.names_insert]
  split
  · exact h
  · rename_i hnew
    exact List.nodup_append'.2 ⟨h, List.nodup_singleton _, by simpa using hnew⟩

namespace ScopeStore

variable {store a b : ScopeStore} {i j : ScopeId} {s : Scope} {chain : List ScopeId}
  {name : String} {value : Value}

/-- Every scope binds a name once. -/
def NamesOnce (store : ScopeStore) : Prop :=
  ∀ i s, store.scope? i = some s → s.bindings.names.Nodup

theorem NamesOnce.next {request : Request} (h : store.NamesOnce) (hwell : store.WellFormed)
    (hheld : request.Held store) : (store.next request).NamesOnce := by
  intro k s hs
  rcases next_cases hwell hheld with ⟨e, -, heq⟩ | ⟨i, heq⟩ | ⟨i, hi, heq⟩ |
    ⟨j, name, value, heq⟩ | heq <;> rw [heq] at hs
  · rw [scope?_push] at hs
    split at hs
    · cases hs
      exact List.nodup_nil
    · exact h k s hs
  · obtain ⟨s₀, hs₀, rfl⟩ := scope?_release hs
    exact h k s₀ hs₀
  · obtain ⟨s₀, hs₀, hsame, -⟩ := (hwell.marked_markOutward hi).exists_of hs
    rw [hsame]
    exact h k s₀ hs₀
  · rw [scope?_bind] at hs
    split at hs
    · obtain ⟨s₀, hs₀, rfl⟩ := Option.map_eq_some_iff.1 hs
      exact Bindings.nodup_names_insert (h k s₀ hs₀) name value
    · exact h k s hs
  · exact h k s hs

theorem Leads.namesOnce (h : Leads fresh store) : store.NamesOnce := by
  induction h with
  | refl =>
    intro i s hs
    obtain ⟨-, rfl⟩ := scope?_fresh hs
    exact List.nodup_nil
  | step h request hheld ih => exact ih.next (h.arranged arranged_fresh).toWellFormed hheld

/-! ## Values along a chain -/

/-- The first scope of a chain that binds a name. -/
def binder? (store : ScopeStore) (chain : List ScopeId) (name : String) : Option ScopeId :=
  chain.find? fun i => (store.getLocal? i name).isSome

/-- The value of a name in the first scope of a chain that binds it. -/
def valueAlong (store : ScopeStore) (chain : List ScopeId) (name : String) :
    Except Absence Value :=
  match chain.findSome? fun i => store.getLocal? i name with
  | some value => .ok value
  | none => .error .unbound

theorem getLocal?_of_scope? (hs : store.scope? i = some s) (name : String) :
    store.getLocal? i name = s.bindings.find? name := by
  rw [getLocal?, hs, Option.bind_some]

/-- A walk outward finds the first scope that binds the name, and the value there. -/
theorem resolve_of_chain (hnested : store.Nested) (hchain : store.Chain i chain) (name : String) :
    (∃ owner value, store.resolve name i = .ok (owner, value) ∧
      store.binder? chain name = some owner ∧ store.getLocal? owner name = some value ∧
      store.valueAlong chain name = .ok value) ∨
    (store.resolve name i = .error .unbound ∧ store.binder? chain name = none ∧
      store.valueAlong chain name = .error .unbound) := by
  unfold binder? valueAlong
  induction hchain with
  | @last i s hs hout =>
    have hlocal := getLocal?_of_scope? hs name
    rw [resolve, hs]
    dsimp only
    cases hfind : s.bindings.find? name with
    | some value =>
      rw [hfind] at hlocal
      exact .inl ⟨i, value, rfl, by simp [hlocal], hlocal, by simp [hlocal]⟩
    | none =>
      rw [hfind] at hlocal
      rw [hout]
      exact .inr ⟨rfl, by simp [hlocal], by simp [hlocal]⟩
  | @cons i s j chain hs hout _ ih =>
    have hlocal := getLocal?_of_scope? hs name
    rw [resolve, hs]
    dsimp only
    cases hfind : s.bindings.find? name with
    | some value =>
      rw [hfind] at hlocal
      exact .inl ⟨i, value, rfl, by simp [hlocal], hlocal, by simp [hlocal]⟩
    | none =>
      -- the scope does not bind the name, so both the walk and the search go on
      rw [hfind] at hlocal
      rw [hout]
      dsimp only
      rw [if_pos (hnested i s j hs hout), List.find?_cons, List.findSome?_cons, hlocal]
      exact ih

/-- Reading a name follows the chain. -/
theorem get_eq_valueAlong (hnested : store.Nested) (hchain : store.Chain i chain) (name : String) :
    store.get i name = store.valueAlong chain name := by
  rcases resolve_of_chain hnested hchain name with
    ⟨owner, value, hres, -, -, hvalue⟩ | ⟨hres, -, hvalue⟩
  · rw [get, hres, hvalue]
    rfl
  · rw [get, hres, hvalue]
    rfl

theorem exists_valueAlong_iff (store : ScopeStore) (chain : List ScopeId) (name : String) :
    (∃ value, store.valueAlong chain name = .ok value) ↔
      ∃ k ∈ chain, (store.getLocal? k name).isSome := by
  unfold valueAlong
  cases hfound : chain.findSome? fun i => store.getLocal? i name with
  | some value =>
    obtain ⟨k, hk, hlocal⟩ := List.exists_of_findSome?_eq_some hfound
    exact iff_of_true ⟨value, rfl⟩ ⟨k, hk, by simp [hlocal]⟩
  | none =>
    have hnone := List.findSome?_eq_none_iff.1 hfound
    refine iff_of_false (by simp) ?_
    rintro ⟨k, hk, hsome⟩
    simp [hnone k hk] at hsome

/-- A scope has one way out. -/
theorem Chain.unique {other : List ScopeId} (h : store.Chain i chain) (h' : store.Chain i other) :
    other = chain := by
  induction h generalizing other with
  | last hs hout =>
    cases h' with
    | last => rfl
    | cons hs' hout' _ => grind
  | cons hs hout _ ih =>
    cases h' with
    | last hs' hout' => grind
    | cons hs' hout' h' => grind

/-- Binding names leaves the ways out as they are. -/
theorem Chain.bind (h : store.Chain i chain) (j : ScopeId) (name : String) (value : Value) :
    (store.bind j name value).Chain i chain := by
  induction h with
  | last hs hout =>
    obtain ⟨b, hb⟩ := exists_bind j name value hs
    exact .last hb hout
  | cons hs hout _ ih =>
    obtain ⟨b, hb⟩ := exists_bind j name value hs
    exact .cons hb hout ih

/-! ## One binding changed -/

/-- One store is another with one binding made or changed. -/
structure Rebound (a b : ScopeStore) (j : ScopeId) (name : String) (value : Value) : Prop where
  size_eq : b.size = a.size
  scopes : ∀ i s, a.scope? i = some s → ∃ bindings, b.scope? i = some { s with bindings }
  bindings : ∀ i other, b.getLocal? i other =
    if i = j ∧ other = name then some value else a.getLocal? i other

theorem rebound_bind (hj : j < store.size) (name : String) (value : Value) :
    Rebound store (store.bind j name value) j name value where
  size_eq := size_bind name value
  scopes i s hs := exists_bind j name value hs
  bindings i other := by
    unfold getLocal?
    rw [scope?_bind]
    by_cases hij : i = j
    · subst hij
      obtain ⟨s, hs⟩ := exists_scope hj
      simp only [hs, Option.map_some, Option.bind_some, Bindings.find?_insert, if_pos, true_and]
    · simp only [hij, false_and, if_false, if_neg (Ne.symm hij)]

/-- A binding changed where a chain meets the name first changes what is found along all chains that
meet it there, and along no others. -/
theorem Rebound.valueAlong_eq (h : Rebound a b j name value)
    (hbound : (a.getLocal? j name).isSome) (chain : List ScopeId) (other : String) :
    b.valueAlong chain other =
      if other = name ∧ a.binder? chain name = some j then .ok value
      else a.valueAlong chain other := by
  unfold valueAlong binder?
  induction chain with
  | nil => simp
  | cons i chain ih =>
    rw [List.findSome?_cons, List.findSome?_cons, List.find?_cons, h.bindings]
    by_cases hname : other = name
    · subst hname
      by_cases hij : i = j
      · subst hij
        simp [hbound]
      · cases hlocal : a.getLocal? i other with
        | some old => simp [hij]
        | none => simpa [hij, hlocal] using ih
    · cases hlocal : a.getLocal? i other with
      | some old => simp [hname]
      | none => simpa [hname, hlocal] using ih

/-! ## The names in sight -/

/-- The names of scopes are added to those found before, each once. -/
theorem namesFrom_of_chain (hnested : store.Nested) (honce : store.NamesOnce)
    (hchain : store.Chain i chain) {found : List String} (hfound : found.Nodup) :
    ∃ names, store.namesFrom found i = .ok names ∧ names.Nodup ∧
      ∀ name, name ∈ names ↔ name ∈ found ∨ ∃ k ∈ chain, (store.getLocal? k name).isSome := by
  have hadd : ∀ i s, store.scope? i = some s → ∀ {found : List String}, found.Nodup →
      (found ++ s.bindings.names.filter (!found.contains ·)).Nodup ∧
      ∀ name, name ∈ found ++ s.bindings.names.filter (!found.contains ·) ↔
        name ∈ found ∨ (store.getLocal? i name).isSome := by
    intro i s hs found hfound
    refine ⟨List.nodup_append'.2 ⟨hfound, (honce i s hs).filter _, ?_⟩, fun name => ?_⟩
    · intro name hmem hnew
      simp [hmem] at hnew
    · rw [getLocal?_of_scope? hs, ← Bindings.mem_names_iff]
      by_cases hmem : name ∈ found <;> simp [hmem]
  induction hchain generalizing found with
  | @last i s hs hout =>
    obtain ⟨hnodup, hmem⟩ := hadd i s hs hfound
    rw [namesFrom, hs]
    dsimp only
    rw [hout]
    exact ⟨_, rfl, hnodup, by simpa using hmem⟩
  | @cons i s j chain hs hout _ ih =>
    obtain ⟨hnodup, hmem⟩ := hadd i s hs hfound
    obtain ⟨names, hnames, hnodup', hmem'⟩ := ih hnodup
    rw [namesFrom, hs]
    dsimp only
    rw [hout]
    dsimp only
    rw [if_pos (hnested i s j hs hout)]
    refine ⟨names, hnames, hnodup', fun name => ?_⟩
    rw [hmem', hmem, List.exists_mem_cons_iff, or_assoc]

/-! ## The theorem -/

/-- Reading and assigning a name fail with the same fault at the token of the name, and leave the
state as it was, if no scope of the chain binds it. -/
theorem undefined_of_chain {state : State} (hnested : state.store.Nested)
    (hchain : state.store.Chain state.current chain) (token : Token) (value : Value) :
    (Exec.readName token state = .error (.fault ⟨.undefinedVariable token.lexeme, token⟩) state ↔
      state.store.binder? chain token.lexeme = none) ∧
    (Exec.assignName token value state =
        .error (.fault ⟨.undefinedVariable token.lexeme, token⟩) state ↔
      state.store.binder? chain token.lexeme = none) := by
  unfold Exec.readName Exec.assignName get
  rcases resolve_of_chain hnested hchain token.lexeme with
    ⟨owner, found, hres, hbinder, -⟩ | ⟨hres, hbinder, -⟩
  · simp [hres, hbinder, Except.map]
  · simp [hres, hbinder, Except.map]

/-- **Names are looked up, assigned and listed along the way out.** In every store that requests
lead to, let `chain` be the way out from a scope that is held. Reading a name yields its value in the
first scope of the chain that binds it, and fails if none does: then the name is reported as an
undefined variable. Assigning fails exactly if reading does, with the same report, and changes
nothing then; else it changes one binding, that of the first scope of the chain that binds the name,
and from any scope that is held the name has the new value if its chain meets that binding first,
and every name the value it had before otherwise. Declaring changes the scope's own binding only.
The names listed are those that can be read, each once. -/
theorem names_follow_chains {store : ScopeStore} (h : Leads fresh store) {i : ScopeId}
    (hi : i < store.size) :
    ∃ chain, store.Chain i chain ∧ (∀ other, store.Chain i other → other = chain) ∧
    (∀ name, store.get i name = store.valueAlong chain name) ∧
    (∀ name value,
      ((∃ absence, store.assign i name value = .error absence) ↔
        ∃ absence, store.get i name = .error absence) ∧
      (store.binder? chain name = none →
        store.assign i name value = .error .unbound ∧
        store.next (.assign i name value) = store) ∧
      ∀ owner, store.binder? chain name = some owner → ∃ assigned,
        store.assign i name value = .ok assigned ∧
        Rebound store assigned owner name value ∧
        ∀ j chain', store.Chain j chain' → ∀ other, assigned.get j other =
          if other = name ∧ store.binder? chain' name = some owner then .ok value
          else store.get j other) ∧
    (∀ name value, ∃ defined, store.define i name value = .ok defined ∧
      Rebound store defined i name value) ∧
    (∃ names, store.names i = .ok names ∧ names.Nodup ∧
      ∀ name, name ∈ names ↔ ∃ value, store.get i name = .ok value) ∧
    ∀ (state : State) (token : Token) (value : Value), state.store = store → state.current = i →
      (Exec.readName token state =
          .error (.fault ⟨.undefinedVariable token.lexeme, token⟩) state ↔
        store.binder? chain token.lexeme = none) ∧
      (Exec.assignName token value state =
          .error (.fault ⟨.undefinedVariable token.lexeme, token⟩) state ↔
        store.binder? chain token.lexeme = none) := by
  have harranged := h.arranged arranged_fresh
  have hnested := harranged.nested
  obtain ⟨chain, hchain, -⟩ := harranged.exists_chain hi
  refine ⟨chain, hchain, fun _ => hchain.unique, ?_, ?_, ?_, ?_, ?_⟩
  · exact fun name => get_eq_valueAlong hnested hchain name
  · intro name value
    rcases resolve_of_chain hnested hchain name with
      ⟨owner, found, hres, hbinder, hlocal, hvalue⟩ | ⟨hres, hbinder, hvalue⟩
    · have hassign : store.assign i name value = .ok (store.bind owner name value) := by
        rw [assign, hres]
      have hget : store.get i name = .ok found := by
        rw [get_eq_valueAlong hnested hchain, hvalue]
      refine ⟨by simp [hassign, hget], by simp [hbinder], fun owner' howner => ?_⟩
      obtain rfl : owner = owner' := Option.some.inj (hbinder.symm.trans howner)
      obtain ⟨s, hs, -⟩ := Option.bind_eq_some_iff.1 hlocal
      have hrebound := rebound_bind (lt_size hs) name value
      refine ⟨_, hassign, hrebound, fun j chain' hchain' other => ?_⟩
      rw [get_eq_valueAlong hnested hchain',
        get_eq_valueAlong (harranged.bind name value).nested (hchain'.bind owner name value)]
      exact hrebound.valueAlong_eq (by simp [hlocal]) chain' other
    · have hassign : store.assign i name value = .error .unbound := by
        rw [assign, hres]
      have hget : store.get i name = .error .unbound := by
        rw [get_eq_valueAlong hnested hchain, hvalue]
      refine ⟨by simp [hassign, hget], fun _ => ⟨hassign, ?_⟩, by simp [hbinder]⟩
      rw [next, answer, hassign]
  · intro name value
    exact ⟨_, if_pos hi, rebound_bind hi name value⟩
  · obtain ⟨names, hnames, hnodup, hmem⟩ :=
      namesFrom_of_chain hnested h.namesOnce hchain List.nodup_nil
    refine ⟨names, hnames, hnodup, fun name => ?_⟩
    rw [hmem, get_eq_valueAlong hnested hchain, exists_valueAlong_iff]
    simp
  · rintro state token value rfl rfl
    exact undefined_of_chain hnested hchain token value

/-- A global name, shadowed in one of two scopes that lie side by side. -/
def shadowed : ScopeStore :=
  (((fresh.next (.define 0 "x" .nil)).next (.push 0)).next (.define 1 "x" .nil)).next (.push 0)

/-- Assigned from the scope that shadows it, the name has the new value there, and beside it the
global one still. -/
theorem names_follow_chains_shadowed :
    Leads fresh shadowed ∧ 1 < shadowed.size ∧ ∃ assigned,
      shadowed.assign 1 "x" (.bool true) = .ok assigned ∧
      assigned.get 1 "x" = .ok (.bool true) ∧ assigned.get 2 "x" = .ok .nil := by
  have hleads : Leads fresh shadowed := by
    refine .step (.step (.step (.step .refl (.define 0 "x" .nil) ?_) (.push 0) ?_)
      (.define 1 "x" .nil) ?_) (.push 0) ?_
    · show 0 < fresh.size
      cbv
    · show 0 < (fresh.next (.define 0 "x" .nil)).size
      cbv
    · show 1 < ((fresh.next (.define 0 "x" .nil)).next (.push 0)).size
      cbv
    · show 0 < (((fresh.next (.define 0 "x" .nil)).next (.push 0)).next (.define 1 "x" .nil)).size
      cbv
  have hheld : 1 < shadowed.size := by cbv
  have hglobal : shadowed.scope? 0 = some ⟨⟨[("x", .nil)]⟩, none, true, false⟩ := by cbv
  have hinner : shadowed.scope? 1 = some ⟨⟨[("x", .nil)]⟩, some 0, false, false⟩ := by cbv
  have hbeside : shadowed.scope? 2 = some ⟨{}, some 0, false, false⟩ := by cbv
  have hchain : shadowed.Chain 1 [1, 0] := .cons hinner rfl (.last hglobal rfl)
  have hchain' : shadowed.Chain 2 [2, 0] := .cons hbeside rfl (.last hglobal rfl)
  have hbinder : shadowed.binder? [1, 0] "x" = some 1 := by cbv
  have hbinder' : shadowed.binder? [2, 0] "x" = some 0 := by cbv
  have hget : shadowed.get 2 "x" = .ok .nil := by cbv
  obtain ⟨chain, -, hunique, -, hassign, -⟩ := names_follow_chains hleads hheld
  obtain rfl := hunique _ hchain
  obtain ⟨-, -, hfound⟩ := hassign "x" (.bool true)
  obtain ⟨assigned, heq, -, hafter⟩ := hfound 1 hbinder
  refine ⟨hleads, hheld, assigned, heq, ?_, ?_⟩
  · rw [hafter 1 _ hchain, hbinder]
    rfl
  · rw [hafter 2 _ hchain', hbinder', hget]
    rfl

end ScopeStore

end GradedScript
