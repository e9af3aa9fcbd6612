import GradedScript.Proofs.Scope.Store
import Mathlib

/-!
# What requests make of a store

A store is asked to open, release and keep scopes, and to bind, look up, assign and list names.
Apart from releases, which may name any index, a request names a scope that is held when it is made.
Then whatever the requests and their order, the store stays arranged as a tree around the global scope
that grows upward with the indices (`requests_keep_arrangement`): walks outward stay inside it and
end, and what is captured keeps its place and its way out for good.
-/

namespace GradedScript

namespace ScopeStore

/-! ## Requests -/

/-- What a store can be asked. -/
inductive Request where
  | push (enclosing : ScopeId)
  | release (id : ScopeId)
  | capture (id : ScopeId)
  | define (id : ScopeId) (name : String) (value : Value)
  | get (id : ScopeId) (name : String)
  | assign (id : ScopeId) (name : String) (value : Value)
  | names (id : ScopeId)

/-- The store after a request, or why there is no answer. To look something up changes nothing. -/
def answer (store : ScopeStore) : Request → Except Absence ScopeStore
  | .push enclosing => .ok (store.push enclosing)
  | .release id => .ok (store.release id)
  | .capture id => store.capture id
  | .define id name value => store.define id name value
  | .get id name => (store.get id name).map fun _ => store
  | .assign id name value => store.assign id name value
  | .names id => (store.names id).map fun _ => store

/-- The scope that a request names is held, unless it is to be released. -/
def Request.Held (store : ScopeStore) : Request → Prop
  | .release _ => True
  | .push id => id < store.size
  | .capture id => id < store.size
  | .define id _ _ => id < store.size
  | .get id _ => id < store.size
  | .assign id _ _ => id < store.size
  | .names id => id < store.size

/-- The store to go on with; a request without an answer changes nothing. -/
def next (store : ScopeStore) (request : Request) : ScopeStore :=
  match store.answer request with
  | .ok store => store
  | .error _ => store

/-- The stores that requests can lead to. -/
inductive Leads (start : ScopeStore) : ScopeStore → Prop
  | refl : Leads start start
  | step {store} (h : Leads start store) (request : Request) (hheld : request.Held store) :
      Leads start (store.next request)

/-- The scopes met on the way out from a scope, itself first. -/
inductive Chain (store : ScopeStore) : ScopeId → List ScopeId → Prop
  | last {i s} (hs : store.scope? i = some s) (hout : s.enclosing = none) : Chain store i [i]
  | cons {i s j chain} (hs : store.scope? i = some s) (hout : s.enclosing = some j)
      (h : Chain store j chain) : Chain store i (i :: chain)

section

variable {store a b c : ScopeStore} {i j : ScopeId} {s : Scope} {request : Request}
  {chain : List ScopeId}

/-- **What a request can do.** In a well-formed store, a request that names a scope it holds opens,
releases or marks scopes, binds a name or changes nothing; if there is no answer, a name is not
bound. -/
theorem answer_cases (h : store.WellFormed) (hheld : request.Held store) :
    (∃ e, e < store.size ∧ store.answer request = .ok (store.push e)) ∨
    (∃ i, store.answer request = .ok (store.release i)) ∨
    (∃ i, i < store.size ∧ store.answer request = .ok (store.markOutward i)) ∨
    (∃ j name value, store.answer request = .ok (store.bind j name value)) ∨
    store.answer request = .ok store ∨ store.answer request = .error .unbound := by
  cases request with
  | push e => exact .inl ⟨e, hheld, rfl⟩
  | release i => exact .inr (.inl ⟨i, rfl⟩)
  | capture i =>
    refine .inr (.inr (.inl ⟨i, hheld, ?_⟩))
    rw [answer, capture, missingOutward?_eq_none h.nested hheld]
  | define i name value =>
    refine .inr (.inr (.inr (.inl ⟨i, name, value, ?_⟩)))
    exact if_pos hheld
  | get i name =>
    refine .inr (.inr (.inr (.inr ?_)))
    rw [answer, get]
    rcases resolve_cases h.nested hheld name with ⟨owner, value, s, hres, -⟩ | hres
    · rw [hres]
      exact .inl rfl
    · rw [hres]
      exact .inr rfl
  | assign i name value =>
    rw [answer, assign]
    rcases resolve_cases h.nested hheld name with ⟨owner, old, s, hres, -⟩ | hres
    · rw [hres]
      exact .inr (.inr (.inr (.inl ⟨owner, name, value, rfl⟩)))
    · rw [hres]
      exact .inr (.inr (.inr (.inr (.inr rfl))))
  | names i =>
    obtain ⟨names, hnames⟩ := exists_namesFrom h.nested hheld []
    refine .inr (.inr (.inr (.inr (.inl ?_))))
    rw [answer, ScopeStore.names, hnames]
    rfl

/-- The same of the store to go on with. -/
theorem next_cases (h : store.WellFormed) (hheld : request.Held store) :
    (∃ e, e < store.size ∧ store.next request = store.push e) ∨
    (∃ i, store.next request = store.release i) ∨
    (∃ i, i < store.size ∧ store.next request = store.markOutward i) ∨
    (∃ j name value, store.next request = store.bind j name value) ∨
    store.next request = store := by
  unfold next
  rcases answer_cases h hheld with ⟨e, he, heq⟩ | ⟨i, heq⟩ | ⟨i, hi, heq⟩ | ⟨j, name, value, heq⟩ |
    heq | heq <;> rw [heq]
  · exact .inl ⟨e, he, rfl⟩
  · exact .inr (.inl ⟨i, rfl⟩)
  · exact .inr (.inr (.inl ⟨i, hi, rfl⟩))
  · exact .inr (.inr (.inr (.inl ⟨j, name, value, rfl⟩)))
  · exact .inr (.inr (.inr (.inr rfl)))
  · exact .inr (.inr (.inr (.inr rfl)))

/-! ## The arrangement -/

/-- A well-formed store in which every scope but the global one lies inside another. -/
structure Arranged (store : ScopeStore) : Prop extends WellFormed store where
  inside : ∀ i s, store.scope? i = some s → i ≠ globalId → ∃ j, s.enclosing = some j

theorem arranged_fresh : fresh.Arranged := by
  refine ⟨wellFormed_fresh, ?_⟩
  intro i s hs hi
  exact absurd (scope?_fresh hs).1 hi

/-- One request leaves a store arranged. -/
theorem Arranged.next (h : store.Arranged) (hheld : request.Held store) :
    (store.next request).Arranged := by
  rcases next_cases h.toWellFormed hheld with ⟨e, he, heq⟩ | ⟨i, heq⟩ | ⟨i, hi, heq⟩ |
    ⟨j, name, value, heq⟩ | heq <;> rw [heq]
  · refine ⟨h.toWellFormed.push he, ?_⟩
    intro k s hs hk
    rw [scope?_push] at hs
    split at hs
    · cases hs
      exact ⟨e, rfl⟩
    · exact h.inside k s hs hk
  · refine ⟨h.toWellFormed.release, ?_⟩
    intro k s hs hk
    obtain ⟨s₀, hs₀, rfl⟩ := scope?_release hs
    exact h.inside k s₀ hs₀ hk
  · refine ⟨h.toWellFormed.markOutward hi, ?_⟩
    intro k s hs hk
    obtain ⟨s₀, hs₀, hsame, -⟩ := (h.toWellFormed.marked_markOutward hi).exists_of hs
    rw [hsame]
    exact h.inside k s₀ hs₀ hk
  · refine ⟨h.toWellFormed.bind name value, ?_⟩
    intro k s hs hk
    obtain ⟨s₀, hs₀, hsame⟩ := exists_of_bind hs
    rw [hsame]
    exact h.inside k s₀ hs₀ hk
  · exact h

theorem Leads.arranged (h : Leads a b) (ha : a.Arranged) : b.Arranged := by
  induction h with
  | refl => exact ha
  | step _ request hheld ih => exact ih.next hheld

/-- The global scope lies inside no other. -/
theorem WellFormed.enclosing_global (h : store.WellFormed) (hs : store.scope? globalId = some s) :
    s.enclosing = none := by
  cases henclosing : s.enclosing with
  | none => rfl
  | some outer => exact absurd (h.nested _ s outer hs henclosing) (Nat.not_lt_zero _)

/-! ## Captured scopes -/

/-- The captured scopes of `a` are captured in `b`, and lie inside the same ones. -/
def Retains (a b : ScopeStore) : Prop :=
  ∀ i s, a.scope? i = some s → s.captured = true →
    ∃ s', b.scope? i = some s' ∧ s'.captured = true ∧ s'.enclosing = s.enclosing

theorem Retains.refl (a : ScopeStore) : Retains a a :=
  fun _ s hs hcap => ⟨s, hs, hcap, rfl⟩

theorem Retains.trans (hab : Retains a b) (hbc : Retains b c) : Retains a c := by
  intro i s hs hcap
  obtain ⟨s', hs', hcap', henc'⟩ := hab i s hs hcap
  obtain ⟨s'', hs'', hcap'', henc''⟩ := hbc i s' hs' hcap'
  exact ⟨s'', hs'', hcap'', henc''.trans henc'⟩

theorem Keeps.retains (h : Keeps a b) : Retains a b := by
  intro i s hs hcap
  obtain ⟨s', hs', henc, -, hmono⟩ := h.kept i s hs
  exact ⟨s', hs', hmono hcap, henc⟩

theorem retains_push (store : ScopeStore) (e : ScopeId) : Retains store (store.push e) := by
  intro i s hs hcap
  refine ⟨s, ?_, hcap, rfl⟩
  rw [scope?_push, if_neg (Nat.ne_of_lt (lt_size hs))]
  exact hs

theorem retains_release (store : ScopeStore) (j : ScopeId) : Retains store (store.release j) := by
  intro i s hs hcap
  obtain ⟨s', hs', hcap'⟩ := captured_release_iff.2 ⟨s, hs, hcap⟩
  obtain ⟨s₀, hs₀, rfl⟩ := scope?_release hs'
  rw [hs] at hs₀
  cases hs₀
  exact ⟨_, hs', hcap', rfl⟩

/-- One request takes nothing away from what is captured. -/
theorem WellFormed.retains_next (h : store.WellFormed) (hheld : request.Held store) :
    Retains store (store.next request) := by
  rcases next_cases h hheld with ⟨e, -, heq⟩ | ⟨i, heq⟩ | ⟨i, hi, heq⟩ | ⟨j, name, value, heq⟩ |
    heq <;> rw [heq]
  · exact retains_push store e
  · exact retains_release store i
  · exact (Keeps.of_marked (h.marked_markOutward hi)).retains
  · exact (Keeps.bind store j name value).retains
  · exact .refl store

theorem Leads.retains (h : Leads a b) (ha : a.Arranged) : Retains a b := by
  induction h with
  | refl => exact .refl a
  | step h request hheld ih => exact ih.trans ((h.arranged ha).toWellFormed.retains_next hheld)

/-! ## Chains -/

/-- The way out from a scope that is held ends: the scopes around are held too, their indices go
down, and the last one is the global scope. -/
theorem Arranged.exists_chain (h : store.Arranged) (hi : i < store.size) :
    ∃ chain, store.Chain i chain ∧ (∀ j ∈ chain, j ≤ i) ∧ chain.Pairwise (· > ·) ∧
      chain.getLast? = some globalId := by
  induction i using Nat.strongRecOn with
  | _ i ih =>
    obtain ⟨s, hs⟩ := exists_scope hi
    by_cases hglobal : i = globalId
    · subst hglobal
      refine ⟨[globalId], .last hs (h.enclosing_global hs), ?_, List.pairwise_singleton _ _, rfl⟩
      exact List.forall_mem_singleton.2 (Nat.le_refl _)
    · obtain ⟨j, hj⟩ := h.inside i s hs hglobal
      have hlt := h.nested i s j hs hj
      obtain ⟨chain, hchain, hle, hdown, hlast⟩ := ih j hlt (hlt.trans hi)
      refine ⟨i :: chain, .cons hs hj hchain, ?_, ?_, ?_⟩
      · refine List.forall_mem_cons.2 ⟨Nat.le_refl _, ?_⟩
        exact fun k hk => (hle k hk).trans hlt.le
      · exact List.pairwise_cons.2 ⟨fun k hk => (hle k hk).trans_lt hlt, hdown⟩
      · rw [List.getLast?_cons, hlast]
        rfl

/-- On the way out from a captured scope all scopes are captured. -/
theorem Chain.captured (hchain : store.Chain i chain) (h : store.WellFormed)
    (hi : store.Captured i) : ∀ j ∈ chain, store.Captured j := by
  induction hchain with
  | last => exact List.forall_mem_singleton.2 hi
  | cons hs hout _ ih =>
    obtain ⟨s, hs', hcap⟩ := hi
    rw [hs] at hs'
    cases hs'
    exact List.forall_mem_cons.2 ⟨⟨_, hs, hcap⟩, ih (h.closed _ _ _ hs hcap hout)⟩

/-- The way out from a captured scope stays where captured scopes stay. -/
theorem Chain.retained (hchain : a.Chain i chain) (hab : Retains a b) (ha : a.WellFormed)
    (hi : a.Captured i) : b.Chain i chain := by
  induction hchain with
  | last hs hout =>
    obtain ⟨s, hs', hcap⟩ := hi
    rw [hs] at hs'
    cases hs'
    obtain ⟨s', hs', -, henc⟩ := hab _ _ hs hcap
    exact .last hs' (henc.trans hout)
  | cons hs hout _ ih =>
    obtain ⟨s, hs', hcap⟩ := hi
    rw [hs] at hs'
    cases hs'
    obtain ⟨s', hs', -, henc⟩ := hab _ _ hs hcap
    exact .cons hs' (henc.trans hout) (ih (ha.closed _ _ _ hs hcap hout))

/-! ## Releasing what is gone -/

/-- Where the top scope is not dead there is nothing to reclaim. -/
theorem reclaim_of_topAlive (h : store.TopAlive) : store.reclaim = store := by
  obtain ⟨hle, hkept, hgone, -⟩ := popWhile_spec Scope.dead store.scopes
  have hsize : store.reclaim.size = store.size := by
    by_contra hne
    have hlt : store.reclaim.size < store.size := Nat.lt_of_le_of_ne hle hne
    obtain ⟨s, hs⟩ := exists_scope (Nat.sub_one_lt_of_lt hlt)
    have hdead : s.dead = true := hgone _ s (Nat.le_sub_one_of_lt hlt) hs
    rw [h s hs] at hdead
    cases hdead
  refine congrArg mk (Array.ext_getElem? fun k => ?_)
  by_cases hk : k < store.reclaim.size
  · exact hkept k hk
  · have hout : store.size ≤ k := hsize ▸ Nat.le_of_not_lt hk
    exact (scope?_eq_none (Nat.le_of_not_lt hk)).trans (scope?_eq_none hout).symm

theorem update_of_size_le (h : store.size ≤ i) (f : Scope → Scope) : store.update i f = store := by
  refine congrArg mk (Array.ext_getElem? fun k => ?_)
  show (store.update i f).scope? k = store.scope? k
  rw [scope?_update]
  split
  · rename_i hik
    rw [← hik, scope?_eq_none h]
    rfl
  · rfl

/-- Releasing an index that is gone changes nothing. -/
theorem release_of_size_le (h : store.TopAlive) (hi : store.size ≤ i) :
    store.release i = store := by
  rw [release, update_of_size_le hi, reclaim_of_topAlive h]

end

/-! ## The theorem -/

/-- **Requests keep a store arranged.** After any requests to a fresh store, the global scope is
held, captured and inside no other; every other scope is inside one with a smaller index; if a scope is
captured, so are all on its way out; and the top scope is not both released and uncaptured. So the
way out from any scope that is held goes down through scopes that are held and ends at the global
one, and no request that names a scope that is held runs out of the store; to release an index that
is gone changes nothing; and a captured scope keeps its index, its enclosing scope and its whole way
out, whatever is requested later. -/
theorem requests_keep_arrangement {store : ScopeStore} (h : Leads fresh store) :
    (∃ s, store.scope? globalId = some s ∧ s.captured = true ∧ s.enclosing = none) ∧
    (∀ i s, store.scope? i = some s → i ≠ globalId → ∃ j, s.enclosing = some j ∧ j < i) ∧
    (∀ i s chain, store.scope? i = some s → s.captured = true → store.Chain i chain →
      ∀ j ∈ chain, store.Captured j) ∧
    (∀ s, store.scope? (store.size - 1) = some s → ¬ (s.released = true ∧ s.captured = false)) ∧
    (∀ i, i < store.size → ∃ chain, store.Chain i chain ∧ (∀ j ∈ chain, j < store.size) ∧
      chain.Pairwise (· > ·) ∧ chain.getLast? = some globalId) ∧
    (∀ request : Request, request.Held store →
      ∀ id, store.answer request ≠ .error (.missing id)) ∧
    (∀ i, store.size ≤ i → store.release i = store) ∧
    (∀ later, Leads store later → ∀ i s, store.scope? i = some s → s.captured = true →
      ∃ s', later.scope? i = some s' ∧ s'.captured = true ∧ s'.enclosing = s.enclosing ∧
        ∀ chain, store.Chain i chain → later.Chain i chain) := by
  have harranged := h.arranged arranged_fresh
  have hwell := harranged.toWellFormed
  refine ⟨?_, ?_, ?_, ?_, ?_, ?_, ?_, ?_⟩
  · obtain ⟨s, hs, hcap⟩ := hwell.root
    exact ⟨s, hs, hcap, hwell.enclosing_global hs⟩
  · intro i s hs hi
    obtain ⟨j, hj⟩ := harranged.inside i s hs hi
    exact ⟨j, hj, hwell.nested i s j hs hj⟩
  · intro i s chain hs hcap hchain
    exact hchain.captured hwell ⟨s, hs, hcap⟩
  · rintro s hs ⟨hreleased, hcap⟩
    have halive := hwell.top s hs
    rw [Scope.dead, hreleased, hcap] at halive
    cases halive
  · intro i hi
    obtain ⟨chain, hchain, hle, hdown, hlast⟩ := harranged.exists_chain hi
    exact ⟨chain, hchain, fun j hj => (hle j hj).trans_lt hi, hdown, hlast⟩
  · intro request hheld id
    rcases answer_cases hwell hheld with ⟨e, -, heq⟩ | ⟨i, heq⟩ | ⟨i, -, heq⟩ |
      ⟨j, name, value, heq⟩ | heq | heq <;> (rw [heq]; intro hmissing; cases hmissing)
  · exact fun i hi => release_of_size_le hwell.top hi
  · intro later hlater i s hs hcap
    have hretains := hlater.retains harranged
    obtain ⟨s', hs', hcap', henc⟩ := hretains i s hs hcap
    exact ⟨s', hs', hcap', henc, fun chain hchain => hchain.retained hretains hwell ⟨s, hs, hcap⟩⟩

/-- Two scopes inside each other, the outer of which is released before the inner is captured. -/
def capturedLate : ScopeStore :=
  (((fresh.next (.push 0)).next (.push 1)).next (.release 1)).next (.capture 2)

/-- The same after both are released again, and one is opened and released on top. -/
def usedLater : ScopeStore :=
  (((capturedLate.next (.release 2)).next (.release 1)).next (.push 2)).next (.release 3)

/-- Both scopes stay where they are, and so does the way out. -/
theorem requests_keep_arrangement_capturedLate :
    Leads fresh capturedLate ∧ Leads capturedLate usedLater ∧ capturedLate.Chain 2 [2, 1, 0] ∧
      usedLater.Chain 2 [2, 1, 0] ∧ capturedLate.size = 3 ∧
      capturedLate.release 3 = capturedLate := by
  have hlate : Leads fresh capturedLate := by
    refine .step (.step (.step (.step .refl (.push 0) ?_) (.push 1) ?_) (.release 1) trivial)
      (.capture 2) ?_
    · show 0 < fresh.size
      cbv
    · show 1 < (fresh.next (.push 0)).size
      cbv
    · show 2 < (((fresh.next (.push 0)).next (.push 1)).next (.release 1)).size
      cbv
  have hlater : Leads capturedLate usedLater := by
    refine .step (.step (.step (.step .refl (.release 2) trivial) (.release 1) trivial)
      (.push 2) ?_) (.release 3) trivial
    show 2 < ((capturedLate.next (.release 2)).next (.release 1)).size
    cbv
  have hsize : capturedLate.size = 3 := by cbv
  have hinner : capturedLate.scope? 2 = some ⟨{}, some 1, true, false⟩ := by cbv
  have houter : capturedLate.scope? 1 = some ⟨{}, some 0, true, true⟩ := by cbv
  have hglobal : capturedLate.scope? 0 = some ⟨{}, none, true, false⟩ := by cbv
  have hchain : capturedLate.Chain 2 [2, 1, 0] :=
    .cons hinner rfl (.cons houter rfl (.last hglobal rfl))
  obtain ⟨-, -, -, -, -, -, hgone, hkept⟩ := requests_keep_arrangement hlate
  obtain ⟨-, -, -, -, hchains⟩ := hkept usedLater hlater 2 _ hinner rfl
  exact ⟨hlate, hlater, hchain, hchains _ hchain, hsize, hgone 3 hsize.le⟩

end ScopeStore

end GradedScript
