import GradedScript.Proofs.Machine.Lockstep
import GradedScript.Proofs.Machine.Restoration

/-!
# Orderly states

A state is orderly when a machine in it runs in lockstep with itself: each value bound in it matches
itself, so that its functions are declared in captured scopes and their tokens have what is asked of
them, and all identities in values have been given. Whatever the machine does, its state stays
orderly (`State.Orderly.after`): an identity is given once and no two values get the same one.
-/

namespace GradedScript

open Exec

/-- An identity that a state has given corresponds to itself. -/
def State.given (s : State) (i i' : Nat) : Prop :=
  i = i' ∧ i < s.nextIdentity

/-- Every value bound in the state matches itself, and the current scope is held. -/
structure State.Orderly (T : TokenMatch) (s : State) : Prop where
  store : s.store.InStep T s.given .whole s.store
  held : s.current < s.store.size

/-- A run beside itself, which sees all scopes. -/
def Setting.self (s : State) : Setting :=
  ⟨.whole, s, s⟩

section

variable {T : TokenMatch} {host : Host} {s s' : State} {α : Type}

/-- Order depends on the scopes and on what identities were given. -/
theorem State.Orderly.of_same (h : s.Orderly T) (hstore : s'.store = s.store)
    (hcurrent : s'.current = s.current) (hidentity : s'.nextIdentity = s.nextIdentity) :
    s'.Orderly T where
  store := by
    unfold State.given
    rw [hstore, hidentity]
    exact h.store
  held := by
    rw [hstore, hcurrent]
    exact h.held

/-- An orderly state runs in lockstep with itself. -/
theorem State.Orderly.sound (h : s.Orderly T) : (Setting.self s).Sound T ⟨s, s⟩ where
  stores := h.store.mono fun i i' hi => by
    obtain ⟨rfl, hlt⟩ := hi
    exact ⟨.old hlt hlt, hlt⟩
  callDepth := rfl
  identity := ⟨0, rfl, rfl⟩
  clock := ⟨0, rfl, rfl⟩
  written := ⟨.empty, ByteArray.append_empty.symm, ByteArray.append_empty.symm⟩
  room := rfl
  limit := rfl
  current := rfl
  sees := trivial
  held := h.held
  loopDepth := rfl

/-- What runs in lockstep with itself is orderly. -/
theorem Setting.InStep.orderly {start : State} (h : (Setting.self start).InStep T ⟨s, s⟩)
    (hheld : s.current < s.store.size) : s.Orderly T where
  store := h.stores.mono fun i i' hi => by
    obtain ⟨hsame, hlt⟩ := hi
    refine ⟨?_, hlt⟩
    cases hsame with
    | old => rfl
    | new k => rfl
  held := hheld

/-- **A step in lockstep with itself leaves the state orderly**, however it ends. -/
theorem State.Orderly.after (h : s.Orderly T) {Q : Pair → α → α → Prop}
    {r : EStateM.Result Halt State α} (hr : (Setting.self s).EndsAlike T ⟨s, s⟩ Q r r) :
    (stateAfter r).Orderly T := by
  have hsame : ∀ {t : State} {w : Pair}, w.left = t → w.right = t → (Setting.self s).Later ⟨s, s⟩ w →
      (Setting.self s).InStep T w → t.Orderly T := by
    rintro t ⟨left, right⟩ hleft hright hlater hstep
    cases hleft
    cases hright
    exact hstep.orderly (h.sound.later hlater hstep).held
  cases hr with
  | ok w hleft hright hlater hstep _ => exact hsame hleft hright hlater hstep
  | halt w hleft hright hlater hstep _ => exact hsame hleft hright hlater hstep

/-- The machine beside itself. -/
def besideItself (T : TokenMatch) (host : Host) (s : State) :
    Comparison T .standard .standard host host :=
  lockstep (Setting.self s) T fun _ => rfl

theorem State.Orderly.execProgram (h : s.Orderly T) (n : Nat) {statements : List Stmt}
    (hstatements : List.Forall₂ (Stmt.Matches T .top) statements statements) :
    (stateAfter (execProgramWith .standard host n statements s)).Orderly T := by
  exact h.after (h.sound.execProgram (fun _ => rfl) n hstatements)

/-- Opening a scope in an orderly state and making it the current one. -/
theorem State.Orderly.enter (h : s.Orderly T) {e : ScopeId} (he : e < s.store.size)
    (loopDepth callDepth : Nat) :
    State.Orderly T { s with
      store := s.store.push e, current := s.store.size, loopDepth, callDepth } where
  store := h.store.push trivial he
  held := by
    rw [ScopeStore.size_push]
    exact Nat.lt_succ_self _

/-! ## Values of an orderly state -/

/-- Values that a state may hold: their functions are built in or declared in captured scopes, and
their identities have been given. -/
def State.Knows (s : State) (v : Value) : Prop :=
  v.Matches (.only anyToken) (s.store.linksBy s.given) v

/-- Binding values that match themselves, as parameters in some scope. -/
theorem State.Orderly.bindAll (h : s.Orderly T) (j : ScopeId) {params : List Token}
    (hparams : List.Forall₂ (T.Rel .parameter) params params) {arguments : List Value}
    (harguments : List.Forall₂ (Value.Matches T (s.store.linksBy s.given)) arguments arguments) :
    State.Orderly T { s with store := s.store.bindAll j params arguments } where
  store := (Setting.bindAll_inStep h.store trivial hparams harguments).1
  held := Nat.lt_of_lt_of_le h.held (ScopeStore.Keeps.bindAll ..).size_le

end

/-! ## Sessions -/

/-- A new session is in order: what it binds is built in. -/
theorem fresh_orderly (T : TokenMatch) : Session.fresh.state.Orderly T := by
  have hblank : Session.blankState.Orderly T := by
    refine ⟨⟨ScopeStore.wellFormed_fresh, ScopeStore.wellFormed_fresh, rfl, Nat.zero_le _, ?_, ?_, ?_,
      fun _ _ => trivial⟩, Nat.zero_lt_one⟩
    · intro i s s' _ hs hs'
      obtain ⟨-, rfl⟩ := ScopeStore.scope?_fresh hs
      obtain ⟨-, rfl⟩ := ScopeStore.scope?_fresh hs'
      exact ⟨fun _ => .none, rfl, rfl⟩
    · intro i s s' _ hs hs'
      obtain ⟨-, rfl⟩ := ScopeStore.scope?_fresh hs
      obtain ⟨-, rfl⟩ := ScopeStore.scope?_fresh hs'
      rfl
    · exact fun _ _ _ _ _ _ => trivial
  have hinstall : ∀ (session : Session) (name : String) (arity : Arity) (native : Native),
      native.isInstalled = true → session.state.Orderly T →
      (session.install name arity native).state.Orderly T := by
    intro session name arity native hnative h
    have hgiven : ∀ i i', session.state.given i i' →
        (session.install name arity native).state.given i i' :=
      fun i i' hi => ⟨hi.1, Nat.lt_succ_of_lt hi.2⟩
    refine ⟨(h.store.mono hgiven).bind ScopeStore.globalId name ?_, ?_⟩
    · exact .function (.native ⟨rfl, Nat.lt_succ_self _⟩ hnative)
    · show session.state.current < (session.state.store.bind _ _ _).size
      rw [ScopeStore.size_bind]
      exact h.held
  unfold Session.fresh
  exact hinstall _ _ _ _ rfl (hinstall _ _ _ _ rfl (hinstall _ _ _ _ rfl hblank))

end GradedScript
