import GradedScript.Proofs.Machine.Orderly

/-!
# Scoping is lexical

What a call of a declared function does depends on the scopes that functions captured, and on
nothing else of its caller: not on the caller's scope, the variables there, or the loops that are
running (`call_lexical`). Two calls from states that have the captured scopes in common run in
lockstep, seeing just these and what they open themselves; so they leave the callers' own scopes as
they were.
-/

namespace GradedScript

open Exec

/-! ## States that arise -/

/-- The states in which a machine may begin a statement, an expression or a call while it runs a
session, as they are reached with values that the machine has made itself. -/
inductive Arises (host : Host) : State → Prop
  | start : Arises host Session.fresh.state
  /-- something is written, or the next run begins with an output of its own -/
  | output {s} (h : Arises host s) (output : Output) : Arises host { s with output }
  | afterStmt {s} (h : Arises host s) (budget : Nat) (statement : Stmt) :
      Arises host (stateAfter (exec host budget statement s))
  | afterExpr {s} (h : Arises host s) (budget : Nat) (e : Expr) :
      Arises host (stateAfter (eval host budget e s))
  | afterCall {s} (h : Arises host s) (budget : Nat) {f : Function} {arguments : List Value}
      (paren : Token) (hf : s.Knows (.function f)) (harguments : ∀ v ∈ arguments, s.Knows v) :
      Arises host (stateAfter (call host budget f arguments paren s))
  | inBlock {s} (h : Arises host s) :
      Arises host { s with store := s.store.push s.current, current := s.store.size }
  | inLoop {s} (h : Arises host s) : Arises host { s with loopDepth := s.loopDepth + 1 }
  | inBody {s} (h : Arises host s) {closure : ScopeId} (hclosure : s.store.Captured closure)
      (params : List Token) {arguments : List Value} (harguments : ∀ v ∈ arguments, s.Knows v)
      (hdepth : s.callDepth < maxCallDepth) :
      Arises host { s with
        store := (s.store.push closure).bindAll s.store.size params arguments
        current := s.store.size, loopDepth := 0, callDepth := s.callDepth + 1 }

section

variable {host : Host} {s s' : State}

/-- What a state knows matches itself wherever the same scopes are captured and the same identities
correspond to themselves. -/
theorem State.Knows.matches_self {v : Value} (h : s.Knows v) {store : ScopeStore}
    {I : Nat → Nat → Prop} (hcaptured : ∀ c, s.store.Captured c → store.Captured c)
    (hI : ∀ i, i < s.nextIdentity → I i i) :
    v.Matches (.only anyToken) (store.linksBy I) v := by
  have hgiven : ∀ i i', (s.store.linksBy s.given).identities i i' →
      (store.linksBy I).identities i i' := by
    intro i i' hi
    obtain ⟨rfl, hlt⟩ := hi
    exact hI i hlt
  exact Value.Matches.mono (ScopeStore.linksBy_mono hcaptured) hgiven h

theorem State.Knows.held {v : Value} (h : s.Knows v) : v.Held s.store := by
  have hequal : ∀ i i', (s.store.linksBy s.given).identities i i' →
      s.store.links.identities i i' := fun i i' hi => hi.1
  have hscopes : ∀ c c', (s.store.linksBy s.given).scopes c c' → s.store.links.scopes c c' :=
    fun _ _ => id
  exact .of_matches (Value.Matches.mono hscopes hequal h)

/-- Every state that arises is orderly. -/
theorem Arises.orderly (h : Arises host s) : s.Orderly (.only anyToken) := by
  induction h with
  | start => exact fresh_orderly _
  | output _ output ih => exact ih.of_same rfl rfl rfl
  | @afterStmt s _ n statement ih =>
    have htop : (besideItself (.only anyToken) host s).Allows ⟨s, s⟩ .top :=
      ⟨fun hf => absurd hf Bool.false_ne_true, fun hf => absurd hf Bool.false_ne_true⟩
    obtain ⟨-, hexec, -⟩ := (besideItself (.only anyToken) host s).machine_related n
    exact ih.after (hexec ⟨s, s⟩ .top statement statement htop
      (statement.every_anyToken .top).matches_self ih.sound)
  | @afterExpr s _ n e ih =>
    obtain ⟨heval, -, -⟩ := (besideItself (.only anyToken) host s).machine_related n
    exact ih.after (heval ⟨s, s⟩ e e e.every_anyToken.matches_self ih.sound)
  | @afterCall s _ n f arguments paren hf harguments ih =>
    have hknown : ∀ v, s.Knows v →
        v.Matches (.only anyToken) ((Setting.self s).links ⟨s, s⟩) v :=
      fun v hv => hv.matches_self (fun _ => id) fun i hlt => ⟨.old hlt hlt, hlt⟩
    obtain ⟨-, -, hcall⟩ := (besideItself (.only anyToken) host s).machine_related n
    refine ih.after (hcall ⟨s, s⟩ f f arguments arguments paren paren ?_ ?_ ⟨rfl, trivial⟩ ih.sound)
    · cases hknown _ hf with
      | function hf => exact hf
    · exact List.forall₂_same.2 fun v hv => hknown v (harguments v hv)
  | @inBlock s _ ih => exact ih.enter ih.held s.loopDepth s.callDepth
  | inLoop _ ih => exact ih.of_same rfl rfl rfl
  | @inBody s _ closure hclosure params arguments harguments _ ih =>
    have henter := ih.enter hclosure.lt_size 0 (s.callDepth + 1)
    refine henter.bindAll s.store.size (List.forall₂_same.2 fun t _ => ⟨rfl, trivial⟩)
      (List.forall₂_same.2 fun v hv => (harguments v hv).matches_self ?_ fun i hlt => ⟨rfl, hlt⟩)
    exact fun _ => ScopeStore.captured_push_iff.2

/-- States that arise are reachable. -/
theorem Arises.reachable (h : Arises host s) : Reachable host s := by
  induction h with
  | start => exact .start
  | output _ output ih => exact .output ih output
  | afterStmt _ n statement ih => exact .afterStmt ih n statement
  | afterExpr _ n e ih => exact .afterExpr ih n e
  | afterCall _ n paren hf harguments ih =>
    exact .afterCall ih n paren hf.held fun v hv => (harguments v hv).held
  | inBlock _ ih => exact .inBlock ih
  | inLoop _ ih => exact .inLoop ih
  | inBody _ hclosure params harguments hdepth ih =>
    exact .inBody ih hclosure params (fun v hv => (harguments v hv).held) hdepth

/-! ## What a call can see

A call sees the captured scopes and the scopes it opens itself. The scopes of its caller are not
among them unless they are captured. -/

/-- The states have in common what a call can see: how many scopes are held, which of them are
captured, and what these bind and lie in; how many functions are running; and the room of the
output. -/
structure State.SeesSame (s s' : State) : Prop where
  size_eq : s'.store.size = s.store.size
  captured_iff : ∀ i, s'.store.Captured i ↔ s.store.Captured i
  scopes : ∀ i scope scope', s.store.Captured i → s.store.scope? i = some scope →
    s'.store.scope? i = some scope' →
    (∀ name, scope'.bindings.find? name = scope.bindings.find? name) ∧
      scope'.enclosing = scope.enclosing
  callDepth : s'.callDepth = s.callDepth
  room : s'.output.room = s.output.room

/-- A value that matches itself along two sorts of links does so along what both have in common. -/
theorem Value.Matches.both {T : TokenMatch} {L L' L'' : Links}
    (hscopes : ∀ c, L.scopes c c → L'.scopes c c → L''.scopes c c)
    (hidentities : ∀ i, L.identities i i → L'.identities i i → L''.identities i i) {v u : Value}
    (h : v.Matches T L u) (hvu : u = v) (h' : v.Matches T L' v) : v.Matches T L'' v := by
  induction h with
  | nil => exact .nil
  | bool value => exact .bool value
  | number value => exact .number value
  | string value => exact .string value
  | function hf =>
    cases hvu
    cases h' with
    | function hf' =>
      cases hf with
      | script hid hname hparams hbody hclosure =>
        cases hf' with
        | script hid' _ _ _ hclosure' =>
          exact .function (.script (hidentities _ hid hid') hname hparams hbody
            (hscopes _ hclosure hclosure'))
      | native hid hnative =>
        cases hf' with
        | native hid' _ => exact .function (.native (hidentities _ hid hid') hnative)
  | testCase hid hlength hall hexpected iharguments ihexpected =>
    cases hvu
    cases h' with
    | testCase hid' _ hall' hexpected' =>
      refine .testCase (hidentities _ hid hid') rfl ?_ (ihexpected rfl hexpected')
      intro v v' hv
      obtain ⟨rfl, -⟩ := mem_zip_self hv
      exact iharguments v v hv rfl (hall' v v hv)

/-- Where two calls begin: what they see is captured. -/
def Setting.ofCall (s s' : State) : Setting :=
  ⟨.onlyCaptured s.store, s, s'⟩

/-- What both states know is linked to itself. -/
theorem Setting.ofCall_matches_self {v : Value} (hv : s.Knows v)
    (hv' : s'.Knows v) : v.Matches (.only anyToken) ((Setting.ofCall s s').links ⟨s, s'⟩) v := by
  refine Value.Matches.both ?_ ?_ hv rfl hv'
  · intro c hc _
    exact hc
  · intro i hi hi'
    exact ⟨.old hi.2 hi'.2, hi.2⟩

/-- What a state binds, it knows. -/
theorem State.Orderly.knows (h : s.Orderly (.only anyToken)) {i : ScopeId} {scope : Scope}
    (hscope : s.store.scope? i = some scope) {name : String} {v : Value}
    (hv : scope.bindings.find? name = some v) : s.Knows v := by
  have hself := (h.store.scopes i scope scope trivial hscope hscope).bindings name
  rw [hv] at hself
  cases hself with
  | some hself => exact hself

/-- Calls from such states begin in step. -/
theorem State.SeesSame.inStep (h : s.SeesSame s') (hs : s.Orderly (.only anyToken))
    (hs' : s'.Orderly (.only anyToken)) :
    (Setting.ofCall s s').InStep (.only anyToken) ⟨s, s'⟩ where
  stores := by
    -- a scope that is held is in sight only if it is captured
    have hcaptured : ∀ i scope, (View.onlyCaptured s.store).Sees i →
        s.store.scope? i = some scope → s.store.Captured i := by
      intro i scope hi hscope
      rcases hi with hle | hi
      · exact absurd (ScopeStore.lt_size hscope) (Nat.not_lt.2 hle)
      · exact hi
    refine ⟨hs.store.left, hs'.store.left, h.size_eq, Nat.le_refl _, ?_, ?_, ?_, fun i hi => .inr hi⟩
    · intro i scope scope' hi hscope hscope'
      have hcap := hcaptured i scope hi hscope
      obtain ⟨hbindings, henclosing⟩ := h.scopes i scope scope' hcap hscope hscope'
      refine ⟨?_, henclosing, ?_⟩
      · intro name
        have hname := hbindings name
        rw [hname]
        cases hfind : scope.bindings.find? name with
        | none => exact .none
        | some v =>
          rw [hfind] at hname
          exact .some (Setting.ofCall_matches_self (hs.knows hscope hfind) (hs'.knows hscope' hname))
      · obtain ⟨scope₂, hscope₂, hmark'⟩ := (h.captured_iff i).2 hcap
        obtain ⟨scope₁, hscope₁, hmark⟩ := hcap
        rw [hscope] at hscope₁
        rw [hscope'] at hscope₂
        cases hscope₁
        cases hscope₂
        rw [hmark, hmark']
    · intro i scope scope' hi hscope _
      exact absurd (ScopeStore.lt_size hscope) (Nat.not_lt.2 hi)
    · intro i scope j hi hscope hj
      obtain ⟨scope₁, hscope₁, hmark⟩ := hcaptured i scope hi hscope
      rw [hscope] at hscope₁
      cases hscope₁
      exact .inr (hs.store.left.closed i scope j hscope hmark hj)
  callDepth := h.callDepth
  identity := ⟨0, rfl, rfl⟩
  clock := ⟨0, rfl, rfl⟩
  written := ⟨.empty, ByteArray.append_empty.symm, ByteArray.append_empty.symm⟩
  room := h.room
  limit := rfl

/-! ## Calls in lockstep -/

/-- Functions called from states in step run in lockstep, wherever they are called from. -/
theorem call_endsAlike {S : Setting} {T : TokenMatch} {host host' : Host} {w : Pair}
    (hclock : ∀ k, host.clock (S.start.left.clockReads + k) =
      host'.clock (S.start.right.clockReads + k))
    (h : S.InStep T w) (n : Nat) {i i' : Nat} {name name' : Token} {params params' : List Token}
    {body body' : List Stmt} {closure closure' : ScopeId} {arguments arguments' : List Value}
    {paren paren' : Token} (hparams : List.Forall₂ (T.Rel .parameter) params params')
    (hbody : List.Forall₂ (Stmt.Matches T .body) body body')
    (hclosure : (S.links w).scopes closure closure')
    (harguments : List.Forall₂ (Value.Matches T (S.links w)) arguments arguments')
    (hparen : T.Rel .paren paren paren') :
    S.EndsAlike T w (fun w => Value.Matches T (S.links w))
      (call host n ⟨i, .script name params body closure⟩ arguments paren w.left)
      (call host' n ⟨i', .script name' params' body' closure'⟩ arguments' paren' w.right) := by
  cases n with
  | zero => exact .halted h .outOfBudget
  | succ n =>
    show S.EndsAlike T w _
      (ite (maxCallDepth ≤ w.left.callDepth) (failAt paren .stackOverflow) _ w.left)
      (ite (maxCallDepth ≤ w.right.callDepth) (failAt paren' .stackOverflow) _ w.right)
    rw [h.callDepth]
    split
    · exact .halted h (.fault rfl hparen)
    · have hbodies := Setting.insideBody_endsAlike h hclosure hparams harguments fun w₁ hw₁ hcall =>
        (lockstep S T hclock).execEach_related (((lockstep S T hclock).machine_related n).2.1)
          ⟨fun hfalse => absurd hfalse Bool.false_ne_true, fun _ => hcall⟩ hbody hw₁
      exact hbodies.bind fun w' flow flow' _ hstep hflow => .pure hstep hflow.result

/-- What two calls from `s` and `s'` have left in `t` and `t'`: the same was written, captured and
new scopes are alike, up to the identities given in between, and what was not captured before is as
it was. The bodies of functions are compared by their tokens and the values of their literals. -/
structure State.SameAfter (s s' t t' : State) : Prop where
  written : ∃ text, t.output.written = s.output.written ++ text ∧
    t'.output.written = s'.output.written ++ text
  size_eq : t'.store.size = t.store.size
  captured_iff : ∀ i, t'.store.Captured i ↔ t.store.Captured i
  scopes : ∀ i scope scope', t.store.Captured i ∨ s.store.size ≤ i →
    t.store.scope? i = some scope → t'.store.scope? i = some scope' →
    scope.Alike (.only anyToken)
      (t.store.linksBy (SameIdentity s.nextIdentity s'.nextIdentity)) scope' ∧
    (s.store.size ≤ i → scope'.released = scope.released)
  hidden : ∀ i, i < s.store.size → ¬ s.store.Captured i → t.store.scope? i = s.store.scope? i
  hidden' : ∀ i, i < s'.store.size → ¬ s'.store.Captured i →
    t'.store.scope? i = s'.store.scope? i

/-- Two calls ended the same: with the same value, up to the identities given in between, or with
the same halt. -/
def State.CallsAlike (s s' : State) :
    EStateM.Result Halt State Value → EStateM.Result Halt State Value → Prop
  | .ok v t, .ok v' t' => s.SameAfter s' t t' ∧
      v.Matches (.only anyToken)
        (t.store.linksBy (SameIdentity s.nextIdentity s'.nextIdentity)) v'
  | .error halt t, .error halt' t' => s.SameAfter s' t t' ∧ halt = halt'
  | _, _ => False

/-- Matching halts at tokens that match themselves only are the same. -/
theorem Halt.Matches.eq {P : Role → Token → Prop} {halt halt' : Halt}
    (h : halt.Matches (.only P) halt') : halt = halt' := by
  cases h with
  | fault _ ht => rw [ht.1]
  | noOperator ht => rw [ht.1]
  | outputClosed => rfl
  | outOfBudget => rfl

theorem State.SeesSame.sameAfter (h : s.SeesSame s') {t t' : State}
    (hlater : (Setting.ofCall s s').Later ⟨s, s'⟩ ⟨t, t'⟩)
    (hstep : (Setting.ofCall s s').InStep (.only anyToken) ⟨t, t'⟩) : s.SameAfter s' t t' := by
  have hunseen : ∀ i, i < s.store.size → ¬ s.store.Captured i →
      ¬ (View.onlyCaptured s.store).Sees i := by
    rintro i hlt hi (hle | hcap)
    · exact absurd hlt (Nat.not_lt.2 hle)
    · exact hi hcap
  have hhidden : ∀ i, i < s.store.size → ¬ s.store.Captured i →
      t.store.scope? i = s.store.scope? i :=
    fun i hlt hi => hlater.beyond i (hunseen i hlt hi)
  have hhidden' : ∀ i, i < s'.store.size → ¬ s'.store.Captured i →
      t'.store.scope? i = s'.store.scope? i := by
    intro i hlt hi
    rw [h.size_eq] at hlt
    exact hlater.beyond' i (hunseen i hlt fun hcap => hi ((h.captured_iff i).2 hcap))
  refine ⟨hstep.written, hstep.stores.size_eq, ?_, ?_, hhidden, hhidden'⟩
  · intro i
    by_cases hsees : (View.onlyCaptured s.store).Sees i
    · constructor
      · rintro ⟨scope', hscope', hcap⟩
        obtain ⟨scope, hscope⟩ := ScopeStore.exists_scope
          (hstep.stores.size_eq ▸ ScopeStore.lt_size hscope')
        have halike := hstep.stores.scopes i scope scope' hsees hscope hscope'
        exact ⟨scope, hscope, halike.captured ▸ hcap⟩
      · rintro ⟨scope, hscope, hcap⟩
        obtain ⟨scope', hscope'⟩ := hstep.stores.exists_right hscope
        have halike := hstep.stores.scopes i scope scope' hsees hscope hscope'
        exact ⟨scope', hscope', halike.captured.trans hcap⟩
    · -- out of sight nothing is captured, before or after
      have hbefore : ¬ s.store.Captured i := fun hcap => hsees (.inr hcap)
      constructor
      · rintro ⟨scope', hscope', hcap⟩
        rw [hlater.beyond' i hsees] at hscope'
        exact absurd ((h.captured_iff i).1 ⟨scope', hscope', hcap⟩) hbefore
      · rintro ⟨scope, hscope, hcap⟩
        rw [hlater.beyond i hsees] at hscope
        exact absurd ⟨scope, hscope, hcap⟩ hbefore
  · intro i scope scope' hi hscope hscope'
    have hsees : (View.onlyCaptured s.store).Sees i := by
      rcases hi with hcap | hle
      · exact hstep.stores.captured i hcap
      · exact .inl hle
    have halike := hstep.stores.scopes i scope scope' hsees hscope hscope'
    have hforget : ∀ j j', (Setting.ofCall s s').identities ⟨t, t'⟩ j j' →
        SameIdentity s.nextIdentity s'.nextIdentity j j' := fun _ _ hj => hj.1
    exact ⟨halike.mono (ScopeStore.linksBy_mono fun _ => id) hforget,
      fun hle => hstep.stores.released i scope scope' hle hscope hscope'⟩

end

/-! ## The theorem -/

/-- **Scoping is lexical.** Let a declared function be called with the same arguments from two
states that arise, and so are reached by the machine (`Arises.reachable`); let them have the captured
scopes in common, hold equally many scopes and run equally many functions, under clocks that tell
the same. Whatever the current scopes, the running loops and the other scopes are, both calls write
the same and end with the same value or the same halt; they leave the captured scopes and those they
added alike; and every scope that was there and not captured is left exactly as it was. -/
theorem call_lexical {host host' : Host} {s s' : State} (hs : Arises host s)
    (hs' : Arises host' s') (hsame : s.SeesSame s')
    (hclock : ∀ k, host.clock (s.clockReads + k) = host'.clock (s'.clockReads + k))
    {i : Nat} {name : Token} {params : List Token} {body : List Stmt} {closure : ScopeId}
    (hclosure : s.store.Captured closure) {arguments : List Value}
    (harguments : ∀ v ∈ arguments, s.Knows v ∧ s'.Knows v) (n : Nat) (paren : Token) :
    s.CallsAlike s' (call host n ⟨i, .script name params body closure⟩ arguments paren s)
      (call host' n ⟨i, .script name params body closure⟩ arguments paren s') := by
  have hstep := hsame.inStep hs.orderly hs'.orderly
  have hbody : List.Forall₂ (Stmt.Matches (.only anyToken) .body) body body :=
    List.forall₂_same.2 fun statement _ => (statement.every_anyToken .body).matches_self
  have hparams : List.Forall₂ ((TokenMatch.only anyToken).Rel .parameter) params params :=
    List.forall₂_same.2 fun t _ => ⟨rfl, trivial⟩
  have hends : (Setting.ofCall s s').EndsAlike (.only anyToken) ⟨s, s'⟩ _
      (call host n ⟨i, .script name params body closure⟩ arguments paren s)
      (call host' n ⟨i, .script name params body closure⟩ arguments paren s') :=
    call_endsAlike hclock hstep n hparams hbody ⟨rfl, hclosure⟩
      (List.forall₂_same.2 fun v hv =>
        Setting.ofCall_matches_self (harguments v hv).1 (harguments v hv).2)
      ⟨rfl, trivial⟩
  revert hends
  generalize call host n ⟨i, .script name params body closure⟩ arguments paren s = r,
    call host' n ⟨i, .script name params body closure⟩ arguments paren s' = r'
  intro hends
  cases hends with
  | ok w hleft hright hlater hstep' hvalue =>
    subst hleft hright
    have hforget : ∀ j j', (Setting.ofCall s s').identities w j j' →
        SameIdentity s.nextIdentity s'.nextIdentity j j' := fun _ _ hj => hj.1
    exact ⟨hsame.sameAfter hlater hstep',
      Value.Matches.mono (ScopeStore.linksBy_mono fun _ => id) hforget hvalue⟩
  | halt w hleft hright hlater hstep' hhalt =>
    subst hleft hright
    exact ⟨hsame.sameAfter hlater hstep', Halt.Matches.eq hhalt⟩

/-- Inside a function of the global scope, whose parameter `x` has some value. -/
def insideCaller (v : Value) : State :=
  { Session.fresh.state with
    store := (Session.fresh.state.store.push ScopeStore.globalId).bindAll
      Session.fresh.state.store.size [⟨.identifier, "x", none, 1, ⟨6, 7⟩⟩] [v]
    current := Session.fresh.state.store.size, loopDepth := 0, callDepth := 1 }

/-- A function of the global scope that gives back `x`, which is not its own. -/
def givesBackOthers : Function :=
  ⟨3, .script ⟨.identifier, "g", none, 2, ⟨20, 21⟩⟩ []
    [.giveBack ⟨.kwReturn, "return", none, 2, ⟨26, 32⟩⟩
      (some (.var ⟨.identifier, "x", none, 2, ⟨33, 34⟩⟩))] ScopeStore.globalId⟩

/-- Called from where `x` is `nil`, and from a loop where it is `true`, it finds no `x`. -/
theorem call_lexical_givesBackOthers :
    let s := insideCaller .nil
    let s' := { insideCaller (.bool true) with loopDepth := 1 }
    let paren : Token := ⟨.rightParen, ")", none, 3, ⟨40, 41⟩⟩
    Arises idleHost s ∧ Arises idleHost s' ∧ s.SeesSame s' ∧
      s.store.Captured ScopeStore.globalId ∧
      call idleHost 4 givesBackOthers [] paren s =
        .error (.fault ⟨.undefinedVariable "x", ⟨.identifier, "x", none, 2, ⟨33, 34⟩⟩⟩) s ∧
      s.CallsAlike s' (call idleHost 4 givesBackOthers [] paren s)
        (call idleHost 4 givesBackOthers [] paren s') := by
  intro s s' paren
  have hglobal : Session.fresh.state.store.Captured ScopeStore.globalId := ⟨_, rfl, rfl⟩
  have harises : ∀ v : Value, Session.fresh.state.Knows v → Arises idleHost (insideCaller v) :=
    fun v hv => .inBody .start hglobal _ (fun _ hu => List.mem_singleton.1 hu ▸ hv) (by decide)
  have hs : Arises idleHost s := harises _ .nil
  have hs' : Arises idleHost s' := .inLoop (harises _ (.bool true))
  have hcaptured : ∀ v i, (insideCaller v).store.Captured i ↔
      Session.fresh.state.store.Captured i :=
    fun v i => ScopeStore.captured_bind_iff.trans ScopeStore.captured_push_iff
  have hsame : s.SeesSame s' := by
    refine ⟨rfl, fun i => (hcaptured _ i).trans (hcaptured _ i).symm, ?_, rfl, rfl⟩
    intro i scope scope' hi hscope hscope'
    -- the global scope is the only one captured, and no caller binds anything there
    obtain rfl : i = 0 := Nat.lt_one_iff.1 ((hcaptured _ i).1 hi).lt_size
    obtain rfl : scope = scope' := Option.some.inj (hscope.symm.trans hscope')
    exact ⟨fun _ => rfl, rfl⟩
  have hclosure : s.store.Captured ScopeStore.globalId := (hcaptured _ _).2 hglobal
  have hfails : call idleHost 4 givesBackOthers [] paren s =
      .error (.fault ⟨.undefinedVariable "x", ⟨.identifier, "x", none, 2, ⟨33, 34⟩⟩⟩) s := by
    show call idleHost 4 givesBackOthers [] _ (insideCaller .nil) = .error _ (insideCaller .nil)
    cbv
  exact ⟨hs, hs', hsame, hclosure, hfails, call_lexical hs hs' hsame (fun _ => rfl) hclosure
    (fun _ hv => absurd hv List.not_mem_nil) 4 paren⟩

end GradedScript
