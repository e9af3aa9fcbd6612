import GradedScript.Proofs.Machine.CallDepth

/-!
# Runs of tests

`runTests` is given any values. `Reports` says how they are handled, one after the other: what is
written about each, and where the first halt is. A test case is a call of what its name is bound to
when its turn comes, so what the cases before have changed counts. `TestCall` compares that call
with the call expression in the global scope; the two are the same since a call does not depend on
the scope it is made from (`unplaced_call`). A run is a report with a summary
(`runTests_accounts`).
-/

namespace GradedScript

open Exec

/-! ## What is written stays

That output is only added to is a congruence, so it holds of all calls at once. -/

/-- The output with more written. -/
def Output.Continues (o o' : Output) : Prop :=
  ∃ text, o'.written = o.written ++ text

theorem Output.Continues.refl (o : Output) : o.Continues o :=
  ⟨.empty, ByteArray.append_empty.symm⟩

theorem Output.Continues.trans {o o' o'' : Output} (h : o.Continues o') (h' : o'.Continues o'') :
    o.Continues o'' := by
  obtain ⟨text, htext⟩ := h
  obtain ⟨more, hmore⟩ := h'
  exact ⟨text ++ more, by rw [hmore, htext, ByteArray.append_assoc]⟩

theorem Output.write_continues (o : Output) (bytes : ByteArray) :
    o.Continues (o.write bytes).1 := by
  unfold Output.write
  split
  · exact ⟨bytes, rfl⟩
  · dsimp only
    split
    · exact ⟨bytes, rfl⟩
    · exact ⟨_, rfl⟩

theorem writeLine_continues (text : String) (s : State) :
    s.output.Continues (stateAfter (writeLine text s)).output := by
  have hwrite := s.output.write_continues (text ++ "\n").toUTF8
  unfold writeLine
  split
  · rename_i houtput
    rwa [houtput] at hwrite
  · rename_i houtput
    rwa [houtput] at hwrite

/-- Steps that come back to where they began and do not take back what was written. -/
def growing : Congruence where
  Rel k x _ := ∀ s, s.callDepth = k →
    s.Returns (stateAfter (x s)) ∧ s.output.Continues (stateAfter (x s)).output
  quiet h s _ := ⟨h.returns s, by rw [h.blind.output_eq]; exact .refl _⟩
  write text s _ := ⟨returns_writeLine text s, writeLine_continues text s⟩
  bind {α β k x y f g} hx hf s hk := by
    obtain ⟨hreturns, hgrows⟩ := hx s hk
    have hnext : ∀ a s', x s = .ok a s' →
        s'.Returns (stateAfter (f a s')) ∧ s'.output.Continues (stateAfter (f a s')).output := by
      intro a s' hok
      rw [hok] at hreturns
      exact hf a s' (hreturns.callDepth.trans hk)
    refine ⟨returns_bind hreturns fun a s' hok => (hnext a s' hok).1, ?_⟩
    show s.output.Continues (stateAfter (EStateM.bind x f s)).output
    unfold EStateM.bind
    cases hok : x s with
    | ok a s' =>
      rw [hok] at hgrows
      exact hgrows.trans (hnext a s' hok).2
    | error halt s' =>
      rw [hok] at hgrows
      exact hgrows
  look h s hk := by
    subst hk
    exact h s.loopDepth s rfl
  inside {α k k' x y} p hp h s hk := by
    obtain ⟨hreturns, hgrows⟩ := h (p.enter s) (hp s hk)
    refine ⟨p.returns_step hreturns, ?_⟩
    obtain ⟨s₂, hs₂, -⟩ := p.leadsBack s _ hreturns
    unfold Passage.step
    rw [thenLeave_eq hs₂, stateAfter_inState, p.output_leave hs₂, ← p.output_enter s]
    exact hgrows

/-- A call does not take back what was written, whatever function it is and however it ends. -/
theorem call_growing (host : Host) (n k : Nat) :
    growing.CallRelated k (call host n) (call host n) :=
  (growing.machine_related growing.respects_standard host n k).2.2

/-! ## Calls do not depend on the current scope

A test case is called from wherever `runTests` is, while the call expression it stands for is in the
global scope. Since a call goes on in the scope of the function, this makes no difference. -/

/-- The state with another scope as the current one. -/
def State.at (s : State) (scope : ScopeId) : State :=
  { s with current := scope }

namespace Exec

variable {α β : Type}

/-- A step that does the same in every scope, and stays there. -/
def Unplaced (x : Exec α) : Prop :=
  ∀ (s : State) scope, x (s.at scope) = inState (·.at scope) (x s)

theorem Unplaced.bind {x : Exec α} {f : α → Exec β} (hx : Unplaced x) (hf : ∀ a, Unplaced (f a)) :
    Unplaced (x >>= f) := by
  intro s scope
  show EStateM.bind x f (s.at scope) = inState _ (EStateM.bind x f s)
  simp only [EStateM.bind, hx s scope]
  cases x s with
  | ok a s' => exact hf a s' scope
  | error halt s' => rfl

theorem unplaced_pure (a : α) : Unplaced (pure a : Exec α) :=
  fun _ _ => rfl

theorem unplaced_failAt (token : Token) (fault : RuntimeFault) :
    Unplaced (failAt token fault : Exec α) :=
  fun _ _ => rfl

theorem unplaced_writeLine (text : String) : Unplaced (writeLine text) := by
  intro s scope
  unfold writeLine State.at
  dsimp only
  split <;> rfl

theorem unplaced_global? (name : String) : Unplaced (global? name) :=
  fun _ _ => rfl

theorem unplaced_leaveCall (loopDepth : Nat) : Unplaced (leaveCall loopDepth) := by
  intro s scope
  unfold leaveCall State.at
  dsimp only
  split <;> rfl

/-- Leaving to another scope is leaving and then going there. -/
theorem thenLeave_at {x : Exec α} {leave leave' : Exec Unit} {scope : ScopeId}
    (h : ∀ s, leave' s = inState (·.at scope) (leave s)) (s : State) :
    thenLeave x leave' s = inState (·.at scope) (thenLeave x leave s) := by
  unfold thenLeave
  cases x s with
  | ok a s₁ =>
    simp only [h s₁]
    cases leave s₁ <;> rfl
  | error halt s₁ =>
    simp only [h s₁]
    cases leave s₁ <;> rfl

/-- A function body runs in a scope of its own, inside its closure. -/
theorem unplaced_insideBody (closure : ScopeId) (params : List Token) (arguments : List Value)
    (x : Exec Flow) : Unplaced (insideBody .standard closure params arguments x) := by
  intro s scope
  have hleave : ∀ previous scope s, ∃ s', Rules.standard.leaveScope previous scope s = .ok () s' :=
    fun _ _ _ => ⟨_, rfl⟩
  rw [insideBody_apply hleave, insideBody_apply hleave]
  exact thenLeave_at (fun s₁ => unplaced_leaveCall s.loopDepth
    { s₁ with current := s.current, store := s₁.store.release s.store.size } scope) _

section

variable {call : Caller} {paren : Token}

/-- A way to call that does the same in every scope. -/
def CallsUnplaced (call : Caller) : Prop :=
  ∀ f arguments paren, Unplaced (call f arguments paren)

theorem unplaced_perform (hcall : CallsUnplaced call) (action : HostAction) :
    Unplaced (perform call paren action) := by
  induction action with
  | yield value => exact unplaced_pure value
  | raise message => exact unplaced_failAt _ _
  | write line next ih => exact (unplaced_writeLine line).bind fun _ => ih
  | readGlobal name next ih => exact (unplaced_global? name).bind ih
  | call f arguments next ih => exact (hcall f arguments paren).bind ih

theorem unplaced_callByName (hcall : CallsUnplaced call) (name : String) (arguments : List Value) :
    Unplaced (callByName call paren name arguments) := by
  refine (unplaced_global? name).bind fun found => ?_
  split
  · split
    · split
      · exact hcall _ _ _
      · exact unplaced_failAt _ _
    · exact hcall _ _ _
  · exact unplaced_failAt _ _

theorem unplaced_runEach (hcall : CallsUnplaced call) (cases : List Value) (passed total : Nat) :
    Unplaced (runEach call paren cases passed total) := by
  induction cases generalizing passed total with
  | nil => exact unplaced_pure _
  | cons v cases ih =>
    cases v with
    | testCase i name arguments expected =>
      refine (unplaced_callByName hcall name arguments).bind fun result => ?_
      split
      · exact (unplaced_writeLine _).bind fun _ => ih _ _
      · exact (unplaced_writeLine _).bind fun _ => ih _ _
    | _ => exact (unplaced_writeLine _).bind fun _ => ih _ _

theorem unplaced_makeTestCase (arguments : List Value) :
    Unplaced (makeTestCase paren arguments) := by
  unfold makeTestCase
  split
  · split
    · exact Unplaced.bind (fun _ _ => rfl) fun _ => unplaced_pure _
    · exact unplaced_failAt _ _
  · exact unplaced_failAt _ _

theorem unplaced_readClock (host : Host) : Unplaced (readClock host paren) := by
  refine Unplaced.bind (x := countReading) (fun _ _ => rfl) fun reads => ?_
  dsimp only
  split
  · exact unplaced_failAt _ _
  · exact unplaced_pure _

theorem unplaced_callNative (host : Host) (hcall : CallsUnplaced call) (native : Native)
    (arguments : List Value) : Unplaced (callNative host call paren native arguments) := by
  cases native with
  | clock => exact unplaced_readClock host
  | testCase => exact unplaced_makeTestCase arguments
  | runTests =>
    refine (unplaced_runEach hcall arguments 0 0).bind fun counts => ?_
    exact (unplaced_writeLine _).bind fun _ => (unplaced_writeLine _).bind fun _ => unplaced_pure _
  | host key => exact unplaced_perform hcall _

end

/-- **Calls do not depend on the current scope** and keep it, in every state. -/
theorem unplaced_call (host : Host) (n : Nat) : CallsUnplaced (call host n) := by
  induction n with
  | zero => exact fun _ _ _ _ _ => rfl
  | succ n ih =>
    rintro ⟨i, _ | _⟩ arguments paren
    case script name params body closure =>
      intro s scope
      have hbody := (unplaced_insideBody closure params arguments
        (execEach (Exec.exec host n) body)).bind fun flow => unplaced_pure flow.result
      show ite (maxCallDepth ≤ s.callDepth) (failAt paren .stackOverflow) _ (s.at scope) =
        inState _ (ite (maxCallDepth ≤ s.callDepth) (failAt paren .stackOverflow) _ s)
      split
      · rfl
      · exact hbody s scope
    case native name arity native => exact unplaced_callNative host ih native arguments

/-! ## Calls from the global scope -/

/-- Takes a step from the global scope, and comes back to the current one. -/
def fromGlobal (x : Exec α) : Exec α := fun s =>
  inState (·.at s.current) (x (s.at ScopeStore.globalId))

theorem fromGlobal_of_unplaced {x : Exec α} (h : Unplaced x) (s : State) :
    fromGlobal x s = x s := by
  have hstays : x s = inState (·.at s.current) (x s) := h s s.current
  rw [fromGlobal, h, hstays]
  cases x s <;> rfl

/-- Evaluates a call expression whose callee is a name, once its arguments are evaluated. -/
def evalCall (call : Caller) (name : Token) (arguments : List Value) (paren : Token) :
    Exec Value := do
  let f ← readName name
  callValue call f arguments paren

/-- Arguments that are evaluated without a change can as well be given. -/
theorem eval_call_eq {host : Host} {n : Nat} {name paren : Token} {es : List Expr}
    {arguments : List Value} {s : State}
    (h : evalEach (eval host (n + 1)) es s = .ok arguments s) :
    eval host (n + 2) (.call (.var name) paren es) s =
      evalCall (call host (n + 1)) name arguments paren s := by
  show EStateM.bind (readName name)
    (fun f => EStateM.bind (evalEach (eval host (n + 1)) es)
      fun xs => callValue (call host (n + 1)) f xs paren) s =
    EStateM.bind (readName name) (fun f => callValue (call host (n + 1)) f arguments paren) s
  have hsame : ∀ f s', readName name s = .ok f s' → s' = s := by
    intro f s' hread
    unfold readName at hread
    split at hread <;> cases hread
    rfl
  cases hread : readName name s with
  | ok f s' =>
    obtain rfl := hsame f s' hread
    simp only [EStateM.bind, hread, h]
  | error halt s' => simp only [EStateM.bind, hread]

end Exec

theorem ScopeStore.get_of_getLocal? {store : ScopeStore} {i : ScopeId} {name : String} {v : Value}
    (h : store.getLocal? i name = some v) : store.get i name = .ok v := by
  obtain ⟨scope, hscope, hfind⟩ := Option.bind_eq_some_iff.1 h
  rw [get, resolve, hscope]
  dsimp only
  rw [hfind]
  rfl

/-- How the call of a test case ends: as the call expression does in the global scope, if its name
is bound there to a function that takes as many arguments. -/
inductive TestCall (call : Caller) (paren : Token) (name : String) (given : List Value)
    (s : State) : EStateM.Result Halt State Value → Prop
  | called {f r} (hbound : s.store.getLocal? ScopeStore.globalId name = some (.function f))
      (haccepts : f.arity.accepts given.length)
      (heval : ∀ token : Token, token.lexeme = name →
        r = fromGlobal (evalCall call token given paren) s) :
      TestCall call paren name given s r
  | wrongCount {f count}
      (hbound : s.store.getLocal? ScopeStore.globalId name = some (.function f))
      (harity : f.arity = .fixed count) (hcount : count ≠ given.length) :
      TestCall call paren name given s
        (.error (.fault ⟨.testArgumentCount name count given.length, paren⟩) s)
  | notFunction (hbound : ∀ f, s.store.getLocal? ScopeStore.globalId name ≠ some (.function f)) :
      TestCall call paren name given s (.error (.fault ⟨.testNotFunction name, paren⟩) s)

section

variable {call : Caller} {paren : Token}

/-- A function that takes the arguments is called by its name as by an expression. -/
theorem evalCall_eq {name : Token} {given : List Value} {f : Function} {s : State}
    (hbound : s.store.get s.current name.lexeme = .ok (.function f))
    (haccepts : f.arity.accepts given.length) :
    evalCall call name given paren s = call f given paren s := by
  have hread : readName name s = .ok (.function f) s := by
    rw [readName, hbound]
  show EStateM.bind (readName name) _ s = _
  simp only [EStateM.bind, hread, callValue]
  cases harity : f.arity with
  | fixed count =>
    rw [harity] at haccepts
    exact congrFun (if_pos (beq_iff_eq.1 haccepts)) s
  | variadic => rfl

/-- Test cases call as the language does. -/
theorem callByName_testCall (hcall : CallsUnplaced call) (name : String) (given : List Value)
    (s : State) : TestCall call paren name given s (callByName call paren name given s) := by
  -- a call from the current scope is one from the global scope
  have hcalled : ∀ f : Function,
      s.store.getLocal? ScopeStore.globalId name = some (.function f) →
      f.arity.accepts given.length →
      TestCall call paren name given s (call f given paren s) := by
    intro f hbound haccepts
    refine .called hbound haccepts ?_
    rintro token rfl
    have hglobal : evalCall call token given paren (s.at ScopeStore.globalId) =
        call f given paren (s.at ScopeStore.globalId) :=
      evalCall_eq (ScopeStore.get_of_getLocal? hbound) haccepts
    rw [fromGlobal, hglobal]
    exact (fromGlobal_of_unplaced (hcall f given paren) s).symm
  unfold callByName
  show TestCall call paren name given s (EStateM.bind (global? name) _ s)
  simp only [EStateM.bind, global?]
  cases hbound : s.store.getLocal? ScopeStore.globalId name with
  | none => exact .notFunction (by simp [hbound])
  | some v =>
    cases v with
    | function f =>
      dsimp only
      cases harity : f.arity with
      | fixed count =>
        by_cases hcount : count = given.length
        · simp only [if_pos hcount]
          exact hcalled f hbound (by rw [harity, Arity.accepts, hcount, beq_self_eq_true])
        · simp only [if_neg hcount]
          exact .wrongCount hbound harity hcount
      | variadic => exact hcalled f hbound (by rw [harity]; rfl)
    | _ => exact .notFunction (by simp [hbound])

/-! ## Arguments in order

`Reports` is an account of the arguments that does not mention the counts kept by the loop. -/

/-- What is said about an argument: that it is a test case that passed or failed, or none. -/
inductive Mark where
  | passed
  | failed
  | warned
deriving DecidableEq

/-- Whether a value is a test case. -/
def Value.isTestCase : Value → Bool
  | .testCase .. => true
  | _ => false

/-- Says something about an argument, if the line can be written. -/
def Exec.mark (mark : Mark) (line : String) : Exec Mark := do
  writeLine line
  return mark

/-- How an argument is handled: the call of a test case, with all that it writes, and then one line;
or just a line. -/
inductive Handles (call : Caller) (paren : Token) :
    Value → State → EStateM.Result Halt State Mark → Prop
  | passed {identity name given expected result s s'}
      (hcall : TestCall call paren name given s (.ok result s'))
      (hequal : result.equals expected = true) :
      Handles call paren (.testCase identity name given expected) s
        (mark .passed ("[PASS] " ++ callText name given ++ " == " ++ expected.text) s')
  | failed {identity name given expected result s s'}
      (hcall : TestCall call paren name given s (.ok result s'))
      (hequal : result.equals expected = false) :
      Handles call paren (.testCase identity name given expected) s
        (mark .failed ("[FAIL] " ++ callText name given ++ " expected: " ++ expected.text ++
          ", got: " ++ result.text) s')
  | halted {identity name given expected halt s s'}
      (hcall : TestCall call paren name given s (.error halt s')) :
      Handles call paren (.testCase identity name given expected) s (.error halt s')
  | warned {v s} (hother : v.isTestCase = false) :
      Handles call paren v s
        (mark .warned ("[WARN] runTests: argument is not a TestCase: " ++ v.text) s)

/-- How arguments are handled: one after the other, up to the first that cannot be. What was written
stays. -/
inductive Reports (call : Caller) (paren : Token) :
    List Value → State → List Mark → EStateM.Result Halt State Unit → Prop
  | nil {s} : Reports call paren [] s [] (.ok () s)
  | next {v vs s s' mark marks r} (hfirst : Handles call paren v s (.ok mark s'))
      (hkept : s.output.Continues s'.output) (hrest : Reports call paren vs s' marks r) :
      Reports call paren (v :: vs) s (mark :: marks) r
  | stop {v vs s s' halt} (hfirst : Handles call paren v s (.error halt s'))
      (hkept : s.output.Continues s'.output) :
      Reports call paren (v :: vs) s [] (.error halt s')

/-- Handles an argument. -/
def Exec.handle (call : Caller) (paren : Token) : Value → Exec Mark
  | .testCase _ name given expected => do
    let result ← callByName call paren name given
    if result.equals expected then
      mark .passed ("[PASS] " ++ callText name given ++ " == " ++ expected.text)
    else
      mark .failed ("[FAIL] " ++ callText name given ++ " expected: " ++ expected.text ++
        ", got: " ++ result.text)
  | v => mark .warned ("[WARN] runTests: argument is not a TestCase: " ++ v.text)

/-- The first argument is handled and counted, then the others are. -/
theorem runEach_cons (v : Value) (vs : List Value) (passed total : Nat) :
    runEach call paren (v :: vs) passed total = (do
      let mark ← handle call paren v
      runEach call paren vs (passed + [mark].count .passed)
        (total + [v].countP Value.isTestCase)) := by
  cases v with
  | testCase identity name given expected =>
    simp only [runEach, handle, bind_assoc]
    refine bind_congr fun result => ?_
    split
    · simp [mark, Value.isTestCase]
    · simp [mark, Value.isTestCase]
  | _ => simp [runEach, handle, mark, Value.isTestCase]

theorem handle_handles (hcall : CallsUnplaced call) (v : Value) (s : State) :
    Handles call paren v s (handle call paren v s) := by
  cases v with
  | testCase identity name given expected =>
    have hends : TestCall call paren name given s (callByName call paren name given s) :=
      callByName_testCall hcall name given s
    show Handles call paren _ s (EStateM.bind (callByName call paren name given) _ s)
    unfold EStateM.bind
    cases hres : callByName call paren name given s with
    | ok result s' =>
      rw [hres] at hends
      dsimp only
      cases hequal : result.equals expected with
      | true => exact .passed hends hequal
      | false => exact .failed hends hequal
    | error halt s' =>
      rw [hres] at hends
      exact .halted hends
  | _ => exact .warned rfl

/-- Handling an argument does not take back what was written. -/
theorem handle_growing {k : Nat} (hcall : growing.CallRelated k call call) (v : Value) :
    growing.Rel k (handle call paren v) (handle call paren v) := by
  have hmark : ∀ m line, growing.Rel k (mark m line) (mark m line) :=
    fun m line => growing.bind (growing.write line) fun _ => growing.pure m
  cases v with
  | testCase identity name given expected =>
    refine growing.bind (growing.callByName_related hcall name given) fun result => ?_
    split
    · exact hmark _ _
    · exact hmark _ _
  | _ => exact hmark _ _

end

/-! ## Whole runs -/

section

variable {call : Caller} {paren : Token} {vs : List Value} {s : State} {marks : List Mark}
  {r : EStateM.Result Halt State Unit}

/-- What passes is a test case. -/
theorem Handles.isTestCase {v : Value} {m : Mark} {s' : State}
    (h : Handles call paren v s (.ok m s')) (hm : m = .passed) : v.isTestCase = true := by
  have hmark : ∀ {m m' : Mark} {line : String} {s s' : State},
      .ok m s' = Exec.mark m' line s → m = m' := by
    intro m m' line s s' h
    have h : .ok m s' = EStateM.bind (writeLine line) (fun _ => Pure.pure m') s := h
    unfold EStateM.bind at h
    split at h <;> cases h
    rfl
  generalize hr : EStateM.Result.ok m s' = r at h
  cases h with
  | passed hcall hequal => rfl
  | failed hcall hequal => rfl
  | halted hcall => rfl
  | warned hother => cases (hmark hr).symm.trans hm

/-- At most the test cases pass. -/
theorem Reports.count_passed_le (h : Reports call paren vs s marks r) :
    marks.count .passed ≤ vs.countP Value.isTestCase := by
  induction h with
  | nil => exact Nat.le_refl 0
  | @next v vs s s' mark marks r hfirst hkept hrest ih =>
    have hpassed : mark = .passed → v.isTestCase = true := hfirst.isTestCase
    grind
  | stop hfirst hkept => exact Nat.zero_le _

/-- If all arguments are handled, something is said about each. -/
theorem Reports.length_eq (h : Reports call paren vs s marks r) {s' : State} (hr : r = .ok () s') :
    marks.length = vs.length := by
  induction h with
  | nil => rfl
  | next hfirst hkept hrest ih => exact congrArg (· + 1) (ih hr)
  | stop hfirst hkept => cases hr

theorem Reports.continues (h : Reports call paren vs s marks r) :
    s.output.Continues (stateAfter r).output := by
  induction h with
  | nil => exact .refl _
  | next hfirst hkept hrest ih => exact hkept.trans ih
  | stop hfirst hkept => exact hkept

end

/-- Counts, if all arguments were handled. -/
def tallied (passed total : Nat) :
    EStateM.Result Halt State Unit → EStateM.Result Halt State (Nat × Nat)
  | .ok _ s => .ok (passed, total) s
  | .error halt s => .error halt s

theorem runEach_reports (host : Host) (n : Nat) (paren : Token) (vs : List Value)
    (passed total : Nat) (s : State) :
    ∃ marks r, Reports (call host n) paren vs s marks r ∧
      runEach (call host n) paren vs passed total s =
        tallied (passed + marks.count .passed) (total + vs.countP Value.isTestCase) r := by
  induction vs generalizing passed total s with
  | nil => exact ⟨[], .ok () s, .nil, rfl⟩
  | cons v vs ih =>
    have hhandles : Handles (call host n) paren v s (handle (call host n) paren v s) :=
      handle_handles (unplaced_call host n) v s
    have hkept : s.output.Continues (stateAfter (handle (call host n) paren v s)).output :=
      (handle_growing (call_growing host n s.callDepth) v s rfl).2
    rw [runEach_cons]
    show ∃ marks r, _ ∧ EStateM.bind _ _ s = _
    unfold EStateM.bind
    cases hres : handle (call host n) paren v s with
    | ok mark s' =>
      rw [hres] at hhandles hkept
      obtain ⟨marks, r, hreports, hrun⟩ := ih (passed + [mark].count .passed)
        (total + [v].countP Value.isTestCase) s'
      have hmarks : ([mark] ++ marks).count .passed = [mark].count .passed + marks.count .passed :=
        List.count_append
      have hcases : ([v] ++ vs).countP Value.isTestCase =
          [v].countP Value.isTestCase + vs.countP Value.isTestCase :=
        List.countP_append
      refine ⟨mark :: marks, r, .next hhandles hkept hreports, ?_⟩
      rw [Nat.add_assoc, Nat.add_assoc, ← hmarks, ← hcases] at hrun
      exact hrun
    | error halt s' =>
      rw [hres] at hhandles hkept
      exact ⟨[], .error halt s', .stop hhandles hkept, rfl⟩

/-- The end of a run of tests: a summary, and the share that passed. -/
def Exec.conclude (passed total : Nat) : Exec Value := do
  writeLine "--- TEST SUMMARY ---"
  writeLine ("Passed " ++ toString passed ++ " / " ++ toString total)
  return .number (if total = 0 then 0 else passed.toFloat / total.toFloat)

/-- How a run of tests ends: with the summary after all arguments, or with the first halt. -/
inductive TestRun (call : Caller) (paren : Token) (arguments : List Value) (s : State) :
    EStateM.Result Halt State Value → Prop
  | finished {marks s'} (h : Reports call paren arguments s marks (.ok () s')) :
      TestRun call paren arguments s
        (conclude (marks.count .passed) (arguments.countP Value.isTestCase) s')
  | halted {marks halt s'} (h : Reports call paren arguments s marks (.error halt s')) :
      TestRun call paren arguments s (.error halt s')

theorem runTests_testRun (host : Host) (n : Nat) (paren : Token) (arguments : List Value)
    (s : State) :
    TestRun (call host n) paren arguments s (runTests (call host n) paren arguments s) := by
  obtain ⟨marks, r, hreports, hrun⟩ := runEach_reports host n paren arguments 0 0 s
  rw [Nat.zero_add, Nat.zero_add] at hrun
  show TestRun _ _ _ _ (EStateM.bind (runEach (call host n) paren arguments 0 0) _ s)
  unfold EStateM.bind
  rw [hrun]
  cases r with
  | ok u s' => exact .finished hreports
  | error halt s' => exact .halted hreports

/-- **Runs of tests account for every argument and call as the language does.** In any state the
arguments are handled in order. A test case is a call from the global scope of what its name is
bound to then, and one line that says whether it passed; any other argument is one line. After the
last argument comes the summary, and the value is the share of test cases that passed. The first
halt ends the run without a summary, with all that was written before.

A call from the global scope is what a call expression does there, once its arguments are
evaluated. -/
theorem runTests_accounts (host : Host) (n identity : Nat) (shown : String) (arity : Arity)
    (arguments : List Value) (paren : Token) (s : State) :
    TestRun (call host n) paren arguments s
      (call host (n + 1) ⟨identity, .native shown arity .runTests⟩ arguments paren s) ∧
    (∀ marks r, Reports (call host n) paren arguments s marks r →
      marks.count .passed ≤ arguments.countP Value.isTestCase ∧
      s.output.Continues (stateAfter r).output ∧
      ∀ s', r = .ok () s' → marks.length = arguments.length) ∧
    ∀ (m : Nat) (name : Token) (es : List Expr) (given : List Value) (g : State),
      evalEach (eval host (m + 1)) es g = .ok given g →
      eval host (m + 2) (.call (.var name) paren es) g =
        evalCall (call host (m + 1)) name given paren g :=
  ⟨runTests_testRun host n paren arguments s,
    fun _ _ h => ⟨h.count_passed_le, h.continues, fun _ => h.length_eq⟩,
    fun _ _ _ _ _ => eval_call_eq⟩

/-- A function that gives its name to another one when it is called. -/
def rebindsItself : String :=
  "fun f(x) { fun g() { return x; } f = g; return x; }" ++
    "runTests(TestCase(\"f\", nil, nil), TestCase(\"f\", true), f);"

example : (Session.fresh.run idleHost 20 none rebindsItself).written =
    ("[PASS] f(nil) == nil\n[FAIL] f() expected: true, got: nil\n" ++
      "[WARN] runTests: argument is not a TestCase: <fn f>\n" ++
      "--- TEST SUMMARY ---\nPassed 1 / 2\n").toUTF8 := by
  decide +kernel

end GradedScript
