import GradedScript.Proofs.Machine.Congruence
import GradedScript.Proofs.Machine.Splitting

/-!
# Counting calls

The machine keeps in its state how many declared functions are running. The counted machine is told
so by its surroundings instead: whoever runs the body of a declared function says that one more is
active there, and everything else hands the number on. It compares the two numbers at the beginning
and at the end of every expression, statement and call, and gets stuck where they differ or are too
large; and it lets a call overflow by the number it was told. It never makes a difference
(`Session.runCounted_eq`).
-/

namespace GradedScript

namespace Exec

/-! ## The counted machine -/

/-- Gets stuck unless the state counts as many functions as are active, and no more than may be. -/
def checkActive (active : Nat) : Exec Unit := fun s =>
  if s.callDepth = active ∧ active ≤ maxCallDepth then .ok () s
  else .error (.stuck .depthUnderflow) s

/-- Checks the count before a step and after it, however it ended. -/
def counting {α : Type} (active : Nat) (step : Exec α) : Exec α := do
  checkActive active
  thenLeave step (checkActive active)

/-- Calls a function, when some are active. Only a declared function can overflow, and `exec`
executes its body with one more active. -/
def callActive (host : Host) (active : Nat) (exec : Stmt → Exec Flow) (call : Caller) : Caller :=
  fun function arguments paren =>
    match function.callable with
    | .script _ params body closure => do
      if active = maxCallDepth then
        failAt paren .stackOverflow
      else
        let flow ← insideBody .standard closure params arguments (execEach exec body)
        return flow.result
    | .native _ _ native => callNative host call paren native arguments

mutual

/-- Evaluates an expression, when some functions are active. -/
def evalCounted (host : Host) : (budget active : Nat) → Expr → Exec Value
  | 0, _, _, s => .error .outOfBudget s
  | n + 1, active, e, s =>
    counting active (evalNode .standard (evalCounted host n active) (callCounted host n active) e) s

/-- Executes a statement, when some functions are active. -/
def execCounted (host : Host) : (budget active : Nat) → Stmt → Exec Flow
  | 0, _, _, s => .error .outOfBudget s
  | n + 1, active, statement, s =>
    counting active
      (execNode .standard (evalCounted host n active) (execCounted host n active) n statement) s

/-- Calls a function, when some are active. -/
def callCounted (host : Host) : (budget active : Nat) → Caller
  | 0, _, _, _, _, s => .error .outOfBudget s
  | n + 1, active, function, arguments, paren, s =>
    counting active
      (callActive host active (execCounted host n (active + 1)) (callCounted host n active)
        function arguments paren) s

end

/-- Executes the statements of a program, outside of all functions. -/
def execProgramCounted (host : Host) (budget : Nat) : List Stmt → Exec Unit
  | [] => return
  | statement :: statements => do
    let _ ← execCounted host budget 0 statement
    execProgramCounted host budget statements

end Exec

open Exec

/-- Runs a source text on the counted machine. -/
def Session.runCounted (session : Session) (host : Host) (budget : Nat) (limit : Option Nat)
    (source : String) : Run :=
  let program := Program.ofSource source
  if program.errors.isEmpty then
    .ofResult (execProgramCounted host budget program.statements
      { session.state with output := { limit } })
  else
    ⟨session, .empty, .rejected program.errors⟩

/-! ## Counting makes no difference -/

theorem returns_writeLine (text : String) (s : State) :
    s.Returns (stateAfter (writeLine text s)) := by
  unfold writeLine
  split <;> exact ⟨rfl, rfl, rfl⟩

/-- Steps that are the same at a depth, and come back to where they began. -/
def sameAtDepth : Congruence where
  Rel k x y := ∀ s, s.callDepth = k → x s = y s ∧ s.Returns (stateAfter (y s))
  quiet h s _ := ⟨rfl, h.returns s⟩
  write text s _ := ⟨rfl, returns_writeLine text s⟩
  bind {α β k x y f g} hx hf s hk := by
    obtain ⟨hsame, hreturns⟩ := hx s hk
    have hnext : ∀ a s', y s = .ok a s' → f a s' = g a s' ∧ s'.Returns (stateAfter (g a s')) := by
      intro a s' hok
      rw [hok] at hreturns
      exact hf a s' (hreturns.callDepth.trans hk)
    refine ⟨?_, returns_bind hreturns fun a s' hok => (hnext a s' hok).2⟩
    show EStateM.bind x f s = EStateM.bind y g s
    unfold EStateM.bind
    rw [hsame]
    cases hok : y s with
    | ok a s' => exact (hnext a s' hok).1
    | error halt s' => rfl
  look h s hk := by
    subst hk
    exact h s.loopDepth s rfl
  inside {α k k' x y} p hp h s hk := by
    obtain ⟨hsame, hreturns⟩ := h (p.enter s) (hp s hk)
    refine ⟨?_, p.returns_step hreturns⟩
    unfold Passage.step thenLeave
    rw [hsame]

/-- Checking makes no difference to a step that is right about the count. -/
theorem counting_same {α : Type} {k : Nat} (hk : k ≤ maxCallDepth) {x y : Exec α}
    (h : sameAtDepth.Rel k x y) : sameAtDepth.Rel k (counting k x) y := by
  intro s hs
  obtain ⟨hsame, hreturns⟩ := h s hs
  refine ⟨?_, hreturns⟩
  have hcheck : ∀ s' : State, s'.callDepth = k → checkActive k s' = .ok () s' :=
    fun s' hs' => if_pos ⟨hs', hk⟩
  have hleave := hcheck (stateAfter (x s)) (by rw [hsame]; exact hreturns.callDepth.trans hs)
  show EStateM.bind (checkActive k) _ s = _
  simp only [EStateM.bind, hcheck s hs]
  rw [thenLeave_eq hleave, ← hsame]
  cases x s <;> rfl

section

variable (rules : Rules) (exec : Stmt → Exec Flow) (params : List Token) (body : List Stmt)
variable (closure : ScopeId) (arguments : List Value) (paren : Token) {s : State}

/-- A call overflows when as many functions are running as may be. -/
theorem callScript_of_full (h : maxCallDepth ≤ s.callDepth) :
    callScript rules exec params body closure arguments paren s =
      .error (.fault ⟨.stackOverflow, paren⟩) s := by
  show (if maxCallDepth ≤ s.callDepth then failAt paren .stackOverflow else _ : Exec Value) s = _
  rw [if_pos h]
  rfl

/-- Otherwise the body of the function is run. -/
theorem callScript_of_room (h : s.callDepth < maxCallDepth) :
    callScript rules exec params body closure arguments paren s =
      (do
        let flow ← insideBody rules closure params arguments (execEach exec body)
        return flow.result : Exec Value) s := by
  show (if maxCallDepth ≤ s.callDepth then failAt paren .stackOverflow else _ : Exec Value) s = _
  rw [if_neg (Nat.not_le.2 h)]

end

/-- A call of a declared function may go by the number of active ones. -/
theorem callActive_same {host : Host} {k : Nat} (hk : k ≤ maxCallDepth)
    {exec exec' : Stmt → Exec Flow} {call call' : Caller}
    (hexec : k < maxCallDepth → sameAtDepth.ExecRelated (k + 1) exec exec')
    (hcall : sameAtDepth.CallRelated k call call') :
    sameAtDepth.CallRelated k (callActive host k exec call)
      (callNode .standard host exec' call') := by
  rintro ⟨i, ⟨name, params, body, closure⟩ | ⟨name, arity, native⟩⟩ arguments paren
  case native => exact sameAtDepth.callNative_related host hcall native arguments
  case script =>
    intro s hs
    simp only [callActive, callNode]
    rcases Nat.eq_or_lt_of_le hk with hfull | hroom
    · rw [if_pos hfull, callScript_of_full _ _ _ _ _ _ _ (by omega)]
      exact ⟨rfl, .refl s⟩
    · rw [if_neg (Nat.ne_of_lt hroom), callScript_of_room _ _ _ _ _ _ _ (by omega)]
      have hbody := sameAtDepth.execEach_related (hexec hroom) body
      exact sameAtDepth.bind
        (sameAtDepth.insideBody_related sameAtDepth.respects_standard closure params arguments hbody)
        (fun _ => sameAtDepth.pure _) s hs

/-- **The counted machine is the machine**, if no more functions are active than may be. -/
theorem counted_same (host : Host) (n : Nat) {k : Nat} (hk : k ≤ maxCallDepth) :
    sameAtDepth.EvalRelated k (evalCounted host n k) (eval host n) ∧
    sameAtDepth.ExecRelated k (execCounted host n k) (exec host n) ∧
    sameAtDepth.CallRelated k (callCounted host n k) (call host n) := by
  induction n generalizing k with
  | zero =>
    exact ⟨fun _ => sameAtDepth.quiet quiet_spent, fun _ => sameAtDepth.quiet quiet_spent,
      fun _ _ _ => sameAtDepth.quiet quiet_spent⟩
  | succ n ih =>
    obtain ⟨heval, hexec, hcall⟩ := ih hk
    have hbody : k < maxCallDepth →
        sameAtDepth.ExecRelated (k + 1) (execCounted host n (k + 1)) (exec host n) :=
      fun hroom => (ih hroom).2.1
    have hrules := sameAtDepth.respects_standard
    refine ⟨?_, ?_, ?_⟩
    · exact fun e => counting_same hk (sameAtDepth.evalNode_related hrules heval hcall e)
    · exact fun s => counting_same hk (sameAtDepth.execNode_related hrules heval hexec n s)
    · exact fun f arguments paren =>
        counting_same hk (callActive_same hk hbody hcall f arguments paren)

theorem execProgramCounted_same (host : Host) (n : Nat) (statements : List Stmt) :
    sameAtDepth.Rel 0 (execProgramCounted host n statements)
      (execProgramWith .standard host n statements) := by
  induction statements with
  | nil => exact sameAtDepth.pure ()
  | cons statement statements ih =>
    exact sameAtDepth.bind ((counted_same host n (Nat.zero_le _)).2.1 statement) fun _ => ih

/-- A source runs the same on the counted machine. -/
theorem Session.runCounted_eq (host : Host) {session : Session} (h : session.state.callDepth = 0)
    (n : Nat) (limit : Option Nat) (source : String) :
    session.runCounted host n limit source = session.run host n limit source := by
  unfold Session.runCounted Session.run Session.runWith
  dsimp only
  split
  · rw [runStatementsWith_eq]
    congr 1
    exact (execProgramCounted_same host n _ { session.state with output := { limit } } h).1
  · rfl

end GradedScript
