import GradedScript.Diagnostic
import GradedScript.Machine.Output
import GradedScript.Scope

/-!
# The machine that runs programs: faults, state and primitive steps

A step of the machine works on a `State` and ends with a result or halts. It halts with a fault of
the program, when its output is closed, when a budget is spent, or stuck: a stuck machine has met
something no parsed program leads to, such as an operator that is none.
-/

namespace GradedScript

/-! ### Faults -/

/-- What can go wrong while a program runs. -/
inductive RuntimeFault where
  | operandNotNumber
  | operandsNotNumbers
  | operandsNotAddable
  | undefinedVariable (name : String)
  | notCallable
  | wrongArgumentCount (expected given : Nat)
  | stackOverflow
  | breakOutsideLoop
  | returnOutsideFunction
  | testCaseTooShort
  | testCaseUnnamed
  | testNotFunction (name : String)
  | testArgumentCount (name : String) (expected given : Nat)
  | timeBeforeEpoch
  /-- a fault that a host function raised -/
  | raised (message : String)
deriving DecidableEq, Inhabited

/-- The wording of a runtime fault. -/
def RuntimeFault.message : RuntimeFault → String
  | .operandNotNumber => "Operand must be a number."
  | .operandsNotNumbers => "Operands must be numbers."
  | .operandsNotAddable => "Operands must be two numbers or two strings."
  | .undefinedVariable name => "Undefined variable '" ++ name ++ "'."
  | .notCallable => "Can only call functions and classes."
  | .wrongArgumentCount expected given =>
    "Expected " ++ toString expected ++ " arguments but got " ++ toString given ++ "."
  | .stackOverflow => "Stack overflow."
  | .breakOutsideLoop => "Can't use 'break' outside of a loop."
  | .returnOutsideFunction => "Can't return from top-level code."
  | .testCaseTooShort => "TestCase(fnName, arg1, ..., expected) requires at least 2 arguments."
  | .testCaseUnnamed => "First argument to TestCase must be a function name (string)."
  | .testNotFunction name => "Test error: '" ++ name ++ "' is not a function."
  | .testArgumentCount name expected given =>
    "Test error: function '" ++ name ++ "' expects " ++ toString expected ++ " args but got " ++
      toString given
  | .timeBeforeEpoch => "second time provided was later than self"
  | .raised message => message

/-- A runtime fault and the token it points at. -/
structure RuntimeError where
  fault : RuntimeFault
  token : Token
deriving Inhabited

/-- What is told about a runtime fault. -/
def RuntimeError.diagnostic (e : RuntimeError) : Diagnostic :=
  .runtimeAt e.token e.fault.message

/-- How the machine can get stuck. -/
inductive Stuck where
  | missingScope (id : ScopeId)
  | noOperator (token : Token)
  | depthUnderflow
deriving Inhabited

/-- Why the machine halts. -/
inductive Halt where
  | fault (error : RuntimeError)
  | outputClosed
  | stuck (how : Stuck)
  | outOfBudget
deriving Inhabited

/-! ### State -/

/-- The state of the machine. -/
structure State where
  store : ScopeStore
  /-- the current scope -/
  current : ScopeId
  /-- the loops of the current function that are running -/
  loopDepth : Nat
  /-- the declared functions that are running -/
  callDepth : Nat
  /-- the identity of the next function or test case -/
  nextIdentity : Nat
  /-- how often the clock was read -/
  clockReads : Nat
  output : Output
deriving Inhabited

/-- A step of the machine. -/
abbrev Exec := EStateM Halt State

/-- How a statement ended. -/
inductive Flow where
  | normal
  | broke
  | returned (value : Value)
deriving Inhabited

/-- What a call yields when the body of its function ended. -/
def Flow.result : Flow → Value
  | .returned value => value
  | .normal | .broke => .nil

namespace Exec

variable {α : Type}

/-! ### Primitive steps -/

/-- Halts with a fault at a token. -/
def failAt (token : Token) (fault : RuntimeFault) : Exec α := fun s =>
  .error (.fault ⟨fault, token⟩) s

/-- Halts stuck. -/
def getStuck (how : Stuck) : Exec α := fun s =>
  .error (.stuck how) s

/-- Writes text and ends the line. -/
def writeLine (text : String) : Exec Unit := fun s =>
  match s.output.write (text ++ "\n").toUTF8 with
  | (output, true) => .ok () { s with output }
  | (output, false) => .error .outputClosed { s with output }

/-- An identity that was not given before. -/
def newIdentity : Exec Nat := fun s =>
  .ok s.nextIdentity { s with nextIdentity := s.nextIdentity + 1 }

/-- Runs a step, then `leave`, however the step ended. -/
def thenLeave (step : Exec α) (leave : Exec Unit) : Exec α := fun s =>
  match step s with
  | .ok a s =>
    match leave s with
    | .ok _ s => .ok a s
    | .error halt s => .error halt s
  | .error halt s =>
    match leave s with
    | .ok _ s => .error halt s
    | .error other s => .error other s

/-! ### Names -/

/-- The value of a variable. -/
def readName (name : Token) : Exec Value := fun s =>
  match s.store.get s.current name.lexeme with
  | .ok value => .ok value s
  | .error .unbound => .error (.fault ⟨.undefinedVariable name.lexeme, name⟩) s
  | .error (.missing id) => .error (.stuck (.missingScope id)) s

/-- Gives a variable a new value. -/
def assignName (name : Token) (value : Value) : Exec Unit := fun s =>
  match s.store.resolve name.lexeme s.current with
  | .ok (owner, _) => .ok () { s with store := s.store.bind owner name.lexeme value }
  | .error .unbound => .error (.fault ⟨.undefinedVariable name.lexeme, name⟩) s
  | .error (.missing id) => .error (.stuck (.missingScope id)) s

/-- Binds a name in a scope. -/
def defineIn (scope : ScopeId) (name : String) (value : Value) : Exec Unit := fun s =>
  if scope < s.store.size then .ok () { s with store := s.store.bind scope name value }
  else .error (.stuck (.missingScope scope)) s

/-- Binds a name in the current scope. -/
def defineName (name : String) (value : Value) : Exec Unit := fun s =>
  defineIn s.current name value s

/-- Keeps the current scope for good. -/
def captureScope : Exec Unit := fun s =>
  match s.store.missingOutward? s.current with
  | none => .ok () { s with store := s.store.markOutward s.current }
  | some gone => .error (.stuck (.missingScope gone)) s

/-- Opens a scope and yields its index. -/
def openScope (enclosing : ScopeId) : Exec ScopeId := fun s =>
  .ok s.store.size { s with store := s.store.push enclosing }

/-- Makes a scope the current one again and releases another. -/
def leaveScope (previous scope : ScopeId) : Exec Unit := fun s =>
  .ok () { s with current := previous, store := s.store.release scope }

/-- Runs a step with another scope as the current one, then leaves it for the one before, however
the step ended. -/
def insideScope (leave : (previous scope : ScopeId) → Exec Unit) (scope : ScopeId)
    (step : Exec α) : Exec α := fun s =>
  thenLeave step (leave s.current scope) { s with current := scope }

/-- One loop fewer is running. -/
def leaveLoop : Exec Unit := fun s =>
  if s.loopDepth = 0 then .error (.stuck .depthUnderflow) s
  else .ok () { s with loopDepth := s.loopDepth - 1 }

/-- Runs a step one loop deeper. -/
def insideLoop (step : Exec α) : Exec α := fun s =>
  thenLeave step leaveLoop { s with loopDepth := s.loopDepth + 1 }

/-- One function fewer is running; the loops of the one that called it count again. -/
def leaveCall (loopDepth : Nat) : Exec Unit := fun s =>
  if s.callDepth = 0 then .error (.stuck .depthUnderflow) s
  else .ok () { s with loopDepth, callDepth := s.callDepth - 1 }

/-- Runs a step one function deeper, where no loop is running yet. -/
def insideCall (step : Exec α) : Exec α := fun s =>
  thenLeave step (leaveCall s.loopDepth) { s with loopDepth := 0, callDepth := s.callDepth + 1 }

end Exec

end GradedScript
