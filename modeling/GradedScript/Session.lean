import GradedScript.Machine.Eval
import GradedScript.Program

/-!
# Sessions

A session runs one source after another; what a source binds globally stays for the next ones. A
source with a static fault is not run at all, and one that fails while it runs ends there.
-/

namespace GradedScript

/-- A session: the state of its machine between runs. -/
structure Session where
  state : State
deriving Inhabited

namespace Session

/-- The state of a machine that has not run yet and knows no names. -/
def blankState : State :=
  { store := .fresh, current := ScopeStore.globalId, loopDepth := 0, callDepth := 0,
    nextIdentity := 0, clockReads := 0, output := {} }

/-- Binds a global name to a new built-in function. -/
def install (session : Session) (name : String) (arity : Arity) (native : Native) : Session :=
  let s := session.state
  let function : Function := ⟨s.nextIdentity, .native name arity native⟩
  ⟨{ s with
      store := s.store.bind ScopeStore.globalId name (.function function)
      nextIdentity := s.nextIdentity + 1 }⟩

/-- A session that knows the built-in functions only. -/
def fresh : Session :=
  let blank : Session := ⟨blankState⟩
  let blank := blank.install "clock" (.fixed 0) .clock
  let blank := blank.install "TestCase" .variadic .testCase
  blank.install "runTests" .variadic .runTests

/-- The value of a global name. -/
def global? (session : Session) (name : String) : Option Value :=
  session.state.store.getLocal? ScopeStore.globalId name

/-- The names that can be seen between runs. -/
def names (session : Session) : List String :=
  match session.state.store.names session.state.current with
  | .ok names => names
  | .error _ => []

/-- How a run ended. -/
inductive Ending where
  /-- static faults: nothing ran -/
  | rejected (errors : List Diagnostic)
  | completed
  | halted (reason : Halt)
deriving Inhabited

/-- What is told about a halt. A machine that is stuck or out of budget has nothing to tell. -/
def haltDiagnostics : Halt → List Diagnostic
  | .fault error => [error.diagnostic]
  | .outputClosed => [.io "output closed"]
  | .stuck _ | .outOfBudget => []

/-- What is told about the end of a run. -/
def Ending.diagnostics : Ending → List Diagnostic
  | .rejected errors => errors
  | .completed => []
  | .halted reason => haltDiagnostics reason

/-- A finished run: the session after it, what was written, and how it ended. -/
structure Run where
  session : Session
  written : ByteArray
  ending : Ending
deriving Inhabited

/-- What is told about a run. -/
def Run.diagnostics (run : Run) : List Diagnostic :=
  run.ending.diagnostics

/-- A budget that no program in practice spends. -/
def ampleBudget : Nat := Nat.pow 2 62 - 1

/-- Runs statements under some rules, with an output that may be limited. -/
def runStatementsWith (session : Session) (rules : Exec.Rules) (host : Host) (budget : Nat)
    (limit : Option Nat) (statements : List Stmt) : Run :=
  let start := { session.state with output := { limit } }
  match Exec.execProgramWith rules host budget statements start with
  | .ok _ s => ⟨⟨{ s with output := {} }⟩, s.output.written, .completed⟩
  | .error halt s => ⟨⟨{ s with output := {} }⟩, s.output.written, .halted halt⟩

/-- Runs a source text under some rules. -/
def runWith (session : Session) (rules : Exec.Rules) (host : Host) (budget : Nat)
    (limit : Option Nat) (source : String) : Run :=
  let program := Program.ofSource source
  if program.errors.isEmpty then
    session.runStatementsWith rules host budget limit program.statements
  else
    ⟨session, .empty, .rejected program.errors⟩

/-- Runs a source text. -/
def run (session : Session) (host : Host) (budget : Nat) (limit : Option Nat) (source : String) :
    Run :=
  session.runWith .standard host budget limit source

end Session

end GradedScript
