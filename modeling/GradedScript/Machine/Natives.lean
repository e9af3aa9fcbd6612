import GradedScript.Machine.Basic

/-!
# Built-in functions

The functions every program starts with: `clock`, `TestCase` and `runTests`. A host can add
functions of its own; what one does is a `HostAction`, a sequence of requests to the machine that
ends with a value or a fault.
-/

namespace GradedScript

/-! ### Actions of the host -/

/-- What a host function does: it asks the machine for things, one after the other, and ends. It sees
its arguments and the answers it gets, but neither the token of the call nor the current scope, and
it binds no names. A halt of a function it calls, or of the output, is its own: it cannot catch it
and go on. -/
inductive HostAction where
  /-- ends with a value -/
  | yield (value : Value)
  /-- ends with a fault at the call -/
  | raise (message : String)
  /-- writes a line -/
  | write (line : String) (next : HostAction)
  /-- asks for the value of a global name -/
  | readGlobal (name : String) (next : Option Value → HostAction)
  /-- calls a function, without a look at its arity -/
  | call (function : Function) (arguments : List Value) (next : Value → HostAction)

/-- What a program's surroundings provide. -/
structure Host where
  /-- the time in seconds since the epoch, by how often the clock was read before; it is negative
  before the epoch -/
  clock : Nat → Float
  /-- what a host function does with its arguments -/
  action : String → List Value → HostAction

/-- The way a built-in function calls other functions: the function, its arguments, and the closing
parenthesis of the call. -/
abbrev Caller := Function → List Value → Token → Exec Value

namespace Exec

/-- The value of a global name. -/
def global? (name : String) : Exec (Option Value) := fun s =>
  .ok (s.store.getLocal? ScopeStore.globalId name) s

/-- Performs the action of a host function. -/
def perform (call : Caller) (paren : Token) : HostAction → Exec Value
  | .yield value => pure value
  | .raise message => failAt paren (.raised message)
  | .write line next => do
    writeLine line
    perform call paren next
  | .readGlobal name next => do
    perform call paren (next (← global? name))
  | .call function arguments next => do
    perform call paren (next (← call function arguments paren))

/-! ### Test cases -/

/-- Makes a test case: a function's name, arguments, and the expected value last. -/
def makeTestCase (paren : Token) : List Value → Exec Value
  | name :: argument :: arguments =>
    match name with
    | .string name => do
      let given := (argument :: arguments).dropLast
      let expected := (argument :: arguments).getLastD .nil
      return .testCase (← newIdentity) name given expected
    | _ => failAt paren .testCaseUnnamed
  | _ => failAt paren .testCaseTooShort

/-- Calls the global function of a name. -/
def callByName (call : Caller) (paren : Token) (name : String) (arguments : List Value) :
    Exec Value := do
  match ← global? name with
  | some (.function function) =>
    match function.arity with
    | .fixed count =>
      if count = arguments.length then call function arguments paren
      else failAt paren (.testArgumentCount name count arguments.length)
    | .variadic => call function arguments paren
  | _ => failAt paren (.testNotFunction name)

/-- How a report shows a call. -/
def callText (name : String) (arguments : List Value) : String :=
  name ++ "(" ++ ", ".intercalate (arguments.map Value.text) ++ ")"

/-- Runs test cases in order and writes a line for each; yields how many passed, and how many there
were. -/
def runEach (call : Caller) (paren : Token) : List Value → (passed total : Nat) → Exec (Nat × Nat)
  | [], passed, total => return (passed, total)
  | .testCase _ name arguments expected :: cases, passed, total => do
    let result ← callByName call paren name arguments
    if result.equals expected then
      writeLine ("[PASS] " ++ callText name arguments ++ " == " ++ expected.text)
      runEach call paren cases (passed + 1) (total + 1)
    else
      writeLine ("[FAIL] " ++ callText name arguments ++ " expected: " ++ expected.text ++
        ", got: " ++ result.text)
      runEach call paren cases passed (total + 1)
  | other :: cases, passed, total => do
    writeLine ("[WARN] runTests: argument is not a TestCase: " ++ other.text)
    runEach call paren cases passed total

/-- Runs test cases, writes a summary, and yields the share that passed. -/
def runTests (call : Caller) (paren : Token) (cases : List Value) : Exec Value := do
  let (passed, total) ← runEach call paren cases 0 0
  writeLine "--- TEST SUMMARY ---"
  writeLine ("Passed " ++ toString passed ++ " / " ++ toString total)
  return .number (if total = 0 then 0 else passed.toFloat / total.toFloat)

/-- Counts a reading of the clock, and yields how many there were before. -/
def countReading : Exec Nat := fun s =>
  .ok s.clockReads { s with clockReads := s.clockReads + 1 }

/-- Reads the clock; a time before the epoch is a fault at the call. -/
def readClock (host : Host) (paren : Token) : Exec Value := do
  let seconds := host.clock (← countReading)
  if seconds < 0 then failAt paren .timeBeforeEpoch else return .number seconds

/-- Calls a built-in function. -/
def callNative (host : Host) (call : Caller) (paren : Token) (native : Native)
    (arguments : List Value) : Exec Value :=
  match native with
  | .clock => readClock host paren
  | .testCase => makeTestCase paren arguments
  | .runTests => runTests call paren arguments
  | .host key => perform call paren (host.action key arguments)

end Exec

end GradedScript
