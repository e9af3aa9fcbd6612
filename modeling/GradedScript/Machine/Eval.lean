import GradedScript.Machine.Natives
import GradedScript.Machine.Operators

/-!
# Running programs

`eval` evaluates an expression, `exec` executes a statement and `call` calls a function. All three
take a budget, which bounds how deeply they nest and how often each loop goes round; a finished
answer does not depend on it. A block has a scope of its own, and so has a call, inside the scope
its function was declared in.

What happens at the names and scopes of a program is a parameter, the `Rules` of a machine. The
language has the rules `Rules.standard`.
-/

namespace GradedScript.Exec

/-- The most declared functions that may be running. -/
def maxCallDepth : Nat := 1000

/-- Evaluates expressions from left to right. -/
def evalEach (eval : Expr → Exec Value) : List Expr → Exec (List Value)
  | [] => return []
  | e :: es => do
    let value ← eval e
    let values ← evalEach eval es
    return value :: values

/-- Executes statements until one does not end normally. -/
def execEach (exec : Stmt → Exec Flow) : List Stmt → Exec Flow
  | [] => return .normal
  | statement :: statements => do
    match ← exec statement with
    | .normal => execEach exec statements
    | flow => return flow

/-- Goes round a loop while its condition is true, at most `budget` times. -/
def repeatWhile (condition : Exec Value) (body : Exec Flow) : (budget : Nat) → Exec Flow
  | 0 => fun s => .error .outOfBudget s
  | n + 1 => do
    if (← condition).truthy then
      match ← body with
      | .normal => repeatWhile condition body n
      | .broke => return .normal
      | .returned value => return .returned value
    else
      return .normal

/-- Binds parameters to arguments in a scope; what is left over on either side is passed over. -/
def bindParams (scope : ScopeId) : List Token → List Value → Exec Unit
  | param :: params, argument :: arguments => do
    defineIn scope param.lexeme argument
    bindParams scope params arguments
  | _, _ => return

/-! ### Rules -/

/-- Makes a declared function and binds its name in the current scope, which it captures. -/
def declareFunction (name : Token) (params : List Token) (body : List Stmt) : Exec Unit := do
  captureScope
  let closure := (← get).current
  let identity ← newIdentity
  defineName name.lexeme (.function ⟨identity, .script name params body closure⟩)

/-- The steps of a machine at the names and scopes of a program. -/
structure Rules where
  readName : Token → Exec Value
  assignName : Token → Value → Exec Unit
  declareVariable : Token → Value → Exec Unit
  declareFunction : (name : Token) → (params : List Token) → (body : List Stmt) → Exec Unit
  leaveScope : (previous scope : ScopeId) → Exec Unit

/-- The rules of the language. -/
def Rules.standard : Rules where
  readName := Exec.readName
  assignName := Exec.assignName
  declareVariable name value := defineName name.lexeme value
  declareFunction := Exec.declareFunction
  leaveScope := Exec.leaveScope

/-- Runs a step in a new scope inside the current one. -/
def insideBlock (rules : Rules) (step : Exec Flow) : Exec Flow := do
  let scope ← openScope (← get).current
  insideScope rules.leaveScope scope step

/-- Runs a step as the body of a declared function: in a new scope inside its closure, where its
parameters are bound. -/
def insideBody (rules : Rules) (closure : ScopeId) (params : List Token) (arguments : List Value)
    (step : Exec Flow) : Exec Flow := do
  let scope ← openScope closure
  bindParams scope params arguments
  insideCall (insideScope rules.leaveScope scope step)

/-! ### Expressions, statements and calls -/

/-- Calls a declared function. -/
def callScript (rules : Rules) (exec : Stmt → Exec Flow) (params : List Token) (body : List Stmt)
    (closure : ScopeId) (arguments : List Value) (paren : Token) : Exec Value := do
  if maxCallDepth ≤ (← get).callDepth then
    failAt paren .stackOverflow
  else
    let flow ← insideBody rules closure params arguments (execEach exec body)
    return flow.result

/-- Calls what a callee evaluated to, if it is a function that takes that many arguments. -/
def callValue (call : Caller) (callee : Value) (arguments : List Value) (paren : Token) :
    Exec Value :=
  match callee with
  | .function function =>
    match function.arity with
    | .fixed count =>
      if count = arguments.length then call function arguments paren
      else failAt paren (.wrongArgumentCount count arguments.length)
    | .variadic => call function arguments paren
  | _ => failAt paren .notCallable

/-- Evaluates an expression, given how to evaluate the expressions in it and how to call. -/
def evalNode (rules : Rules) (eval : Expr → Exec Value) (call : Caller) : Expr → Exec Value
  | .literal value _ => return .ofLiteral value
  | .grouping inner => eval inner
  | .unary operator right => do
    unaryOperator operator (← eval right)
  | .binary left operator right => do
    let x ← eval left
    let y ← eval right
    binaryOperator operator x y
  | .logical left operator right => do
    let x ← eval left
    if settledByLeft operator x then return x else eval right
  | .var name => rules.readName name
  | .assign name value => do
    let x ← eval value
    rules.assignName name x
    return x
  | .call callee paren arguments => do
    let f ← eval callee
    let xs ← evalEach eval arguments
    callValue call f xs paren

/-- Executes a statement, given how to evaluate the expressions and execute the statements in it;
a loop goes round at most `budget` times. -/
def execNode (rules : Rules) (eval : Expr → Exec Value) (exec : Stmt → Exec Flow) (budget : Nat) :
    Stmt → Exec Flow
  | .expression e => do
    let _ ← eval e
    return .normal
  | .print e => do
    let value ← eval e
    writeLine value.text
    return .normal
  | .varDecl name initializer => do
    let value ← match initializer with
      | some e => eval e
      | none => pure .nil
    rules.declareVariable name value
    return .normal
  | .block statements => insideBlock rules (execEach exec statements)
  | .ifElse condition thenBranch elseBranch => do
    if (← eval condition).truthy then
      exec thenBranch
    else
      match elseBranch with
      | some elseBranch => exec elseBranch
      | none => return .normal
  | .whileLoop condition body => insideLoop (repeatWhile (eval condition) (exec body) budget)
  | .breakOut keyword => do
    if (← get).loopDepth = 0 then failAt keyword .breakOutsideLoop else return .broke
  | .funDecl name params body => do
    rules.declareFunction name params body
    return .normal
  | .giveBack keyword value => do
    if (← get).callDepth = 0 then
      failAt keyword .returnOutsideFunction
    else
      match value with
      | some e => return .returned (← eval e)
      | none => return .returned .nil

/-- Calls a function, given how to execute the statements in it and how it calls others. -/
def callNode (rules : Rules) (host : Host) (exec : Stmt → Exec Flow) (call : Caller) : Caller :=
  fun function arguments paren =>
    match function.callable with
    | .script _ params body closure => callScript rules exec params body closure arguments paren
    | .native _ _ native => callNative host call paren native arguments

mutual

/-- Evaluates an expression under some rules. -/
def evalWith (rules : Rules) (host : Host) : (budget : Nat) → Expr → Exec Value
  | 0, _, s => .error .outOfBudget s
  | n + 1, e, s => evalNode rules (evalWith rules host n) (callWith rules host n) e s

/-- Executes a statement under some rules. -/
def execWith (rules : Rules) (host : Host) : (budget : Nat) → Stmt → Exec Flow
  | 0, _, s => .error .outOfBudget s
  | n + 1, statement, s =>
    execNode rules (evalWith rules host n) (execWith rules host n) n statement s

/-- Calls a function, whatever its arity, under some rules. -/
def callWith (rules : Rules) (host : Host) : (budget : Nat) → Caller
  | 0, _, _, _, s => .error .outOfBudget s
  | n + 1, function, arguments, paren, s =>
    callNode rules host (execWith rules host n) (callWith rules host n) function arguments paren s

end

/-- Executes the statements of a program under some rules; the first halt ends it. -/
def execProgramWith (rules : Rules) (host : Host) (budget : Nat) : List Stmt → Exec Unit
  | [] => return
  | statement :: statements => do
    let _ ← execWith rules host budget statement
    execProgramWith rules host budget statements

/-- Evaluates an expression. -/
def eval (host : Host) (budget : Nat) : Expr → Exec Value :=
  evalWith .standard host budget

/-- Executes a statement. -/
def exec (host : Host) (budget : Nat) : Stmt → Exec Flow :=
  execWith .standard host budget

/-- Calls a function, whatever its arity. -/
def call (host : Host) (budget : Nat) : Caller :=
  callWith .standard host budget

end GradedScript.Exec
