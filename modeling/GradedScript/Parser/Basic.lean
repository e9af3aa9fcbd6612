import GradedScript.Diagnostic
import GradedScript.Tree

/-!
# Parsing: faults, state and primitive steps

A parser reads tokens from the front of a list. It either yields a result or fails at a token; in
both cases it leaves the tokens it has not read, the faults reported so far, and how deeply it
stands in loops and functions. A fault that is reported with `report` does not stop the parser.
-/

namespace GradedScript

/-! ### Faults -/

/-- What a parser wanted to see in place of the token it failed at. -/
inductive Expectation where
  | functionName
  | parenAfterFunctionName
  | parameterName
  | parenAfterParameters
  | braceBeforeBody
  | variableName
  | semicolonAfterVariable
  | semicolonAfterBreak
  | parenAfterFor
  | semicolonAfterLoopCondition
  | parenAfterForClauses
  | parenAfterIf
  | parenAfterIfCondition
  | semicolonAfterValue
  | semicolonAfterReturn
  | parenAfterWhile
  | parenAfterWhileCondition
  | braceAfterBlock
  | semicolonAfterExpression
  | parenAfterArguments
  | parenAfterExpression
  | expression
deriving DecidableEq, Inhabited

/-- The name of what was expected. -/
def Expectation.text : Expectation → String
  | .functionName => "function name"
  | .parenAfterFunctionName => "'(' after function name"
  | .parameterName => "parameter name"
  | .parenAfterParameters => "')' after parameters"
  | .braceBeforeBody => "'\x7b' before function body"
  | .variableName => "variable name"
  | .semicolonAfterVariable => "';' after variable declaration"
  | .semicolonAfterBreak => "';' after 'break'"
  | .parenAfterFor => "'(' after 'for'"
  | .semicolonAfterLoopCondition => "';' after loop condition"
  | .parenAfterForClauses => "')' after for clauses"
  | .parenAfterIf => "'(' after 'if'"
  | .parenAfterIfCondition => "')' after if condition"
  | .semicolonAfterValue => "';' after value"
  | .semicolonAfterReturn => "';' after return value"
  | .parenAfterWhile => "'(' after 'while'"
  | .parenAfterWhileCondition => "')' after condition"
  | .braceAfterBlock => "'\x7d' after block"
  | .semicolonAfterExpression => "';' after expression"
  | .parenAfterArguments => "')' after arguments"
  | .parenAfterExpression => "')' after expression"
  | .expression => "expression"

/-- What is wrong with the tokens of a program. -/
inductive ParseFault where
  | expected (what : Expectation)
  | tooManyParameters
  | tooManyArguments
  | breakOutsideLoop
  | returnOutsideFunction
  | invalidAssignmentTarget
  | literalWithoutValue
deriving DecidableEq, Inhabited

/-- The most parameters a function has and the most arguments a call has. -/
def maxArguments : Nat := 255

/-- The wording of a parse fault. -/
def ParseFault.message : ParseFault → String
  | .expected what => "Expect " ++ what.text ++ "."
  | .tooManyParameters => "Can't have more than 255 parameters."
  | .tooManyArguments => "Can't have more than 255 arguments."
  | .breakOutsideLoop => "Can't use 'break' outside of a loop."
  | .returnOutsideFunction => "Can't return from top-level code."
  | .invalidAssignmentTarget => "Invalid assignment target."
  | .literalWithoutValue => "Literal token without a value."

/-- A parse fault and the token it points at. -/
structure ParseError where
  fault : ParseFault
  token : Token
deriving Inhabited

/-- What is told about a parse fault. -/
def ParseError.diagnostic (e : ParseError) : Diagnostic :=
  .parseAt e.token e.fault.message

/-! ### State -/

/-- What a parser reads from and keeps. -/
structure Parser.State where
  /-- the tokens not read yet; none of them is an end token -/
  rest : List Token
  /-- the end token -/
  stop : Token
  /-- the faults reported so far -/
  errors : Array ParseError := #[]
  /-- the loops of the current function around this place -/
  loopDepth : Nat := 0
  /-- the functions around this place -/
  functionDepth : Nat := 0

/-- A parser yields a result or fails; it leaves a state in both cases. -/
abbrev Parser := EStateM ParseError Parser.State

namespace Parser

variable {α : Type}

/-! ### Primitive steps -/

/-- The next token. -/
def peek : Parser Token := fun s =>
  .ok (s.rest.headD s.stop) s

/-- Whether there is a next token and it is of the given kind. -/
def nextIs (kind : Kind) : Parser Bool := fun s =>
  match s.rest with
  | [] => .ok false s
  | t :: _ => .ok (t.kind = kind) s

/-- Whether all tokens are read. -/
def atEnd : Parser Bool := fun s =>
  .ok s.rest.isEmpty s

/-- Reads the next token if its kind satisfies `p`. -/
def acceptIf (p : Kind → Bool) : Parser (Option Token) := fun s =>
  match s.rest with
  | [] => .ok none s
  | t :: ts => if p t.kind then .ok (some t) { s with rest := ts } else .ok none s

/-- Reads the next token if it is of the given kind. -/
def accept (kind : Kind) : Parser (Option Token) :=
  acceptIf fun k => k = kind

/-- Passes over the next token. -/
def skip : Parser Unit := fun s =>
  .ok () { s with rest := s.rest.tail }

/-- Fails at a token. -/
def failAt (token : Token) (fault : ParseFault) : Parser α := fun s =>
  .error ⟨fault, token⟩ s

/-- Reports a fault at a token and goes on. -/
def report (token : Token) (fault : ParseFault) : Parser Unit := fun s =>
  .ok () { s with errors := s.errors.push ⟨fault, token⟩ }

/-- Reads a token of the given kind, or fails at the next token. -/
def expect (kind : Kind) (what : Expectation) : Parser Token := do
  match ← accept kind with
  | some token => return token
  | none => failAt (← peek) (.expected what)

/-- Items separated by commas; `count` of them are read already. Each one past the limit is reported
and read all the same. -/
def separated (item : Parser α) (tooMany : ParseFault) : (budget count : Nat) → Parser (List α)
  | 0, _ => return []
  | n + 1, count => do
    if maxArguments ≤ count then
      report (← peek) tooMany
    let x ← item
    match ← accept .comma with
    | some _ => return x :: (← separated item tooMany n (count + 1))
    | none => return [x]

/-- Items up to a closing parenthesis, or none if it comes next. -/
def listed (item : Parser α) (tooMany : ParseFault) (budget : Nat) : Parser (List α) := do
  if ← nextIs .rightParen then
    return []
  else
    separated item tooMany budget 0

/-- Runs a parser one loop deeper. -/
def insideLoop (p : Parser α) : Parser α := fun s =>
  match p { s with loopDepth := s.loopDepth + 1 } with
  | .ok a s => .ok a { s with loopDepth := s.loopDepth - 1 }
  | .error e s => .error e { s with loopDepth := s.loopDepth - 1 }

/-- Runs a parser one function deeper; the loops around the function do not count inside it. -/
def insideFunction (p : Parser α) : Parser α := fun s =>
  let loops := s.loopDepth
  match p { s with loopDepth := 0, functionDepth := s.functionDepth + 1 } with
  | .ok a s => .ok a { s with loopDepth := loops, functionDepth := s.functionDepth - 1 }
  | .error e s => .error e { s with loopDepth := loops, functionDepth := s.functionDepth - 1 }

/-! ### Recovery -/

/-- Kinds that begin a statement, where parsing goes on after a failure. -/
def beginsStatement : Kind → Bool
  | .kwClass | .kwFun | .kwVar | .kwFor | .kwIf | .kwWhile | .kwPrint | .kwReturn => true
  | _ => false

/-- The tokens from the next boundary on: after a semicolon, or at a token that begins a
statement. -/
def boundaryAfter (previous : Token) : List Token → List Token
  | [] => []
  | t :: ts =>
    if previous.kind = .semicolon || beginsStatement t.kind then t :: ts else boundaryAfter t ts

/-- Passes over the token a parser failed at and on to the next boundary. -/
def resync : List Token → List Token
  | [] => []
  | t :: ts => boundaryAfter t ts

/-- Runs a parser; if it fails, reports the fault and goes on at the next boundary. -/
def recovering (p : Parser α) : Parser (Option α) := fun s =>
  match p s with
  | .ok a s => .ok (some a) s
  | .error e s => .ok none { s with errors := s.errors.push e, rest := resync s.rest }

end Parser

end GradedScript
