import GradedScript.Parser.Expression

/-!
# Parsing programs

Statements and declarations, and `parse`, which reads a whole program. A declaration that fails is
reported and left out, and parsing goes on at the next statement boundary, so that one `parse`
finds all faults. A `for` loop is read into a `while` loop (`forLoop`).
-/

namespace GradedScript

namespace Parser

/-- The parameters of a function up to the closing parenthesis. -/
def parameters (budget : Nat) : Parser (List Token) :=
  listed (expect .identifier .parameterName) .tooManyParameters budget

/-- The rest of a function declaration, after `fun`. -/
def funDeclaration (block : Parser (List Stmt)) (budget : Nat) : Parser Stmt := do
  let name ← expect .identifier .functionName
  let _ ← expect .leftParen .parenAfterFunctionName
  let params ← parameters budget
  let _ ← expect .rightParen .parenAfterParameters
  let _ ← expect .leftBrace .braceBeforeBody
  let body ← insideFunction block
  return .funDecl name params body

/-- The rest of a variable declaration, after `var`. -/
def varDeclaration (budget : Nat) : Parser Stmt := do
  let name ← expect .identifier .variableName
  let initializer ← match ← accept .equal with
    | some _ => some <$> expression budget
    | none => pure none
  let _ ← expect .semicolon .semicolonAfterVariable
  return .varDecl name initializer

/-- A statement that is an expression and its semicolon. -/
def closed (make : Expr → Stmt) (what : Expectation) (budget : Nat) : Parser Stmt := do
  let e ← expression budget
  let _ ← expect .semicolon what
  return make e

/-- An expression as a statement. -/
def expressionStatement (budget : Nat) : Parser Stmt :=
  closed .expression .semicolonAfterExpression budget

/-- The rest of a `break` statement. -/
def breakStatement (keyword : Token) : Parser Stmt := do
  if (← get).loopDepth = 0 then
    report keyword .breakOutsideLoop
  let _ ← expect .semicolon .semicolonAfterBreak
  return .breakOut keyword

/-- The tree of a `for` loop: the increment runs after the body, an absent condition is true, and
the initializer has a scope of its own. -/
def forLoop (keyword : Token) (initializer : Option Stmt) (condition increment : Option Expr)
    (body : Stmt) : Stmt :=
  let body := match increment with
    | some increment => .block [body, .expression increment]
    | none => body
  let loop := Stmt.whileLoop (condition.getD (.literal (.bool true) keyword.line)) body
  match initializer with
  | some initializer => .block [initializer, loop]
  | none => loop

/-- The first clause of a `for` loop, with its semicolon. -/
def forInitializer (budget : Nat) : Parser (Option Stmt) := do
  if (← accept .semicolon).isSome then
    return none
  else if (← accept .kwVar).isSome then
    return some (← varDeclaration budget)
  else
    return some (← expressionStatement budget)

/-- An expression, or nothing if the given kind comes next. -/
def expressionUnless (kind : Kind) (budget : Nat) : Parser (Option Expr) := do
  if ← nextIs kind then
    return none
  else
    return some (← expression budget)

/-- The rest of a `for` statement. -/
def forStatement (statement : Parser Stmt) (budget : Nat) (keyword : Token) : Parser Stmt := do
  let _ ← expect .leftParen .parenAfterFor
  let initializer ← forInitializer budget
  let condition ← expressionUnless .semicolon budget
  let _ ← expect .semicolon .semicolonAfterLoopCondition
  let increment ← expressionUnless .rightParen budget
  let _ ← expect .rightParen .parenAfterForClauses
  let body ← insideLoop statement
  return forLoop keyword initializer condition increment body

/-- The rest of an `if` statement. An `else` goes with the nearest `if`. -/
def ifStatement (statement : Parser Stmt) (budget : Nat) : Parser Stmt := do
  let _ ← expect .leftParen .parenAfterIf
  let condition ← expression budget
  let _ ← expect .rightParen .parenAfterIfCondition
  let thenBranch ← statement
  match ← accept .kwElse with
  | some _ => return .ifElse condition thenBranch (some (← statement))
  | none => return .ifElse condition thenBranch none

/-- The rest of a `print` statement. -/
def printStatement (budget : Nat) : Parser Stmt :=
  closed .print .semicolonAfterValue budget

/-- The rest of a `return` statement. -/
def returnStatement (budget : Nat) (keyword : Token) : Parser Stmt := do
  if (← get).functionDepth = 0 then
    report keyword .returnOutsideFunction
  let value ← expressionUnless .semicolon budget
  let _ ← expect .semicolon .semicolonAfterReturn
  return .giveBack keyword value

/-- The rest of a `while` statement. -/
def whileStatement (statement : Parser Stmt) (budget : Nat) : Parser Stmt := do
  let _ ← expect .leftParen .parenAfterWhile
  let condition ← expression budget
  let _ ← expect .rightParen .parenAfterWhileCondition
  let body ← insideLoop statement
  return .whileLoop condition body

/-- Puts a statement in front, if there is one. -/
def consOption (s : Option Stmt) (rest : List Stmt) : List Stmt :=
  match s with
  | some s => s :: rest
  | none => rest

/-- Declarations up to a closing brace or the end; those that failed are left out. -/
def declarations (declaration : Parser (Option Stmt)) : (budget : Nat) → Parser (List Stmt)
  | 0 => return []
  | n + 1 => do
    if (← nextIs .rightBrace) || (← atEnd) then
      return []
    else
      let s ← declaration
      return consOption s (← declarations declaration n)

/-- Declarations and the closing brace of their block. -/
def block (declaration : Parser (Option Stmt)) (budget : Nat) : Parser (List Stmt) := do
  let statements ← declarations declaration budget
  let _ ← expect .rightBrace .braceAfterBlock
  return statements

/-- A statement that is no declaration, given the parsers for nested statements and blocks. -/
def plainStatement (statement : Parser Stmt) (block : Parser (List Stmt)) (budget : Nat) :
    Parser Stmt := do
  let token ← peek
  match token.kind with
  | .kwBreak => do skip; breakStatement token
  | .kwFor => do skip; forStatement statement budget token
  | .kwIf => do skip; ifStatement statement budget
  | .kwPrint => do skip; printStatement budget
  | .kwReturn => do skip; returnStatement budget token
  | .kwWhile => do skip; whileStatement statement budget
  | .leftBrace => do skip; return .block (← block)
  | _ => expressionStatement budget

/-- A declaration of a function or a variable, or a statement. -/
def anyStatement (statement : Parser Stmt) (block : Parser (List Stmt)) (budget : Nat) :
    Parser Stmt := do
  let token ← peek
  match token.kind with
  | .kwFun => do skip; funDeclaration block budget
  | .kwVar => do skip; varDeclaration budget
  | _ => plainStatement statement block budget

/-- A statement, with a budget for its nesting; where `declares` is true, a declaration may stand
too. -/
def statement : (budget : Nat) → (declares : Bool) → Parser Stmt
  | 0, _, s => (do failAt (← peek) (.expected .expression)) s
  | n + 1, declares, s =>
    let nested := statement n false
    let block := block (recovering (statement n true)) (n + 1)
    if declares then anyStatement nested block (n + 1) s else plainStatement nested block (n + 1) s

/-- A declaration or statement, left out if it fails. -/
def declaration (budget : Nat) : Parser (Option Stmt) :=
  recovering (statement budget true)

/-- Declarations up to the end; those that failed are left out. -/
def programFrom (declaration : Parser (Option Stmt)) : (budget : Nat) → Parser (List Stmt)
  | 0 => return []
  | n + 1 => do
    if ← atEnd then
      return []
    else
      let s ← declaration
      return consOption s (← programFrom declaration n)

/-- A whole program. -/
def program (budget : Nat) : Parser (List Stmt) :=
  programFrom (declaration budget) budget

/-- The end token of a list that has none: it is empty and on the line of the last token. -/
def impliedEnd (tokens : List Token) : Token :=
  ⟨.eof, "", none, (tokens.getLast?.map Token.line).getD 1, ⟨0, 0⟩⟩

/-- Starts at the front of a token list, which ends at its first end token. -/
def State.ofTokens (tokens : List Token) : State where
  rest := tokens.takeWhile fun t => t.kind ≠ .eof
  stop := (tokens.find? fun t => t.kind = .eof).getD (impliedEnd tokens)

end Parser

/-- A parsed program: the statements that could be read, and the faults in the order they were
reported. -/
structure Parsed where
  statements : List Stmt
  errors : List ParseError
deriving Inhabited

/-- Parses a program. -/
def parse (tokens : List Token) : Parsed :=
  let start := Parser.State.ofTokens tokens
  match Parser.program start.rest.length start with
  | .ok statements s => ⟨statements, s.errors.toList⟩
  | .error e s => ⟨[], (s.errors.push e).toList⟩

end GradedScript
