import GradedScript.Parser.Basic

/-!
# Parsing expressions

One function a level of precedence, loosest first: assignment, `or`, `and`, equality, comparison,
term, factor, unary operators, calls, primaries. The levels take the parser for a whole expression
as an argument, for use inside parentheses, argument lists and assigned values; `expression` ties
the knot with a budget. A budget of the number of tokens left is always enough, since a token is
read before each nested use; a loop over tokens is bounded by the same number.
-/

namespace GradedScript.Parser

/-- Yields a literal and passes over its token. -/
def literal (token : Token) (value : Literal) : Parser Expr := do
  skip
  return .literal value token.line

/-- A literal, a name, or an expression in parentheses. -/
def primary (expression : Parser Expr) : Parser Expr := do
  let token ← peek
  match token.kind with
  | .kwFalse => literal token (.bool false)
  | .kwTrue => literal token (.bool true)
  | .kwNil => literal token .nil
  | .number | .string =>
    match token.literal with
    | some value => literal token value
    | none => failAt token .literalWithoutValue
  | .leftParen =>
    skip
    let inner ← expression
    let _ ← expect .rightParen .parenAfterExpression
    return .grouping inner
  | .identifier =>
    skip
    return .var token
  | _ => failAt token (.expected .expression)

/-- The arguments of a call up to its closing parenthesis. -/
def arguments (expression : Parser Expr) (budget : Nat) : Parser (List Expr) :=
  listed expression .tooManyArguments budget

/-- Any number of calls of what has been read so far. -/
def callsFrom (expression : Parser Expr) (budget : Nat) : Nat → Expr → Parser Expr
  | 0, callee => return callee
  | n + 1, callee => do
    match ← accept .leftParen with
    | none => return callee
    | some _ =>
      let arguments ← arguments expression budget
      let paren ← expect .rightParen .parenAfterArguments
      callsFrom expression budget n (.call callee paren arguments)

/-- A primary, called any number of times. -/
def call (expression : Parser Expr) (budget : Nat) : Parser Expr := do
  callsFrom expression budget budget (← primary expression)

/-- The operators that stand before their operand. -/
def isUnary : Kind → Bool
  | .bang | .minus => true
  | _ => false

/-- A call behind any number of unary operators. -/
def unaryFrom (expression : Parser Expr) (budget : Nat) : Nat → Parser Expr
  | 0 => call expression budget
  | n + 1 => do
    match ← acceptIf isUnary with
    | some operator => return .unary operator (← unaryFrom expression budget n)
    | none => call expression budget

/-- A call behind unary operators. -/
def unary (expression : Parser Expr) (budget : Nat) : Parser Expr :=
  unaryFrom expression budget budget

/-- Goes on with a chain of operators of one level, grouped to the left. -/
def chainFrom (isOperator : Kind → Bool) (build : Expr → Token → Expr → Expr)
    (operand : Parser Expr) : Nat → Expr → Parser Expr
  | 0, left => return left
  | n + 1, left => do
    match ← acceptIf isOperator with
    | none => return left
    | some operator => chainFrom isOperator build operand n (build left operator (← operand))

/-- Operands joined by operators of one level, grouped to the left. -/
def chain (isOperator : Kind → Bool) (build : Expr → Token → Expr → Expr) (operand : Parser Expr)
    (budget : Nat) : Parser Expr := do
  chainFrom isOperator build operand budget (← operand)

/-- Division and multiplication. -/
def isFactor : Kind → Bool
  | .slash | .star => true
  | _ => false

/-- Subtraction and addition. -/
def isTerm : Kind → Bool
  | .minus | .plus => true
  | _ => false

/-- The four orders. -/
def isComparison : Kind → Bool
  | .greater | .greaterEqual | .less | .lessEqual => true
  | _ => false

/-- Equality and its negation. -/
def isEquality : Kind → Bool
  | .bangEqual | .equalEqual => true
  | _ => false

/-- Conjunction. -/
def isAnd : Kind → Bool
  | .kwAnd => true
  | _ => false

/-- Disjunction. -/
def isOr : Kind → Bool
  | .kwOr => true
  | _ => false

/-- Products and quotients. -/
def factor (expression : Parser Expr) (budget : Nat) : Parser Expr :=
  chain isFactor .binary (unary expression budget) budget

/-- Sums and differences. -/
def term (expression : Parser Expr) (budget : Nat) : Parser Expr :=
  chain isTerm .binary (factor expression budget) budget

/-- Comparisons by order. -/
def comparison (expression : Parser Expr) (budget : Nat) : Parser Expr :=
  chain isComparison .binary (term expression budget) budget

/-- Comparisons for equality. -/
def equality (expression : Parser Expr) (budget : Nat) : Parser Expr :=
  chain isEquality .binary (comparison expression budget) budget

/-- Conjunctions. -/
def conjunction (expression : Parser Expr) (budget : Nat) : Parser Expr :=
  chain isAnd .logical (equality expression budget) budget

/-- Disjunctions. -/
def disjunction (expression : Parser Expr) (budget : Nat) : Parser Expr :=
  chain isOr .logical (conjunction expression budget) budget

/-- A disjunction, or an assignment to a name. A target that is no name is reported, and the target
stands for the whole. -/
def assignment (expression : Parser Expr) (budget : Nat) : Parser Expr := do
  let target ← disjunction expression budget
  match ← accept .equal with
  | none => return target
  | some equals =>
    let value ← expression
    match target with
    | .var name => return .assign name value
    | _ =>
      report equals .invalidAssignmentTarget
      return target

/-- An expression, with a budget for its nesting. -/
def expression : Nat → Parser Expr
  | 0, s => (do failAt (← peek) (.expected .expression)) s
  | n + 1, s => assignment (expression n) (n + 1) s

end GradedScript.Parser
