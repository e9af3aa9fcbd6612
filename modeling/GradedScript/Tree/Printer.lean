import GradedScript.Tree

/-!
# Trees as text

The parenthesised form of expressions and statements: an operator stands before its operands, and
a string literal between quotes. Each function writes its tree in front of a text that is already
there, so that writing a tree takes time in proportion to its text.
-/

namespace GradedScript

/-- The text of a literal inside a tree; strings are quoted. -/
def Literal.quoted : Literal → List Char
  | .string value => '"' :: (value.toList ++ ['"'])
  | literal => literal.text.toList

mutual

/-- Writes an expression in front of `rest`. -/
def Expr.charsThen : Expr → List Char → List Char
  | .literal value _, rest => value.quoted ++ rest
  | .grouping inner, rest => "(group ".toList ++ inner.charsThen (')' :: rest)
  | .unary operator right, rest =>
    '(' :: (operator.lexeme.toList ++ ' ' :: right.charsThen (')' :: rest))
  | .binary left operator right, rest =>
    '(' :: (operator.lexeme.toList ++ ' ' :: left.charsThen (' ' :: right.charsThen (')' :: rest)))
  | .logical left operator right, rest =>
    '(' :: (operator.lexeme.toList ++ ' ' :: left.charsThen (' ' :: right.charsThen (')' :: rest)))
  | .var name, rest => name.lexeme.toList ++ rest
  | .assign name value, rest =>
    "(= ".toList ++ (name.lexeme.toList ++ ' ' :: value.charsThen (')' :: rest))
  | .call callee _ arguments, rest =>
    "(call ".toList ++ callee.charsThen (Expr.eachThen arguments (')' :: rest))

/-- Writes expressions in front of `rest`, a blank before each. -/
def Expr.eachThen : List Expr → List Char → List Char
  | [], rest => rest
  | e :: es, rest => ' ' :: e.charsThen (Expr.eachThen es rest)

end

/-- Writes an expression and a blank before it, if there is one, in front of `rest`. -/
def Expr.optionThen : Option Expr → List Char → List Char
  | none, rest => rest
  | some e, rest => ' ' :: e.charsThen rest

/-- The texts of tokens with a blank between each two. -/
def lexemesThen : List Token → List Char → List Char
  | [], rest => rest
  | [t], rest => t.lexeme.toList ++ rest
  | t :: ts, rest => t.lexeme.toList ++ ' ' :: lexemesThen ts rest

mutual

/-- Writes a statement in front of `rest`. -/
def Stmt.charsThen : Stmt → List Char → List Char
  | .expression e, rest => "(; ".toList ++ e.charsThen (')' :: rest)
  | .print e, rest => "(print ".toList ++ e.charsThen (')' :: rest)
  | .varDecl name initializer, rest =>
    "(var ".toList ++ (name.lexeme.toList ++ Expr.optionThen initializer (')' :: rest))
  | .block statements, rest => "(block".toList ++ Stmt.eachThen statements (')' :: rest)
  | .ifElse condition thenBranch elseBranch, rest =>
    "(if ".toList ++ condition.charsThen
      (' ' :: thenBranch.charsThen (Stmt.optionThen elseBranch (')' :: rest)))
  | .whileLoop condition body, rest =>
    "(while ".toList ++ condition.charsThen (' ' :: body.charsThen (')' :: rest))
  | .breakOut _, rest => "(break)".toList ++ rest
  | .funDecl name params body, rest =>
    "(fun ".toList ++ (name.lexeme.toList ++ " (".toList ++
      lexemesThen params (')' :: Stmt.eachThen body (')' :: rest)))
  | .giveBack _ value, rest => "(return".toList ++ Expr.optionThen value (')' :: rest)

/-- Writes statements in front of `rest`, a blank before each. -/
def Stmt.eachThen : List Stmt → List Char → List Char
  | [], rest => rest
  | s :: ss, rest => ' ' :: s.charsThen (Stmt.eachThen ss rest)

/-- Writes a statement and a blank before it, if there is one, in front of `rest`. -/
def Stmt.optionThen : Option Stmt → List Char → List Char
  | none, rest => rest
  | some s, rest => ' ' :: s.charsThen rest

end

/-- The parenthesised form of an expression. -/
def Expr.text (e : Expr) : String :=
  String.ofList (e.charsThen [])

/-- The parenthesised form of a statement. -/
def Stmt.text (s : Stmt) : String :=
  String.ofList (s.charsThen [])

end GradedScript
