import GradedScript.Token

/-!
# Syntax trees

Expressions and statements of a script. Operators, names and keywords are kept as the tokens they
were written with, so that a fault found later can point at them.
-/

namespace GradedScript

/-- An expression. -/
inductive Expr where
  | literal (value : Literal) (line : Nat)
  | grouping (inner : Expr)
  | unary (operator : Token) (right : Expr)
  | binary (left : Expr) (operator : Token) (right : Expr)
  | logical (left : Expr) (operator : Token) (right : Expr)
  | var (name : Token)
  | assign (name : Token) (value : Expr)
  /-- `paren` is the closing parenthesis -/
  | call (callee : Expr) (paren : Token) (arguments : List Expr)
deriving Inhabited

/-- A statement. -/
inductive Stmt where
  | expression (expression : Expr)
  | print (expression : Expr)
  | varDecl (name : Token) (initializer : Option Expr)
  | block (statements : List Stmt)
  | ifElse (condition : Expr) (thenBranch : Stmt) (elseBranch : Option Stmt)
  | whileLoop (condition : Expr) (body : Stmt)
  | breakOut (keyword : Token)
  | funDecl (name : Token) (params : List Token) (body : List Stmt)
  | giveBack (keyword : Token) (value : Option Expr)
deriving Inhabited

end GradedScript
