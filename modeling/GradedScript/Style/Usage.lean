import GradedScript.Text.Names
import GradedScript.Tree

/-!
# How a program uses names and numbers

`Usage` holds the facts that a program's style is graded on: which names it writes and reads, which
parameters its functions read, how many `if` statements lack an `else`, and which numbers stand
outside the values given to variables. `Usage.addProgram` adds the facts of a program to those
gathered before.
-/

namespace GradedScript

/-- A number in the source and its line. -/
structure NumberUse where
  value : Float
  line : Nat
deriving Inhabited

/-- A declared function: its parameters, and those that its own body reads. -/
structure FunctionUse where
  name : String
  params : List String
  paramsRead : List String := []
deriving Inhabited

/-- The parameters that are not read, in their order. -/
def FunctionUse.unusedParams (f : FunctionUse) : List String :=
  f.params.filter fun p => !f.paramsRead.contains p

/-- The facts about a program. The lists of names hold each name once. -/
structure Usage where
  writes : List String := []
  reads : List String := []
  /-- the functions, in the order of their declarations -/
  functions : Array FunctionUse := #[]
  ifCount : Nat := 0
  ifWithoutElse : Nat := 0
  /-- the numbers outside initializers and assigned values, in order -/
  numbers : Array NumberUse := #[]
deriving Inhabited

namespace Usage

/-- Notes that a name is written. -/
def addWrite (u : Usage) (name : String) : Usage :=
  { u with writes := addName name u.writes }

/-- A read of a name counts for a function if it is one of its parameters. -/
def noteParam (name : String) (f : FunctionUse) : FunctionUse :=
  if f.params.contains name then { f with paramsRead := addName name f.paramsRead } else f

/-- Notes that a name is read, in the body of the function with index `owner` if there is one. -/
def addRead (u : Usage) (owner : Option Nat) (name : String) : Usage :=
  let u := { u with reads := addName name u.reads }
  match owner with
  | some index => { u with functions := u.functions.modify index (noteParam name) }
  | none => u

/-- Notes a number, unless it is part of a value given to a variable. -/
def addLiteral (u : Usage) (given : Bool) (literal : Literal) (line : Nat) : Usage :=
  match literal with
  | .number value => if given then u else { u with numbers := u.numbers.push ⟨value, line⟩ }
  | _ => u

/-- Notes an `if` statement. -/
def addIf (u : Usage) (hasElse : Bool) : Usage :=
  { u with
    ifCount := u.ifCount + 1
    ifWithoutElse := if hasElse then u.ifWithoutElse else u.ifWithoutElse + 1 }

/-- Notes a function, none of whose parameters is read yet. -/
def addFunction (u : Usage) (name : Token) (params : List Token) : Usage :=
  { u with functions := u.functions.push { name := name.lexeme, params := params.map Token.lexeme } }

mutual

/-- Adds the facts of an expression; `given` says that it is part of a value given to a
variable. -/
def addExpr (owner : Option Nat) (given : Bool) : Expr → Usage → Usage
  | .literal value line, u => u.addLiteral given value line
  | .grouping inner, u => addExpr owner given inner u
  | .unary _ right, u => addExpr owner given right u
  | .binary left _ right, u => addExpr owner given right (addExpr owner given left u)
  | .logical left _ right, u => addExpr owner given right (addExpr owner given left u)
  | .var name, u => u.addRead owner name.lexeme
  | .assign name value, u => addExpr owner true value (u.addWrite name.lexeme)
  | .call callee _ arguments, u => addExprs owner given arguments (addExpr owner given callee u)

/-- Adds the facts of expressions. -/
def addExprs (owner : Option Nat) (given : Bool) : List Expr → Usage → Usage
  | [], u => u
  | e :: es, u => addExprs owner given es (addExpr owner given e u)

end

/-- Adds the facts of an expression, if there is one. -/
def addExpr? (owner : Option Nat) (given : Bool) : Option Expr → Usage → Usage
  | none, u => u
  | some e, u => addExpr owner given e u

mutual

/-- Adds the facts of a statement in the body of the function with index `owner`, if there is
one. -/
def addStmt (owner : Option Nat) : Stmt → Usage → Usage
  | .expression e, u => addExpr owner false e u
  | .print e, u => addExpr owner false e u
  | .varDecl name initializer, u => addExpr? owner true initializer (u.addWrite name.lexeme)
  | .block statements, u => addStmts owner statements u
  | .ifElse condition thenBranch elseBranch, u =>
    addStmt? owner elseBranch
      (addStmt owner thenBranch (addExpr owner false condition (u.addIf elseBranch.isSome)))
  | .whileLoop condition body, u => addStmt owner body (addExpr owner false condition u)
  | .breakOut _, u => u
  | .funDecl name params body, u =>
    addStmts (some u.functions.size) body (u.addFunction name params)
  | .giveBack _ value, u => addExpr? owner false value u

/-- Adds the facts of statements. -/
def addStmts (owner : Option Nat) : List Stmt → Usage → Usage
  | [], u => u
  | s :: ss, u => addStmts owner ss (addStmt owner s u)

/-- Adds the facts of a statement, if there is one. -/
def addStmt? (owner : Option Nat) : Option Stmt → Usage → Usage
  | none, u => u
  | some s, u => addStmt owner s u

end

/-- Adds the facts of a program. -/
def addProgram (u : Usage) (statements : List Stmt) : Usage :=
  addStmts none statements u

/-- The facts of a program. -/
def ofProgram (statements : List Stmt) : Usage :=
  ({} : Usage).addProgram statements

end Usage

end GradedScript
