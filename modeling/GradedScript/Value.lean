import GradedScript.Tree

/-!
# Values

What expressions evaluate to. Functions and test cases have an identity, given when they are made:
two of them are equal only if they are the same one.
-/

namespace GradedScript

/-- The index of a scope in its store. -/
abbrev ScopeId := Nat

/-- How many arguments a function takes. -/
inductive Arity where
  | fixed (count : Nat)
  /-- the function checks its arguments itself -/
  | variadic
deriving DecidableEq, Inhabited

/-- Whether a number of arguments will do. -/
def Arity.accepts : Arity → Nat → Bool
  | .fixed count, given => count == given
  | .variadic, _ => true

/-- What a built-in function does. -/
inductive Native where
  | clock
  | testCase
  | runTests
  /-- an action of the host, by its key -/
  | host (key : String)
deriving DecidableEq, Inhabited

/-- What happens when a function is called. -/
inductive Callable where
  /-- a declared function and the scope it was declared in -/
  | script (name : Token) (params : List Token) (body : List Stmt) (closure : ScopeId)
  | native (name : String) (arity : Arity) (native : Native)
deriving Inhabited

/-- A function with its identity. -/
structure Function where
  identity : Nat
  callable : Callable
deriving Inhabited

/-- The name of a function. -/
def Function.name (f : Function) : String :=
  match f.callable with
  | .script name .. => name.lexeme
  | .native name .. => name

/-- The arity of a function; a declared one takes its parameters. -/
def Function.arity (f : Function) : Arity :=
  match f.callable with
  | .script _ params .. => .fixed params.length
  | .native _ arity _ => arity

/-- The text of a function. -/
def Function.text (f : Function) : String :=
  match f.callable with
  | .script name .. => "<fn " ++ name.lexeme ++ ">"
  | .native name .. => "<native fn " ++ name ++ ">"

/-- A value. -/
inductive Value where
  | nil
  | bool (value : Bool)
  | number (value : Float)
  | string (value : String)
  | function (function : Function)
  /-- a call of the function of that name, and what it should yield -/
  | testCase (identity : Nat) (name : String) (arguments : List Value) (expected : Value)
deriving Inhabited

/-- The value of a literal. -/
def Value.ofLiteral : Literal → Value
  | .number value => .number value
  | .string value => .string value
  | .bool value => .bool value
  | .nil => .nil

/-- Only `nil` and `false` count as false. -/
def Value.truthy : Value → Bool
  | .nil => false
  | .bool value => value
  | _ => true

/-- The text of a value. -/
def Value.text : Value → String
  | .nil => "nil"
  | .bool value => boolText value
  | .number value => numberTextWith "Infinity" value
  | .string value => value
  | .function f => f.text
  | .testCase _ name _ _ => "<test " ++ name ++ ">"

/-- Equality of values. Values of different types differ, and so does NaN from itself. -/
def Value.equals : Value → Value → Bool
  | .nil, .nil => true
  | .bool a, .bool b => a == b
  | .number a, .number b => a == b
  | .string a, .string b => a == b
  | .function f, .function g => f.identity == g.identity
  | .testCase a _ _ _, .testCase b _ _ _ => a == b
  | _, _ => false

end GradedScript
