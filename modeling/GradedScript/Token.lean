import GradedScript.Decimal.Text

/-!
# Tokens

The words of a script: their kinds, the values that literals carry, and the place in the source
they were read from. `Token.describe` is the one-line form of a token, `keywords` the table of
reserved words.
-/

namespace GradedScript

/-- A stretch of the source, in bytes of its UTF-8 form; `stop` is just past it. -/
structure Span where
  start : Nat
  stop : Nat
deriving DecidableEq, Inhabited

/-- The kind of a token. -/
inductive Kind where
  | leftParen | rightParen | leftBrace | rightBrace
  | comma | dot | minus | plus | semicolon | slash | star
  | bang | bangEqual | equal | equalEqual | greater | greaterEqual | less | lessEqual
  | identifier | string | number
  | kwAnd | kwBreak | kwClass | kwElse | kwFalse | kwFor | kwFun | kwIf | kwNil | kwOr | kwPrint
  | kwReturn | kwSuper | kwThis | kwTrue | kwVar | kwWhile
  | eof
deriving DecidableEq, Inhabited

/-- The name of a kind. -/
def Kind.name : Kind → String
  | .leftParen => "LeftParen"
  | .rightParen => "RightParen"
  | .leftBrace => "LeftBrace"
  | .rightBrace => "RightBrace"
  | .comma => "Comma"
  | .dot => "Dot"
  | .minus => "Minus"
  | .plus => "Plus"
  | .semicolon => "Semicolon"
  | .slash => "Slash"
  | .star => "Star"
  | .bang => "Bang"
  | .bangEqual => "BangEqual"
  | .equal => "Equal"
  | .equalEqual => "EqualEqual"
  | .greater => "Greater"
  | .greaterEqual => "GreaterEqual"
  | .less => "Less"
  | .lessEqual => "LessEqual"
  | .identifier => "Identifier"
  | .string => "String"
  | .number => "Number"
  | .kwAnd => "And"
  | .kwBreak => "Break"
  | .kwClass => "Class"
  | .kwElse => "Else"
  | .kwFalse => "False"
  | .kwFor => "For"
  | .kwFun => "Fun"
  | .kwIf => "If"
  | .kwNil => "Nil"
  | .kwOr => "Or"
  | .kwPrint => "Print"
  | .kwReturn => "Return"
  | .kwSuper => "Super"
  | .kwThis => "This"
  | .kwTrue => "True"
  | .kwVar => "Var"
  | .kwWhile => "While"
  | .eof => "Eof"

/-- Every kind once, in the order of their declaration. -/
def Kind.all : List Kind :=
  [.leftParen, .rightParen, .leftBrace, .rightBrace, .comma, .dot, .minus, .plus, .semicolon,
    .slash, .star, .bang, .bangEqual, .equal, .equalEqual, .greater, .greaterEqual, .less,
    .lessEqual, .identifier, .string, .number, .kwAnd, .kwBreak, .kwClass, .kwElse, .kwFalse, .kwFor, .kwFun,
    .kwIf, .kwNil, .kwOr, .kwPrint, .kwReturn, .kwSuper, .kwThis, .kwTrue, .kwVar, .kwWhile, .eof]

/-- The kind with a given name. -/
def Kind.ofName? (name : String) : Option Kind :=
  Kind.all.find? (·.name == name)

/-- The reserved words and their kinds. -/
def keywords : List (String × Kind) :=
  [("and", .kwAnd), ("break", .kwBreak), ("class", .kwClass), ("else", .kwElse), ("false", .kwFalse),
    ("for", .kwFor), ("fun", .kwFun), ("if", .kwIf), ("nil", .kwNil), ("or", .kwOr), ("print", .kwPrint),
    ("return", .kwReturn), ("super", .kwSuper), ("this", .kwThis), ("true", .kwTrue), ("var", .kwVar),
    ("while", .kwWhile)]

/-- The kind of a word: that of its keyword, or an identifier. -/
def Kind.ofWord (word : String) : Kind :=
  (keywords.lookup word).getD .identifier

/-- A value written in the source. -/
inductive Literal where
  | number (value : Float)
  | string (value : String)
  | bool (value : Bool)
  | nil
deriving Inhabited

/-- The text of a truth value. -/
def boolText (b : Bool) : String :=
  if b then "true" else "false"

/-- The text of a literal; strings are not quoted. -/
def Literal.text : Literal → String
  | .number value => numberText value
  | .string value => value
  | .bool value => boolText value
  | .nil => "nil"

/-- A token: its kind, its text, the value it carries if it is a literal, the line it ends on and
the stretch of source it takes up. -/
structure Token where
  kind : Kind
  lexeme : String
  literal : Option Literal := none
  line : Nat
  span : Span
deriving Inhabited

/-- The one-line form of a token: kind, text and value. -/
def Token.describe (t : Token) : String :=
  let value := match t.literal with
    | some literal => literal.text
    | none => "None"
  t.kind.name ++ " " ++ t.lexeme ++ " " ++ value

end GradedScript
