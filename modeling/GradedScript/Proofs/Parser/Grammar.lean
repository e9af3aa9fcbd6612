import GradedScript.Proofs.Tree.Roles

/-!
# The grammar

Which token lists are expressions, statements and programs, and of which trees. The grammar is
stratified: assignment, to the right and to a bare name only, lies over six levels of operators that
group to the left, which lie over unary operators, calls and primaries. `break` needs a loop around
it in its function and `return` a function, an `else` goes with the nearest `if`, and a `for` loop
has the tree of a `while` loop.
-/

namespace GradedScript.Grammar

/-! ## Expressions -/

/-- The levels of operators, loosest first; unary operators bind tightest. -/
inductive Level where
  | disjunction
  | conjunction
  | equality
  | comparison
  | term
  | factor
  | unary
deriving DecidableEq

/-- The operators that join operands on a level. -/
def Level.operators : Level → List Kind
  | .disjunction => [.kwOr]
  | .conjunction => [.kwAnd]
  | .equality => [.bangEqual, .equalEqual]
  | .comparison => [.greater, .greaterEqual, .less, .lessEqual]
  | .term => [.minus, .plus]
  | .factor => [.slash, .star]
  | .unary => []

/-- The level of the operands of a level. -/
def Level.tighter : Level → Level
  | .disjunction => .conjunction
  | .conjunction => .equality
  | .equality => .comparison
  | .comparison => .term
  | .term => .factor
  | .factor => .unary
  | .unary => .unary

/-- The tree of two operands joined on a level. -/
def Level.join : Level → Expr → Token → Expr → Expr
  | .disjunction => .logical
  | .conjunction => .logical
  | _ => .binary

/-- The most parameters of a function and arguments of a call. -/
def maxCount : Nat := 255

mutual

/-- An assignment to a name, or operands joined by operators. -/
inductive Expression : List Token → Expr → Prop
  | assign {name equals ts value} (hname : name.kind = .identifier)
      (hequals : equals.kind = .equal) (hvalue : Expression ts value) :
      Expression (name :: equals :: ts) (.assign name value)
  | plain {ts e} (h : Tier .disjunction ts e) : Expression ts e

/-- Operands of a level, joined to the left by its operators. -/
inductive Tier : Level → List Token → Expr → Prop
  | operand {level ts e} (hlevel : level ≠ .unary) (h : Tier level.tighter ts e) : Tier level ts e
  | join {level xs x operator ys y} (hleft : Tier level xs x)
      (hop : operator.kind ∈ level.operators) (hright : Tier level.tighter ys y) :
      Tier level (xs ++ operator :: ys) (level.join x operator y)
  | unary {operator ts e} (hop : operator.kind ∈ [Kind.bang, Kind.minus]) (h : Tier .unary ts e) :
      Tier .unary (operator :: ts) (.unary operator e)
  | call {ts e} (h : Call ts e) : Tier .unary ts e

/-- A primary, called any number of times. -/
inductive Call : List Token → Expr → Prop
  | primary {ts e} (h : Primary ts e) : Call ts e
  | empty {ts callee left right} (hcallee : Call ts callee) (hleft : left.kind = .leftParen)
      (hright : right.kind = .rightParen) : Call (ts ++ [left, right]) (.call callee right [])
  | call {ts callee left as arguments right} (hcallee : Call ts callee)
      (hleft : left.kind = .leftParen) (harguments : Arguments as arguments)
      (hcount : arguments.length ≤ maxCount) (hright : right.kind = .rightParen) :
      Call (ts ++ left :: (as ++ [right])) (.call callee right arguments)

/-- One or more expressions with commas between them. -/
inductive Arguments : List Token → List Expr → Prop
  | one {ts e} (h : Expression ts e) : Arguments ts [e]
  | more {ts e comma us es} (h : Expression ts e) (hcomma : comma.kind = .comma)
      (hrest : Arguments us es) : Arguments (ts ++ comma :: us) (e :: es)

/-- A literal, a name, or an expression in parentheses. -/
inductive Primary : List Token → Expr → Prop
  | false {t} (hkind : t.kind = .kwFalse) : Primary [t] (.literal (.bool false) t.line)
  | true {t} (hkind : t.kind = .kwTrue) : Primary [t] (.literal (.bool true) t.line)
  | nil {t} (hkind : t.kind = .kwNil) : Primary [t] (.literal .nil t.line)
  | value {t v} (hkind : t.kind = .number ∨ t.kind = .string) (hvalue : t.literal = some v) :
      Primary [t] (.literal v t.line)
  | name {t} (hkind : t.kind = .identifier) : Primary [t] (.var t)
  | group {left ts e right} (hleft : left.kind = .leftParen) (h : Expression ts e)
      (hright : right.kind = .rightParen) : Primary (left :: (ts ++ [right])) (.grouping e)

end

/-- An expression or nothing. -/
inductive OptionalExpression : List Token → Option Expr → Prop
  | none : OptionalExpression [] none
  | some {ts e} (h : Expression ts e) : OptionalExpression ts (some e)

/-! ## Parts of statements -/

/-- One or more names with commas between them. -/
inductive Parameters : List Token → List Token → Prop
  | one {t} (hkind : t.kind = .identifier) : Parameters [t] [t]
  | more {t comma us params} (hkind : t.kind = .identifier) (hcomma : comma.kind = .comma)
      (hrest : Parameters us params) : Parameters (t :: comma :: us) (t :: params)

/-- Parameters or nothing. -/
inductive OptionalParameters : List Token → List Token → Prop
  | none : OptionalParameters [] []
  | some {ts params} (h : Parameters ts params) (hcount : params.length ≤ maxCount) :
      OptionalParameters ts params

/-- A variable declaration without its `var`. -/
inductive Variable : List Token → Stmt → Prop
  | plain {name semicolon} (hname : name.kind = .identifier)
      (hsemicolon : semicolon.kind = .semicolon) : Variable [name, semicolon] (.varDecl name none)
  | initialized {name equals ts e semicolon} (hname : name.kind = .identifier)
      (hequals : equals.kind = .equal) (h : Expression ts e)
      (hsemicolon : semicolon.kind = .semicolon) :
      Variable (name :: equals :: (ts ++ [semicolon])) (.varDecl name (some e))

/-- The first clause of a `for` loop, with its semicolon. -/
inductive Initializer : List Token → Option Stmt → Prop
  | none {semicolon} (hsemicolon : semicolon.kind = .semicolon) : Initializer [semicolon] none
  | varDecl {keyword ts s} (hkeyword : keyword.kind = .kwVar) (h : Variable ts s) :
      Initializer (keyword :: ts) (some s)
  | expression {ts e semicolon} (h : Expression ts e) (hsemicolon : semicolon.kind = .semicolon) :
      Initializer (ts ++ [semicolon]) (some (.expression e))

/-- The tree of a `for` loop: an absent condition is true, the increment stands after the body in a
block, and an initializer stands before the loop in another. -/
def forTree (line : Nat) (condition : Option Expr) (body : Stmt) :
    (initializer : Option Stmt) → (increment : Option Expr) → Stmt
  | none, none => .whileLoop (condition.getD (.literal (.bool true) line)) body
  | none, some i =>
    .whileLoop (condition.getD (.literal (.bool true) line)) (.block [body, .expression i])
  | some s, none => .block [s, .whileLoop (condition.getD (.literal (.bool true) line)) body]
  | some s, some i =>
    .block [s,
      .whileLoop (condition.getD (.literal (.bool true) line)) (.block [body, .expression i])]

/-! ## Statements and declarations -/

mutual

/-- Statements at a place. The flag tells whether one ends in an `if` without `else`, so that an
`else` behind it would belong to that. -/
inductive Statement : Place → (isOpen : Bool) → List Token → Stmt → Prop
  | expression {p ts e semicolon} (h : Expression ts e) (hsemicolon : semicolon.kind = .semicolon) :
      Statement p false (ts ++ [semicolon]) (.expression e)
  | print {p keyword ts e semicolon} (hkeyword : keyword.kind = .kwPrint) (h : Expression ts e)
      (hsemicolon : semicolon.kind = .semicolon) :
      Statement p false (keyword :: (ts ++ [semicolon])) (.print e)
  | breakOut {p keyword semicolon} (hloop : p.inLoop = true) (hkeyword : keyword.kind = .kwBreak)
      (hsemicolon : semicolon.kind = .semicolon) :
      Statement p false [keyword, semicolon] (.breakOut keyword)
  | giveBack {p keyword ts value semicolon} (hfunction : p.inFunction = true)
      (hkeyword : keyword.kind = .kwReturn) (h : OptionalExpression ts value)
      (hsemicolon : semicolon.kind = .semicolon) :
      Statement p false (keyword :: (ts ++ [semicolon])) (.giveBack keyword value)
  | block {p left ts statements right} (hleft : left.kind = .leftBrace)
      (h : Declarations p ts statements) (hright : right.kind = .rightBrace) :
      Statement p false (left :: (ts ++ [right])) (.block statements)
  | ifThen {p isOpen keyword left cs condition right ts s} (hkeyword : keyword.kind = .kwIf)
      (hleft : left.kind = .leftParen) (hcondition : Expression cs condition)
      (hright : right.kind = .rightParen) (hthen : Statement p isOpen ts s) :
      Statement p true (keyword :: left :: (cs ++ right :: ts)) (.ifElse condition s none)
  | ifElse {p isOpen keyword left cs condition right ts s other us s'}
      (hkeyword : keyword.kind = .kwIf) (hleft : left.kind = .leftParen)
      (hcondition : Expression cs condition) (hright : right.kind = .rightParen)
      (hthen : Statement p false ts s) (hother : other.kind = .kwElse)
      (helse : Statement p isOpen us s') :
      Statement p isOpen (keyword :: left :: (cs ++ right :: (ts ++ other :: us)))
        (.ifElse condition s (some s'))
  | whileLoop {p isOpen keyword left cs condition right ts s} (hkeyword : keyword.kind = .kwWhile)
      (hleft : left.kind = .leftParen) (hcondition : Expression cs condition)
      (hright : right.kind = .rightParen) (hbody : Statement p.loopBody isOpen ts s) :
      Statement p isOpen (keyword :: left :: (cs ++ right :: ts)) (.whileLoop condition s)
  | forLoop {p isOpen keyword left is initializer cs condition semicolon us increment right ts s}
      (hkeyword : keyword.kind = .kwFor) (hleft : left.kind = .leftParen)
      (hinitializer : Initializer is initializer) (hcondition : OptionalExpression cs condition)
      (hsemicolon : semicolon.kind = .semicolon) (hincrement : OptionalExpression us increment)
      (hright : right.kind = .rightParen) (hbody : Statement p.loopBody isOpen ts s) :
      Statement p isOpen (keyword :: left :: (is ++ (cs ++ semicolon :: (us ++ right :: ts))))
        (forTree keyword.line condition s initializer increment)

/-- Declarations of functions and variables, and statements. -/
inductive Declaration : Place → List Token → Stmt → Prop
  | function {p keyword name left ps params right brace ts body close}
      (hkeyword : keyword.kind = .kwFun) (hname : name.kind = .identifier)
      (hleft : left.kind = .leftParen) (hparams : OptionalParameters ps params)
      (hright : right.kind = .rightParen) (hbrace : brace.kind = .leftBrace)
      (hbody : Declarations .body ts body) (hclose : close.kind = .rightBrace) :
      Declaration p (keyword :: name :: left :: (ps ++ right :: brace :: (ts ++ [close])))
        (.funDecl name params body)
  | varDecl {p keyword ts s} (hkeyword : keyword.kind = .kwVar) (h : Variable ts s) :
      Declaration p (keyword :: ts) s
  | statement {p isOpen ts s} (h : Statement p isOpen ts s) : Declaration p ts s

/-- Any number of declarations. -/
inductive Declarations : Place → List Token → List Stmt → Prop
  | nil {p} : Declarations p [] []
  | cons {p ts s us statements} (h : Declaration p ts s) (hrest : Declarations p us statements) :
      Declarations p (ts ++ us) (s :: statements)

end

/-- The grammar derives a program from its tokens: declarations and the end token. -/
inductive Derives : List Token → List Stmt → Prop
  | mk {ts statements stop} (h : Declarations .top ts statements) (hstop : stop.kind = .eof) :
      Derives (ts ++ [stop]) statements

end GradedScript.Grammar
