import GradedScript.Tree

/-!
# Roles of tokens in trees

Every token of a tree plays a role: operator, name, keyword, closing parenthesis. `Expr.Every` and
`Stmt.Every` say that all tokens of a tree have some property in their roles; a statement stands at
a place, which tells whether a loop or a function is around it.
-/

namespace GradedScript

/-! ## Roles of tokens -/

/-- Where a statement stands: inside a loop of its function, and inside a function. -/
structure Place where
  inLoop : Bool
  inFunction : Bool
deriving DecidableEq

namespace Place

/-- Outside of all loops and functions. -/
def top : Place := ⟨false, false⟩

/-- The place of a loop's body. -/
def loopBody (p : Place) : Place := { p with inLoop := true }

/-- The place of a function's body; the loops around the function do not reach into it. -/
def body : Place := ⟨false, true⟩

end Place

/-- The role a token plays in a tree. -/
inductive Role where
  | unary
  | binary
  | logical
  | read
  | assigned
  | variableName
  | functionName
  | parameter
  /-- the closing parenthesis of a call -/
  | paren
  | breakAt (inLoop : Bool)
  | returnAt (inFunction : Bool)
deriving DecidableEq

/-- The kinds a token may have in a role for the machine to know what to do. -/
def Role.admits : Role → Kind → Bool
  | .unary, kind => kind ∈ [.bang, .minus]
  | .binary, kind =>
    kind ∈ [.minus, .slash, .star, .plus, .greater, .greaterEqual, .less, .lessEqual, .equalEqual,
      .bangEqual]
  | .logical, kind => kind ∈ [.kwAnd, .kwOr]
  | _, _ => true

/-- A token fits its role. -/
def Role.Admits (role : Role) (token : Token) : Prop :=
  role.admits token.kind = true

/-! ## Properties of the tokens of a tree -/

/-- Every token of an expression has a property, in its role. -/
inductive Expr.Every (P : Role → Token → Prop) : Expr → Prop
  | literal (value line) : Every P (.literal value line)
  | grouping {inner} (hinner : Every P inner) : Every P (.grouping inner)
  | unary {operator right} (hop : P .unary operator) (hright : Every P right) :
      Every P (.unary operator right)
  | binary {left operator right} (hleft : Every P left) (hop : P .binary operator)
      (hright : Every P right) : Every P (.binary left operator right)
  | logical {left operator right} (hleft : Every P left) (hop : P .logical operator)
      (hright : Every P right) : Every P (.logical left operator right)
  | var {name} (hname : P .read name) : Every P (.var name)
  | assign {name value} (hname : P .assigned name) (hvalue : Every P value) :
      Every P (.assign name value)
  | call {callee paren arguments} (hcallee : Every P callee) (hparen : P .paren paren)
      (harguments : ∀ e ∈ arguments, Every P e) : Every P (.call callee paren arguments)

/-- Every token of a statement has a property, in its role at the place of the statement. -/
inductive Stmt.Every (P : Role → Token → Prop) : Place → Stmt → Prop
  | expression {p e} (he : e.Every P) : Every P p (.expression e)
  | print {p e} (he : e.Every P) : Every P p (.print e)
  | varDecl {p name initializer} (hname : P .variableName name)
      (hinit : ∀ e ∈ initializer, Expr.Every P e) : Every P p (.varDecl name initializer)
  | block {p statements} (hall : ∀ s ∈ statements, Every P p s) : Every P p (.block statements)
  | ifElse {p condition thenBranch elseBranch} (hcond : condition.Every P)
      (hthen : Every P p thenBranch) (helse : ∀ s ∈ elseBranch, Every P p s) :
      Every P p (.ifElse condition thenBranch elseBranch)
  | whileLoop {p condition body} (hcond : condition.Every P) (hbody : Every P p.loopBody body) :
      Every P p (.whileLoop condition body)
  | breakOut {p keyword} (hkey : P (.breakAt p.inLoop) keyword) : Every P p (.breakOut keyword)
  | funDecl {p name params body} (hname : P .functionName name)
      (hparams : ∀ t ∈ params, P .parameter t) (hbody : ∀ s ∈ body, Every P .body s) :
      Every P p (.funDecl name params body)
  | giveBack {p keyword value} (hkey : P (.returnAt p.inFunction) keyword)
      (hvalue : ∀ e ∈ value, Expr.Every P e) : Every P p (.giveBack keyword value)

section

variable {P Q : Role → Token → Prop}

theorem Expr.Every.mono (h : ∀ role t, P role t → Q role t) {e : Expr} (he : e.Every P) :
    e.Every Q := by
  induction he with
  | literal value line => exact .literal value line
  | grouping _ ih => exact .grouping ih
  | unary hop _ ih => exact .unary (h _ _ hop) ih
  | binary _ hop _ ihl ihr => exact .binary ihl (h _ _ hop) ihr
  | logical _ hop _ ihl ihr => exact .logical ihl (h _ _ hop) ihr
  | var hname => exact .var (h _ _ hname)
  | assign hname _ ih => exact .assign (h _ _ hname) ih
  | call _ hparen _ ihc iha => exact .call ihc (h _ _ hparen) iha

theorem Stmt.Every.mono (h : ∀ role t, P role t → Q role t) {p : Place} {s : Stmt}
    (hs : s.Every P p) : s.Every Q p := by
  induction hs with
  | expression he => exact .expression (he.mono h)
  | print he => exact .print (he.mono h)
  | varDecl hname hinit => exact .varDecl (h _ _ hname) fun e he => (hinit e he).mono h
  | block _ ih => exact .block ih
  | ifElse hcond _ _ iht ihe => exact .ifElse (hcond.mono h) iht ihe
  | whileLoop hcond _ ih => exact .whileLoop (hcond.mono h) ih
  | breakOut hkey => exact .breakOut (h _ _ hkey)
  | funDecl hname hparams _ ih => exact .funDecl (h _ _ hname) (fun t ht => h _ _ (hparams t ht)) ih
  | giveBack hkey hvalue => exact .giveBack (h _ _ hkey) fun e he => (hvalue e he).mono h

end

end GradedScript
