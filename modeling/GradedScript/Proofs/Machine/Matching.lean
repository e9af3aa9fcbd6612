import GradedScript.Machine.Basic
import GradedScript.Proofs.Tree.Roles
import Mathlib.Data.List.Forall2

/-!
# Matching trees and values

Two runs are compared by comparing what they work on. Trees match when they have the same shape and
their tokens match, each in the role it plays; values match when they have the same shape, their
functions have matching bodies, and the scopes and identities in them correspond. A property of the
tokens of one tree (`Expr.Every`, `Stmt.Every`) is the special case of a tree that matches itself.
-/

namespace GradedScript

/-! ## Matching trees -/

/-- When two tokens match in a role. They are of one kind and have one text, but may stand at
different positions. -/
structure TokenMatch where
  Rel : Role → Token → Token → Prop
  kind_eq : ∀ {role t t'}, Rel role t t' → t.kind = t'.kind
  lexeme_eq : ∀ {role t t'}, Rel role t t' → t.lexeme = t'.lexeme

/-- A token matches itself only, and only if it has a property. -/
def TokenMatch.only (P : Role → Token → Prop) : TokenMatch where
  Rel role t t' := t = t' ∧ P role t
  kind_eq h := by rw [h.1]
  lexeme_eq h := by rw [h.1]

/-- Expressions that match: the same but for the positions of tokens. -/
inductive Expr.Matches (T : TokenMatch) : Expr → Expr → Prop
  | literal (value line line') : Matches T (.literal value line) (.literal value line')
  | grouping {inner inner'} (hinner : Matches T inner inner') :
      Matches T (.grouping inner) (.grouping inner')
  | unary {operator operator' right right'} (hop : T.Rel .unary operator operator')
      (hright : Matches T right right') : Matches T (.unary operator right) (.unary operator' right')
  | binary {left left' operator operator' right right'} (hleft : Matches T left left')
      (hop : T.Rel .binary operator operator') (hright : Matches T right right') :
      Matches T (.binary left operator right) (.binary left' operator' right')
  | logical {left left' operator operator' right right'} (hleft : Matches T left left')
      (hop : T.Rel .logical operator operator') (hright : Matches T right right') :
      Matches T (.logical left operator right) (.logical left' operator' right')
  | var {name name'} (hname : T.Rel .read name name') : Matches T (.var name) (.var name')
  | assign {name name' value value'} (hname : T.Rel .assigned name name')
      (hvalue : Matches T value value') : Matches T (.assign name value) (.assign name' value')
  | call {callee callee' paren paren' arguments arguments'} (hcallee : Matches T callee callee')
      (hparen : T.Rel .paren paren paren') (hlength : arguments.length = arguments'.length)
      (hall : ∀ e e', (e, e') ∈ arguments.zip arguments' → Matches T e e') :
      Matches T (.call callee paren arguments) (.call callee' paren' arguments')

/-- Statements at a place that match. -/
inductive Stmt.Matches (T : TokenMatch) : Place → Stmt → Stmt → Prop
  | expression {p e e'} (he : e.Matches T e') : Matches T p (.expression e) (.expression e')
  | print {p e e'} (he : e.Matches T e') : Matches T p (.print e) (.print e')
  | varDecl {p name name' initializer initializer'} (hname : T.Rel .variableName name name')
      (hinit : Option.Rel (Expr.Matches T) initializer initializer') :
      Matches T p (.varDecl name initializer) (.varDecl name' initializer')
  | block {p statements statements'} (hlength : statements.length = statements'.length)
      (hall : ∀ s s', (s, s') ∈ statements.zip statements' → Matches T p s s') :
      Matches T p (.block statements) (.block statements')
  | ifThen {p condition condition' thenBranch thenBranch'}
      (hcond : condition.Matches T condition') (hthen : Matches T p thenBranch thenBranch') :
      Matches T p (.ifElse condition thenBranch none) (.ifElse condition' thenBranch' none)
  | ifElse {p condition condition' thenBranch thenBranch' elseBranch elseBranch'}
      (hcond : condition.Matches T condition') (hthen : Matches T p thenBranch thenBranch')
      (helse : Matches T p elseBranch elseBranch') :
      Matches T p (.ifElse condition thenBranch (some elseBranch))
        (.ifElse condition' thenBranch' (some elseBranch'))
  | whileLoop {p condition condition' body body'} (hcond : condition.Matches T condition')
      (hbody : Matches T p.loopBody body body') :
      Matches T p (.whileLoop condition body) (.whileLoop condition' body')
  | breakOut {p keyword keyword'} (hkey : T.Rel (.breakAt p.inLoop) keyword keyword') :
      Matches T p (.breakOut keyword) (.breakOut keyword')
  | funDecl {p name name' params params' body body'} (hname : T.Rel .functionName name name')
      (hparams : List.Forall₂ (T.Rel .parameter) params params')
      (hlength : body.length = body'.length)
      (hbody : ∀ s s', (s, s') ∈ body.zip body' → Matches T .body s s') :
      Matches T p (.funDecl name params body) (.funDecl name' params' body')
  | giveBack {p keyword keyword' value value'}
      (hkey : T.Rel (.returnAt p.inFunction) keyword keyword')
      (hvalue : Option.Rel (Expr.Matches T) value value') :
      Matches T p (.giveBack keyword value) (.giveBack keyword' value')

section

variable {P : Role → Token → Prop}

/-- A list zipped with itself pairs equal members. -/
theorem mem_zip_self {α : Type} {l : List α} {a b : α} (h : (a, b) ∈ l.zip l) : a = b ∧ a ∈ l := by
  induction l with
  | nil => simp at h
  | cons c l ih =>
    rcases List.mem_cons.1 h with h | h
    · cases h
      exact ⟨rfl, List.mem_cons_self⟩
    · exact ⟨(ih h).1, List.mem_cons_of_mem c (ih h).2⟩

/-- In lists of one length each member of the first is paired with one of the second. -/
theorem exists_mem_zip {α β : Type} {l : List α} {l' : List β} (hlength : l.length = l'.length)
    {a : α} (ha : a ∈ l) : ∃ b, (a, b) ∈ l.zip l' := by
  obtain ⟨i, hi, rfl⟩ := List.mem_iff_getElem.1 ha
  exact ⟨l'[i], List.mem_iff_getElem.2 ⟨i, by simp [← hlength, hi], by simp⟩⟩

/-- An expression whose tokens all have a property matches itself. -/
theorem Expr.Every.matches_self {e : Expr} (h : e.Every P) : e.Matches (.only P) e := by
  induction h with
  | literal value line => exact .literal value line line
  | grouping _ ih => exact .grouping ih
  | unary hop _ ih => exact .unary ⟨rfl, hop⟩ ih
  | binary _ hop _ ihl ihr => exact .binary ihl ⟨rfl, hop⟩ ihr
  | logical _ hop _ ihl ihr => exact .logical ihl ⟨rfl, hop⟩ ihr
  | var hname => exact .var ⟨rfl, hname⟩
  | assign hname _ ih => exact .assign ⟨rfl, hname⟩ ih
  | call _ hparen _ ihc ihargs =>
    refine .call ihc ⟨rfl, hparen⟩ rfl ?_
    intro e e' he
    obtain ⟨rfl, hmem⟩ := mem_zip_self he
    exact ihargs e hmem

/-- An optional expression whose tokens all have a property matches itself. -/
theorem Expr.Every.option_matches_self {e? : Option Expr} (h : ∀ e ∈ e?, Expr.Every P e) :
    Option.Rel (Expr.Matches (.only P)) e? e? := by
  cases e? with
  | none => exact .none
  | some e => exact .some (h e rfl).matches_self

/-- A statement whose tokens all have a property matches itself. -/
theorem Stmt.Every.matches_self {p : Place} {s : Stmt} (h : s.Every P p) :
    s.Matches (.only P) p s := by
  induction h with
  | expression he => exact .expression he.matches_self
  | print he => exact .print he.matches_self
  | varDecl hname hinit => exact .varDecl ⟨rfl, hname⟩ (Expr.Every.option_matches_self hinit)
  | block _ ih =>
    refine .block rfl ?_
    intro s s' hs
    obtain ⟨rfl, hmem⟩ := mem_zip_self hs
    exact ih s hmem
  | @ifElse p condition thenBranch elseBranch hcond _ _ ihthen ihelse =>
    cases elseBranch with
    | none => exact .ifThen hcond.matches_self ihthen
    | some elseBranch => exact .ifElse hcond.matches_self ihthen (ihelse elseBranch rfl)
  | whileLoop hcond _ ih => exact .whileLoop hcond.matches_self ih
  | breakOut hkey => exact .breakOut ⟨rfl, hkey⟩
  | funDecl hname hparams _ ih =>
    refine .funDecl ⟨rfl, hname⟩ (List.forall₂_same.2 ?_) rfl ?_
    · intro t ht
      exact ⟨rfl, hparams t ht⟩
    · intro s s' hs
      obtain ⟨rfl, hmem⟩ := mem_zip_self hs
      exact ih s hmem
  | giveBack hkey hvalue => exact .giveBack ⟨rfl, hkey⟩ (Expr.Every.option_matches_self hvalue)

end

/-! ## Matching values -/

/-- Whether a built-in function belongs to the language. -/
def Native.isInstalled : Native → Bool
  | .host _ => false
  | _ => true

/-- How the scopes and the identities in two values correspond. -/
structure Links where
  scopes : ScopeId → ScopeId → Prop
  identities : Nat → Nat → Prop

/-- Functions that match: the same built-in one, or matching declarations in corresponding
scopes. -/
inductive Function.Matches (T : TokenMatch) (L : Links) : Function → Function → Prop
  | script {i i' name name' params params' body body' closure closure'}
      (hid : L.identities i i') (hname : T.Rel .functionName name name')
      (hparams : List.Forall₂ (T.Rel .parameter) params params')
      (hbody : List.Forall₂ (Stmt.Matches T .body) body body')
      (hclosure : L.scopes closure closure') :
      Matches T L ⟨i, .script name params body closure⟩ ⟨i', .script name' params' body' closure'⟩
  | native {i i' name arity native} (hid : L.identities i i')
      (hnative : native.isInstalled = true) :
      Matches T L ⟨i, .native name arity native⟩ ⟨i', .native name arity native⟩

/-- Values that match. -/
inductive Value.Matches (T : TokenMatch) (L : Links) : Value → Value → Prop
  | nil : Matches T L .nil .nil
  | bool (value) : Matches T L (.bool value) (.bool value)
  | number (value) : Matches T L (.number value) (.number value)
  | string (value) : Matches T L (.string value) (.string value)
  | function {f f'} (hf : Function.Matches T L f f') : Matches T L (.function f) (.function f')
  | testCase {i i' name arguments arguments' expected expected'} (hid : L.identities i i')
      (hlength : arguments.length = arguments'.length)
      (hall : ∀ v v', (v, v') ∈ arguments.zip arguments' → Matches T L v v')
      (hexpected : Matches T L expected expected') :
      Matches T L (.testCase i name arguments expected) (.testCase i' name arguments' expected')

/-- Ways to end that match. -/
inductive Flow.Matches (T : TokenMatch) (L : Links) : Flow → Flow → Prop
  | normal : Matches T L .normal .normal
  | broke : Matches T L .broke .broke
  | returned {v v'} (hv : Value.Matches T L v v') : Matches T L (.returned v) (.returned v')

section

variable {T : TokenMatch} {L L' : Links}

theorem Function.Matches.arity_eq {f f' : Function} (h : f.Matches T L f') : f.arity = f'.arity := by
  cases h with
  | script _ _ hparams _ _ => simp [Function.arity, hparams.length_eq]
  | native _ _ => rfl

theorem Function.Matches.text_eq {f f' : Function} (h : f.Matches T L f') : f.text = f'.text := by
  cases h with
  | script _ hname _ _ _ => simp [Function.text, T.lexeme_eq hname]
  | native _ _ => rfl

theorem Function.Matches.identities {f f' : Function} (h : f.Matches T L f') :
    L.identities f.identity f'.identity := by
  cases h with
  | script hid _ _ _ _ => exact hid
  | native hid _ => exact hid

theorem Function.Matches.mono (hs : ∀ c c', L.scopes c c' → L'.scopes c c')
    (hi : ∀ i i', L.identities i i' → L'.identities i i') {f f' : Function}
    (h : f.Matches T L f') : f.Matches T L' f' := by
  cases h with
  | script hid hname hparams hbody hclosure =>
    exact .script (hi _ _ hid) hname hparams hbody (hs _ _ hclosure)
  | native hid hnative => exact .native (hi _ _ hid) hnative

/-- Matching survives when the correspondence grows. -/
theorem Value.Matches.mono (hs : ∀ c c', L.scopes c c' → L'.scopes c c')
    (hi : ∀ i i', L.identities i i' → L'.identities i i') {v v' : Value}
    (h : v.Matches T L v') : v.Matches T L' v' := by
  induction h with
  | nil => exact .nil
  | bool value => exact .bool value
  | number value => exact .number value
  | string value => exact .string value
  | function hf => exact .function (hf.mono hs hi)
  | testCase hid hlength _ _ ihargs ihexp => exact .testCase (hi _ _ hid) hlength ihargs ihexp

theorem Flow.Matches.mono (hs : ∀ c c', L.scopes c c' → L'.scopes c c')
    (hi : ∀ i i', L.identities i i' → L'.identities i i') {f f' : Flow}
    (h : f.Matches T L f') : f.Matches T L' f' := by
  cases h with
  | normal => exact .normal
  | broke => exact .broke
  | returned hv => exact .returned (hv.mono hs hi)

theorem Value.Matches.truthy_eq {v v' : Value} (h : v.Matches T L v') :
    v.truthy = v'.truthy := by
  cases h <;> rfl

theorem Value.Matches.text_eq {v v' : Value} (h : v.Matches T L v') : v.text = v'.text := by
  cases h with
  | function hf => exact hf.text_eq
  | _ => rfl

/-- Matching values are equal to matching values alike, if identities correspond one to one. -/
theorem Value.Matches.equals_eq
    (hinj : ∀ i i' j j', L.identities i i' → L.identities j j' → (i = j ↔ i' = j'))
    {v v' u u' : Value} (hv : v.Matches T L v') (hu : u.Matches T L u') :
    v.equals u = v'.equals u' := by
  cases hv with
  | function hf =>
    cases hu with
    | function hg =>
      simp only [Value.equals, Bool.beq_eq_decide_eq]
      exact decide_eq_decide.2 (hinj _ _ _ _ hf.identities hg.identities)
    | _ => rfl
  | testCase hid _ _ _ =>
    cases hu with
    | testCase hid' _ _ _ =>
      simp only [Value.equals, Bool.beq_eq_decide_eq]
      exact decide_eq_decide.2 (hinj _ _ _ _ hid hid')
    | _ => rfl
  | _ => cases hu <;> rfl

/-- The value a call yields matches when the way its body ended does. -/
theorem Flow.Matches.result {f f' : Flow} (h : f.Matches T L f') :
    f.result.Matches T L f'.result := by
  cases h with
  | normal => exact .nil
  | broke => exact .nil
  | returned hv => exact hv

end

end GradedScript
