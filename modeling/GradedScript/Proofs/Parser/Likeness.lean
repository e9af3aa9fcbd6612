import GradedScript.Proofs.Parser.Soundness
import GradedScript.Proofs.Parser.Transport

/-!
# Parsers read lookalikes alike

A parser looks at the kinds and values of tokens and hands tokens on; it never looks at where they
stand. So two parsers that read tokens of the same kinds, texts and values do the same step by step,
failures and recovery included (`Agrees`). In the end they have reported the same faults at tokens
that correspond, and their trees match (`parse_resembles`).

The tokens may correspond in a further relation `P`. A token beside itself that has some property is
a case of it: all tokens that a parser puts into trees or reports have a property if those it reads
have it.
-/

namespace GradedScript

/-! ## Lookalikes

Kinds, texts and values are all that a parser looks at. Of two tokens with the same ones nothing can
be told apart but what is in the further relation. -/

/-- Tokens that no parser can tell apart, and that stand in a further relation. -/
structure Token.Resembles (P : Token → Token → Prop) (t t' : Token) : Prop where
  kind : t.kind = t'.kind
  lexeme : t.lexeme = t'.lexeme
  literal : t.literal = t'.literal
  also : P t t'

/-- Tokens match in any role if they look the same and stand in a further relation. -/
def TokenMatch.lookalike (P : Token → Token → Prop) : TokenMatch where
  Rel _ t t' := t.Resembles P t'
  kind_eq h := h.kind
  lexeme_eq h := h.lexeme

/-- No further relation: the tokens may stand in any place. -/
def anyPlace (_ _ : Token) : Prop :=
  True

/-- Tokens that look the same match, wherever they stand. -/
def anywhere : TokenMatch :=
  .lookalike anyPlace

/-- Statements that match wherever they stand. -/
def Stmt.Resembles (P : Token → Token → Prop) (s s' : Stmt) : Prop :=
  ∀ p, s.Matches (.lookalike P) p s'

/-- The same fault at tokens that look the same. -/
structure ParseError.Resembles (P : Token → Token → Prop) (e e' : ParseError) : Prop where
  fault : e.fault = e'.fault
  token : e.token.Resembles P e'.token

namespace Parser

open Grammar

/-- Parsers at the same place, with lookalikes to read and the same faults reported. -/
structure State.Resembles (P : Token → Token → Prop) (s s' : State) : Prop where
  rest : List.Forall₂ (Token.Resembles P) s.rest s'.rest
  stop : s.stop.Resembles P s'.stop
  errors : List.Forall₂ (ParseError.Resembles P) s.errors.toList s'.errors.toList
  loopDepth : s.loopDepth = s'.loopDepth
  functionDepth : s.functionDepth = s'.functionDepth

/-- Results that agree: both parsers yielded something, or both failed alike. -/
def ResultsAgree {α β : Type} (P : Token → Token → Prop) (Q : α → β → Prop) :
    EStateM.Result ParseError State α → EStateM.Result ParseError State β → Prop
  | .ok a s, .ok b s' => Q a b ∧ s.Resembles P s'
  | .error e s, .error e' s' => e.Resembles P e' ∧ s.Resembles P s'
  | _, _ => False

/-- Parsers that agree wherever they stand alike. -/
def Agrees {α β : Type} (P : Token → Token → Prop) (Q : α → β → Prop) (p : Parser α)
    (p' : Parser β) : Prop :=
  ∀ s s', s.Resembles P s' → ResultsAgree P Q (p s) (p' s')

section

variable {P : Token → Token → Prop} {α β γ δ : Type} {Q : α → β → Prop} {Q' : γ → δ → Prop}
  {p : Parser α} {p' : Parser β} {t t' : Token}

/-! ## Steps

Parsers are made of few steps, and each does the same before tokens that look the same. What they
yield is related, too: tokens resemble each other, and what is found out about them is equal. -/

/-- Both parsers have a next token, or none has. -/
theorem State.Resembles.rest_cases {s s' : State} (h : s.Resembles P s') :
    (s.rest = [] ∧ s'.rest = []) ∨ ∃ t t' ts ts', s.rest = t :: ts ∧ s'.rest = t' :: ts' ∧
      t.Resembles P t' ∧ List.Forall₂ (Token.Resembles P) ts ts' := by
  have hrest := h.rest
  revert hrest
  cases s.rest with
  | nil =>
    intro hrest
    exact .inl ⟨rfl, List.forall₂_nil_left_iff.1 hrest⟩
  | cons t ts =>
    intro hrest
    obtain ⟨t', ts', ht, hts, heq⟩ := List.forall₂_cons_left_iff.1 hrest
    exact .inr ⟨t, t', ts, ts', rfl, heq, ht, hts⟩

/-- The same fault is reported at tokens that resemble each other. -/
theorem State.Resembles.report {s s' : State} (h : s.Resembles P s') {e e' : ParseError}
    (he : e.Resembles P e') :
    State.Resembles P { s with errors := s.errors.push e }
      { s' with errors := s'.errors.push e' } where
  rest := h.rest
  stop := h.stop
  errors := by
    rw [Array.toList_push, Array.toList_push]
    exact List.rel_append h.errors (.cons he .nil)
  loopDepth := h.loopDepth
  functionDepth := h.functionDepth

theorem Agrees.pure {a : α} {b : β} (h : Q a b) : Agrees P Q (pure a) (pure b) :=
  fun _ _ hs => ⟨h, hs⟩

/-- Results that agree are both of them results, or both failures. -/
theorem ResultsAgree.cases {r : EStateM.Result ParseError State α}
    {r' : EStateM.Result ParseError State β} (h : ResultsAgree P Q r r') :
    (∃ a s b s', r = .ok a s ∧ r' = .ok b s' ∧ Q a b ∧ s.Resembles P s') ∨
      ∃ e s e' s', r = .error e s ∧ r' = .error e' s' ∧ e.Resembles P e' ∧ s.Resembles P s' := by
  cases r with
  | ok a s =>
    cases r' with
    | ok b s' => exact .inl ⟨a, s, b, s', rfl, rfl, h⟩
    | error e' s' => exact h.elim
  | error e s =>
    cases r' with
    | ok b s' => exact h.elim
    | error e' s' => exact .inr ⟨e, s, e', s', rfl, rfl, h⟩

/-- A parser after another. Failures agree, too, and end both. -/
theorem Agrees.bind {f : α → Parser γ} {g : β → Parser δ} (hp : Agrees P Q p p')
    (hf : ∀ a b, Q a b → Agrees P Q' (f a) (g b)) : Agrees P Q' (p >>= f) (p' >>= g) := by
  intro s s' hs
  show ResultsAgree P Q' (EStateM.bind p f s) (EStateM.bind p' g s')
  unfold EStateM.bind
  rcases (hp s s' hs).cases with ⟨a, s₁, b, s₁', hp, hp', hab, hs₁⟩ | ⟨e, s₁, e', s₁', hp, hp', h⟩
  · rw [hp, hp']
    exact hf a b hab s₁ s₁' hs₁
  · rw [hp, hp']
    exact h

/-- At the end the next tokens are the end tokens. -/
theorem peek_agrees : Agrees P (Token.Resembles P) peek peek := by
  intro s s' hs
  unfold peek
  rcases hs.rest_cases with ⟨hrest, hrest'⟩ | ⟨t, t', ts, ts', hrest, hrest', ht, -⟩
  · rw [hrest, hrest']
    exact ⟨hs.stop, hs⟩
  · rw [hrest, hrest']
    exact ⟨ht, hs⟩

theorem nextIs_agrees (kind : Kind) : Agrees P (· = ·) (nextIs kind) (nextIs kind) := by
  intro s s' hs
  unfold nextIs
  rcases hs.rest_cases with ⟨hrest, hrest'⟩ | ⟨t, t', ts, ts', hrest, hrest', ht, -⟩
  · rw [hrest, hrest']
    exact ⟨rfl, hs⟩
  · rw [hrest, hrest']
    exact ⟨by rw [ht.kind], hs⟩

theorem atEnd_agrees : Agrees P (· = ·) atEnd atEnd := by
  intro s s' hs
  unfold atEnd
  rcases hs.rest_cases with ⟨hrest, hrest'⟩ | ⟨t, t', ts, ts', hrest, hrest', -, -⟩
  · rw [hrest, hrest']
    exact ⟨rfl, hs⟩
  · rw [hrest, hrest']
    exact ⟨rfl, hs⟩

/-- Only the depths are ever looked at in the whole state. -/
theorem get_agrees : Agrees P (State.Resembles P) get get :=
  fun _ _ hs => ⟨hs, hs⟩

theorem skip_agrees : Agrees P (fun _ _ => True) skip skip := by
  intro s s' hs
  refine ⟨trivial, { hs with rest := ?_ }⟩
  rcases hs.rest_cases with ⟨hrest, hrest'⟩ | ⟨t, t', ts, ts', hrest, hrest', -, hts⟩
  · rw [hrest, hrest']
    exact .nil
  · rw [hrest, hrest']
    exact hts

/-- Both parsers read a token, or none does. -/
theorem acceptIf_agrees (q : Kind → Bool) :
    Agrees P (Option.Rel (Token.Resembles P)) (acceptIf q) (acceptIf q) := by
  intro s s' hs
  unfold acceptIf
  rcases hs.rest_cases with ⟨hrest, hrest'⟩ | ⟨t, t', ts, ts', hrest, hrest', ht, hts⟩
  · rw [hrest, hrest']
    exact ⟨.none, hs⟩
  · rw [hrest, hrest']
    dsimp only
    rw [ht.kind]
    split
    · exact ⟨.some ht, { hs with rest := hts }⟩
    · exact ⟨.none, hs⟩

theorem failAt_agrees (ht : t.Resembles P t') (fault : ParseFault) :
    Agrees P Q (failAt t fault) (failAt t' fault) :=
  fun _ _ hs => ⟨⟨rfl, ht⟩, hs⟩

theorem report_agrees (ht : t.Resembles P t') (fault : ParseFault) :
    Agrees P (fun _ _ => True) (report t fault) (report t' fault) :=
  fun _ _ hs => ⟨trivial, hs.report ⟨rfl, ht⟩⟩

/-- Both parsers fail at the token that is there instead. -/
theorem expect_agrees (kind : Kind) (what : Expectation) :
    Agrees P (Token.Resembles P) (expect kind what) (expect kind what) := by
  refine (acceptIf_agrees _).bind fun token? token?' htoken => ?_
  cases htoken with
  | none => exact peek_agrees.bind fun t t' ht => failAt_agrees ht _
  | some ht => exact .pure ht

/-! ## Nesting and recovery

After a failure parsing goes on at a token that is found by kinds alone. -/

theorem insideLoop_agrees (h : Agrees P Q p p') : Agrees P Q (insideLoop p) (insideLoop p') := by
  intro s s' hs
  have hdeeper : State.Resembles P { s with loopDepth := s.loopDepth + 1 }
      { s' with loopDepth := s'.loopDepth + 1 } :=
    { hs with loopDepth := congrArg (· + 1) hs.loopDepth }
  unfold insideLoop
  rcases (h _ _ hdeeper).cases with
    ⟨a, s₁, b, s₁', hp, hp', hab, hs₁⟩ | ⟨e, s₁, e', s₁', hp, hp', he, hs₁⟩
  · rw [hp, hp']
    exact ⟨hab, { hs₁ with loopDepth := congrArg (· - 1) hs₁.loopDepth }⟩
  · rw [hp, hp']
    exact ⟨he, { hs₁ with loopDepth := congrArg (· - 1) hs₁.loopDepth }⟩

/-- The depths are the same inside as well, and behind also after a failure. -/
theorem insideFunction_agrees (h : Agrees P Q p p') :
    Agrees P Q (insideFunction p) (insideFunction p') := by
  intro s s' hs
  have hdeeper : State.Resembles P
      { s with loopDepth := 0, functionDepth := s.functionDepth + 1 }
      { s' with loopDepth := 0, functionDepth := s'.functionDepth + 1 } :=
    { hs with loopDepth := rfl, functionDepth := congrArg (· + 1) hs.functionDepth }
  unfold insideFunction
  dsimp only
  rcases (h _ _ hdeeper).cases with
    ⟨a, s₁, b, s₁', hp, hp', hab, hs₁⟩ | ⟨e, s₁, e', s₁', hp, hp', he, hs₁⟩
  · rw [hp, hp']
    exact ⟨hab, { hs₁ with
      loopDepth := hs.loopDepth, functionDepth := congrArg (· - 1) hs₁.functionDepth }⟩
  · rw [hp, hp']
    exact ⟨he, { hs₁ with
      loopDepth := hs.loopDepth, functionDepth := congrArg (· - 1) hs₁.functionDepth }⟩

theorem boundaryAfter_resembles (ht : t.Resembles P t') {ts ts' : List Token}
    (hts : List.Forall₂ (Token.Resembles P) ts ts') :
    List.Forall₂ (Token.Resembles P) (boundaryAfter t ts) (boundaryAfter t' ts') := by
  induction hts generalizing t t' with
  | nil => exact .nil
  | cons hu hus ih =>
    unfold boundaryAfter
    rw [ht.kind, hu.kind]
    split
    · exact .cons hu hus
    · exact ih hu

theorem resync_resembles {ts ts' : List Token} (hts : List.Forall₂ (Token.Resembles P) ts ts') :
    List.Forall₂ (Token.Resembles P) (resync ts) (resync ts') := by
  cases hts with
  | nil => exact .nil
  | cons ht hts => exact boundaryAfter_resembles ht hts

/-- Parsers that fail alike recover alike. -/
theorem recovering_agrees (h : Agrees P Q p p') :
    Agrees P (Option.Rel Q) (recovering p) (recovering p') := by
  intro s s' hs
  unfold recovering
  rcases (h s s' hs).cases with
    ⟨a, s₁, b, s₁', hp, hp', hab, hs₁⟩ | ⟨e, s₁, e', s₁', hp, hp', he, hs₁⟩
  · rw [hp, hp']
    exact ⟨.some hab, hs₁⟩
  · rw [hp, hp']
    exact ⟨.none, { hs₁.report he with rest := resync_resembles hs₁.rest }⟩

end

/-! ## Expressions

Each parser agrees with itself if those it is made of do. The trees match in pairs. -/

section

variable {P : Token → Token → Prop} {expression : Parser Expr} {budget : Nat} {t t' : Token}

theorem literal_agrees (value : Literal) :
    Agrees P (Expr.Matches (.lookalike P)) (literal t value) (literal t' value) :=
  skip_agrees.bind fun _ _ _ => .pure (.literal value _ _)

theorem primary_agrees (he : Agrees P (Expr.Matches (.lookalike P)) expression expression) :
    Agrees P (Expr.Matches (.lookalike P)) (primary expression) (primary expression) := by
  refine peek_agrees.bind fun t t' ht => ?_
  -- kind and value are all that is looked at, and both parsers look at the same ones
  rw [← ht.kind, ← ht.literal]
  generalize t.kind = kind
  cases kind
  case kwFalse => exact literal_agrees _
  case kwTrue => exact literal_agrees _
  case kwNil => exact literal_agrees _
  case number | string =>
    cases t.literal with
    | none => exact failAt_agrees ht _
    | some value => exact literal_agrees value
  case leftParen =>
    refine skip_agrees.bind fun _ _ _ => he.bind fun e e' he => ?_
    exact (expect_agrees _ _).bind fun _ _ _ => .pure (.grouping he)
  case identifier => exact skip_agrees.bind fun _ _ _ => .pure (.var ht)
  all_goals exact failAt_agrees ht _

/-- One item of a list and what comes after it. -/
theorem item_then_agrees {α : Type} {R : α → α → Prop} {item : Parser α}
    {more : Parser (List α)} (hitem : Agrees P R item item)
    (hmore : Agrees P (List.Forall₂ R) more more) :
    Agrees P (List.Forall₂ R)
      (do let x ← item
          match ← accept .comma with
          | some _ => return x :: (← more)
          | none => return [x])
      (do let x ← item
          match ← accept .comma with
          | some _ => return x :: (← more)
          | none => return [x]) := by
  refine hitem.bind fun x x' hx => (acceptIf_agrees _).bind fun comma? comma?' hcomma => ?_
  cases hcomma with
  | none => exact .pure (.cons hx .nil)
  | some _ => exact hmore.bind fun xs xs' hxs => .pure (.cons hx hxs)

theorem separated_agrees {α : Type} {R : α → α → Prop} {item : Parser α}
    (hitem : Agrees P R item item) (tooMany : ParseFault) (count : Nat) :
    Agrees P (List.Forall₂ R) (separated item tooMany budget count)
      (separated item tooMany budget count) := by
  induction budget generalizing count with
  | zero => exact .pure .nil
  | succ n ih =>
    have hread := item_then_agrees hitem (ih (count + 1))
    rw [separated]
    dsimp only
    split
    · exact peek_agrees.bind fun t t' ht => (report_agrees ht _).bind fun _ _ _ => hread
    · exact hread

/-- Lists of arguments and of parameters. -/
theorem listed_agrees {α : Type} {R : α → α → Prop} {item : Parser α}
    (hitem : Agrees P R item item) (tooMany : ParseFault) :
    Agrees P (List.Forall₂ R) (listed item tooMany budget) (listed item tooMany budget) := by
  refine (nextIs_agrees _).bind fun isNext isNext' heq => ?_
  subst heq
  split
  · exact .pure .nil
  · exact separated_agrees hitem tooMany 0

/-- A longer call is made in both parsers or in none. -/
theorem callsFrom_agrees (he : Agrees P (Expr.Matches (.lookalike P)) expression expression)
    (n : Nat) {callee callee' : Expr} (hcallee : callee.Matches (.lookalike P) callee') :
    Agrees P (Expr.Matches (.lookalike P)) (callsFrom expression budget n callee)
      (callsFrom expression budget n callee') := by
  induction n generalizing callee callee' with
  | zero => exact .pure hcallee
  | succ n ih =>
    refine (acceptIf_agrees _).bind fun left? left?' hleft => ?_
    cases hleft with
    | none => exact .pure hcallee
    | some _ =>
      refine (listed_agrees he _).bind fun es es' hes => (expect_agrees _ _).bind fun t t' ht => ?_
      exact ih (.call hcallee ht hes.length_eq fun _ _ hmem => List.forall₂_zip hes hmem)

theorem call_agrees (he : Agrees P (Expr.Matches (.lookalike P)) expression expression) :
    Agrees P (Expr.Matches (.lookalike P)) (call expression budget) (call expression budget) :=
  (primary_agrees he).bind fun _ _ hcallee => callsFrom_agrees he budget hcallee

theorem unaryFrom_agrees (he : Agrees P (Expr.Matches (.lookalike P)) expression expression)
    (n : Nat) :
    Agrees P (Expr.Matches (.lookalike P)) (unaryFrom expression budget n)
      (unaryFrom expression budget n) := by
  induction n with
  | zero => exact call_agrees he
  | succ n ih =>
    refine (acceptIf_agrees _).bind fun operator? operator?' hop => ?_
    cases hop with
    | none => exact call_agrees he
    | some hop => exact ih.bind fun _ _ hright => .pure (.unary hop hright)

theorem join_matches (level : Level) {x x' y y' : Expr} (hx : x.Matches (.lookalike P) x')
    (ht : t.Resembles P t') (hy : y.Matches (.lookalike P) y') :
    (level.join x t y).Matches (.lookalike P) (level.join x' t' y') :=
  level.join_matches hx ⟨ht.literal, fun _ _ => ht⟩ hy

/-- Operators are told by their kinds. -/
theorem chainFrom_agrees (level : Level) {operand : Parser Expr}
    (ho : Agrees P (Expr.Matches (.lookalike P)) operand operand) {left left' : Expr}
    (hleft : left.Matches (.lookalike P) left') :
    Agrees P (Expr.Matches (.lookalike P))
      (chainFrom (fun k => k ∈ level.operators) level.join operand budget left)
      (chainFrom (fun k => k ∈ level.operators) level.join operand budget left') := by
  induction budget generalizing left left' with
  | zero => exact .pure hleft
  | succ n ih =>
    refine (acceptIf_agrees _).bind fun operator? operator?' hop => ?_
    cases hop with
    | none => exact .pure hleft
    | some hop => exact ho.bind fun right right' hright => ih (join_matches level hleft hop hright)

theorem tier_agrees (he : Agrees P (Expr.Matches (.lookalike P)) expression expression)
    (level : Level) :
    Agrees P (Expr.Matches (.lookalike P)) (tier expression budget level)
      (tier expression budget level) := by
  induction level using Level.tighter_induction with
  | unary => exact unaryFrom_agrees he budget
  | looser level hlevel ih =>
    rw [tier_eq_chain _ _ hlevel]
    exact ih.bind fun left left' hleft => chainFrom_agrees level ih hleft

/-- Matching trees are both names or none is. -/
theorem assignment_agrees (he : Agrees P (Expr.Matches (.lookalike P)) expression expression) :
    Agrees P (Expr.Matches (.lookalike P)) (assignment expression budget)
      (assignment expression budget) := by
  refine (tier_agrees he .disjunction).bind fun target target' htarget => ?_
  refine (acceptIf_agrees _).bind fun equals? equals?' hequals => ?_
  cases hequals with
  | none => exact .pure htarget
  | some hequals =>
    refine he.bind fun value value' hvalue => ?_
    have hinvalid := (report_agrees hequals .invalidAssignmentTarget).bind fun _ _ _ =>
      Agrees.pure (P := P) htarget
    cases htarget with
    | var hname => exact .pure (.assign hname hvalue)
    | _ => exact hinvalid

end

/-- **Expressions are read alike**, by induction on the budget. -/
theorem expression_agrees {P : Token → Token → Prop} (budget : Nat) :
    Agrees P (Expr.Matches (.lookalike P)) (expression budget) (expression budget) := by
  induction budget with
  | zero => exact peek_agrees.bind fun t t' ht => failAt_agrees ht _
  | succ n ih => exact assignment_agrees ih

/-! ## Statements

Trees resemble each other wherever they stand, since a parser does not know what place a statement
is compared at; its own place shows in the depths only. -/

section

variable {P : Token → Token → Prop} {statement : Parser Stmt} {block : Parser (List Stmt)}
  {budget : Nat} {t t' : Token}

/-- Parameters and the body of a function match in pairs. -/
theorem funDeclaration_agrees (hb : Agrees P (List.Forall₂ (Stmt.Resembles P)) block block) :
    Agrees P (Stmt.Resembles P) (funDeclaration block budget) (funDeclaration block budget) := by
  refine (expect_agrees _ _).bind fun name name' hname => (expect_agrees _ _).bind fun _ _ _ => ?_
  refine (listed_agrees (expect_agrees _ _) _).bind fun params params' hparams => ?_
  refine (expect_agrees _ _).bind fun _ _ _ => (expect_agrees _ _).bind fun _ _ _ => ?_
  refine (insideFunction_agrees hb).bind fun body body' hbody => .pure fun p => ?_
  exact .funDecl hname hparams hbody.length_eq fun _ _ hs => List.forall₂_zip hbody hs .body

theorem varDeclaration_agrees :
    Agrees P (Stmt.Resembles P) (varDeclaration budget) (varDeclaration budget) := by
  refine (expect_agrees _ _).bind fun name name' hname => ?_
  refine (acceptIf_agrees _).bind fun equals? equals?' hequals => ?_
  cases hequals with
  | none => exact (expect_agrees _ _).bind fun _ _ _ => .pure fun _ => .varDecl hname .none
  | some _ =>
    dsimp only
    rw [bind_map_left, bind_map_left]
    refine (expression_agrees budget).bind fun e e' he => (expect_agrees _ _).bind fun _ _ _ => ?_
    exact .pure fun _ => .varDecl hname (.some he)

theorem closed_agrees {make : Expr → Stmt} (what : Expectation)
    (hmake : ∀ e e', e.Matches (.lookalike P) e' → (make e).Resembles P (make e')) :
    Agrees P (Stmt.Resembles P) (closed make what budget) (closed make what budget) := by
  refine (expression_agrees budget).bind fun e e' he => (expect_agrees _ _).bind fun _ _ _ => ?_
  exact .pure (hmake e e' he)

theorem expressionStatement_agrees :
    Agrees P (Stmt.Resembles P) (expressionStatement budget) (expressionStatement budget) :=
  closed_agrees _ fun _ _ he _ => .expression he

/-- Whether a loop is around is told by the depth, which is the same. -/
theorem breakStatement_agrees (ht : t.Resembles P t') :
    Agrees P (Stmt.Resembles P) (breakStatement t) (breakStatement t') := by
  have hrest : Agrees P (Stmt.Resembles P)
      (do let _ ← expect .semicolon .semicolonAfterBreak; return .breakOut t)
      (do let _ ← expect .semicolon .semicolonAfterBreak; return .breakOut t') :=
    (expect_agrees _ _).bind fun _ _ _ => .pure fun _ => .breakOut ht
  refine get_agrees.bind fun s s' hs => ?_
  rw [← hs.loopDepth]
  split
  · exact (report_agrees ht _).bind fun _ _ _ => hrest
  · exact hrest

theorem expressionUnless_agrees (kind : Kind) :
    Agrees P (Option.Rel (Expr.Matches (.lookalike P))) (expressionUnless kind budget)
      (expressionUnless kind budget) := by
  refine (nextIs_agrees _).bind fun isNext isNext' heq => ?_
  subst heq
  split
  · exact .pure .none
  · exact (expression_agrees budget).bind fun e e' he => .pure (.some he)

theorem forInitializer_agrees :
    Agrees P (Option.Rel (Stmt.Resembles P)) (forInitializer budget) (forInitializer budget) := by
  refine (acceptIf_agrees _).bind fun semicolon? semicolon?' hsemicolon => ?_
  cases hsemicolon with
  | some _ => exact .pure .none
  | none =>
    refine (acceptIf_agrees _).bind fun keyword? keyword?' hkeyword => ?_
    cases hkeyword with
    | some _ => exact varDeclaration_agrees.bind fun s s' hs => .pure (.some hs)
    | none => exact expressionStatement_agrees.bind fun s s' hs => .pure (.some hs)

/-- Of the keyword only the line gets into the tree, and lines of literals do not matter. -/
theorem forStatement_agrees (hs : Agrees P (Stmt.Resembles P) statement statement) :
    Agrees P (Stmt.Resembles P) (forStatement statement budget t)
      (forStatement statement budget t') := by
  refine (expect_agrees _ _).bind fun _ _ _ => forInitializer_agrees.bind fun init init' hinit => ?_
  refine (expressionUnless_agrees _).bind fun cond cond' hcond => ?_
  refine (expect_agrees _ _).bind fun _ _ _ => ?_
  refine (expressionUnless_agrees _).bind fun inc inc' hinc => ?_
  refine (expect_agrees _ _).bind fun _ _ _ => ?_
  refine (insideLoop_agrees hs).bind fun body body' hbody => ?_
  rw [forLoop_eq_forTree, forLoop_eq_forTree]
  refine .pure fun p => forTree_matches _ _ hcond (hbody _) ?_ hinc
  cases hinit with
  | none => exact .none
  | some hinit => exact .some (hinit p)

theorem ifStatement_agrees (hs : Agrees P (Stmt.Resembles P) statement statement) :
    Agrees P (Stmt.Resembles P) (ifStatement statement budget) (ifStatement statement budget) := by
  refine (expect_agrees _ _).bind fun _ _ _ => (expression_agrees budget).bind fun e e' he => ?_
  refine (expect_agrees _ _).bind fun _ _ _ => hs.bind fun yes yes' hyes => ?_
  refine (acceptIf_agrees _).bind fun else? else?' helse => ?_
  cases helse with
  | none => exact .pure fun p => .ifThen he (hyes p)
  | some _ => exact hs.bind fun no no' hno => .pure fun p => .ifElse he (hyes p) (hno p)

theorem returnStatement_agrees (ht : t.Resembles P t') :
    Agrees P (Stmt.Resembles P) (returnStatement budget t) (returnStatement budget t') := by
  have hrest : Agrees P (Stmt.Resembles P)
      (do let value ← expressionUnless .semicolon budget
          let _ ← expect .semicolon .semicolonAfterReturn
          return .giveBack t value)
      (do let value ← expressionUnless .semicolon budget
          let _ ← expect .semicolon .semicolonAfterReturn
          return .giveBack t' value) :=
    (expressionUnless_agrees _).bind fun _ _ hvalue => (expect_agrees _ _).bind fun _ _ _ =>
      .pure fun _ => .giveBack ht hvalue
  refine get_agrees.bind fun s s' hs => ?_
  rw [← hs.functionDepth]
  split
  · exact (report_agrees ht _).bind fun _ _ _ => hrest
  · exact hrest

theorem whileStatement_agrees (hs : Agrees P (Stmt.Resembles P) statement statement) :
    Agrees P (Stmt.Resembles P) (whileStatement statement budget)
      (whileStatement statement budget) := by
  refine (expect_agrees _ _).bind fun _ _ _ => (expression_agrees budget).bind fun e e' he => ?_
  refine (expect_agrees _ _).bind fun _ _ _ => ?_
  refine (insideLoop_agrees hs).bind fun body body' hbody => ?_
  exact .pure fun p => .whileLoop he (hbody p.loopBody)

/-- What a declaration adds to those after it, which is nothing if it failed. -/
theorem consOption_resembles {s? s?' : Option Stmt} {ss ss' : List Stmt}
    (hs : Option.Rel (Stmt.Resembles P) s? s?') (hss : List.Forall₂ (Stmt.Resembles P) ss ss') :
    List.Forall₂ (Stmt.Resembles P) (consOption s? ss) (consOption s?' ss') := by
  cases hs with
  | none => exact hss
  | some hs => exact .cons hs hss

section

variable {declaration : Parser (Option Stmt)}

/-- Declarations that failed are left out of both lists. -/
theorem declarations_agrees
    (hd : Agrees P (Option.Rel (Stmt.Resembles P)) declaration declaration) :
    Agrees P (List.Forall₂ (Stmt.Resembles P)) (declarations declaration budget)
      (declarations declaration budget) := by
  induction budget with
  | zero => exact .pure .nil
  | succ n ih =>
    refine (nextIs_agrees _).bind fun isNext isNext' heq => ?_
    refine atEnd_agrees.bind fun ended ended' heq' => ?_
    subst heq heq'
    split
    · exact .pure .nil
    · exact hd.bind fun s s' hs => ih.bind fun ss ss' hss => .pure (consOption_resembles hs hss)

theorem block_agrees (hd : Agrees P (Option.Rel (Stmt.Resembles P)) declaration declaration) :
    Agrees P (List.Forall₂ (Stmt.Resembles P)) (Parser.block declaration budget)
      (Parser.block declaration budget) :=
  (declarations_agrees hd).bind fun _ _ hss => (expect_agrees _ _).bind fun _ _ _ => .pure hss

theorem programFrom_agrees
    (hd : Agrees P (Option.Rel (Stmt.Resembles P)) declaration declaration) :
    Agrees P (List.Forall₂ (Stmt.Resembles P)) (programFrom declaration budget)
      (programFrom declaration budget) := by
  induction budget with
  | zero => exact .pure .nil
  | succ n ih =>
    refine atEnd_agrees.bind fun ended ended' heq => ?_
    subst heq
    split
    · exact .pure .nil
    · exact hd.bind fun s s' hs => ih.bind fun ss ss' hss => .pure (consOption_resembles hs hss)

end

/-- The next tokens are of one kind, so they choose the same statement. -/
theorem plainStatement_agrees (hs : Agrees P (Stmt.Resembles P) statement statement)
    (hb : Agrees P (List.Forall₂ (Stmt.Resembles P)) block block) :
    Agrees P (Stmt.Resembles P) (plainStatement statement block budget)
      (plainStatement statement block budget) := by
  refine peek_agrees.bind fun t t' ht => ?_
  rw [← ht.kind]
  generalize t.kind = kind
  cases kind
  case kwBreak => exact skip_agrees.bind fun _ _ _ => breakStatement_agrees ht
  case kwFor => exact skip_agrees.bind fun _ _ _ => forStatement_agrees hs
  case kwIf => exact skip_agrees.bind fun _ _ _ => ifStatement_agrees hs
  case kwPrint => exact skip_agrees.bind fun _ _ _ => closed_agrees _ fun _ _ he _ => .print he
  case kwReturn => exact skip_agrees.bind fun _ _ _ => returnStatement_agrees ht
  case kwWhile => exact skip_agrees.bind fun _ _ _ => whileStatement_agrees hs
  case leftBrace =>
    refine skip_agrees.bind fun _ _ _ => hb.bind fun ss ss' hss => .pure fun p => ?_
    exact block_matches (hss.imp fun _ _ h => h p)
  all_goals exact expressionStatement_agrees

theorem anyStatement_agrees (hs : Agrees P (Stmt.Resembles P) statement statement)
    (hb : Agrees P (List.Forall₂ (Stmt.Resembles P)) block block) :
    Agrees P (Stmt.Resembles P) (anyStatement statement block budget)
      (anyStatement statement block budget) := by
  refine peek_agrees.bind fun t t' ht => ?_
  rw [← ht.kind]
  generalize t.kind = kind
  cases kind
  case kwFun => exact skip_agrees.bind fun _ _ _ => funDeclaration_agrees hb
  case kwVar => exact skip_agrees.bind fun _ _ _ => varDeclaration_agrees
  all_goals exact plainStatement_agrees hs hb

end

/-- **Statements and declarations are read alike.** -/
theorem statement_agrees {P : Token → Token → Prop} (budget : Nat) (declares : Bool) :
    Agrees P (Stmt.Resembles P) (statement budget declares) (statement budget declares) := by
  induction budget generalizing declares with
  | zero => exact peek_agrees.bind fun t t' ht => failAt_agrees ht _
  | succ n ih =>
    have hblock : Agrees P (List.Forall₂ (Stmt.Resembles P))
        (block (recovering (statement n true)) (n + 1))
        (block (recovering (statement n true)) (n + 1)) :=
      block_agrees (recovering_agrees (ih true))
    cases declares with
    | true => exact anyStatement_agrees (ih false) hblock
    | false => exact plainStatement_agrees (ih false) hblock

theorem program_agrees {P : Token → Token → Prop} (budget : Nat) :
    Agrees P (List.Forall₂ (Stmt.Resembles P)) (program budget) (program budget) :=
  programFrom_agrees (recovering_agrees (statement_agrees budget true))

/-! ## Programs

A parser reads the tokens in front of the end token, which is found by its kind. -/

section

variable {P : Token → Token → Prop} {ts ts' : List Token}

theorem takeWhile_resembles (q : Kind → Bool) (h : List.Forall₂ (Token.Resembles P) ts ts') :
    List.Forall₂ (Token.Resembles P) (ts.takeWhile fun t => q t.kind)
      (ts'.takeWhile fun t => q t.kind) := by
  induction h with
  | nil => exact .nil
  | cons ht _ ih =>
    rw [List.takeWhile_cons, List.takeWhile_cons, ht.kind]
    split
    · exact .cons ht ih
    · exact .nil

theorem find?_resembles (q : Kind → Bool) (h : List.Forall₂ (Token.Resembles P) ts ts') :
    Option.Rel (Token.Resembles P) (ts.find? fun t => q t.kind) (ts'.find? fun t => q t.kind) := by
  induction h with
  | nil => exact .none
  | cons ht _ ih =>
    rw [List.find?_cons, List.find?_cons, ht.kind]
    split
    · exact .some ht
    · exact ih

/-- Parsers stand alike before tokens that look the same, an end token among them. -/
theorem ofTokens_resembles (h : List.Forall₂ (Token.Resembles P) ts ts')
    (heof : ∃ t ∈ ts, t.kind = .eof) :
    (State.ofTokens ts).Resembles P (State.ofTokens ts') where
  rest := takeWhile_resembles (fun k => k ≠ .eof) h
  stop := by
    have hfind := find?_resembles (fun k => k = .eof) h
    have hsome : (ts.find? fun t => t.kind = .eof).isSome := by
      obtain ⟨t, ht, hkind⟩ := heof
      exact List.find?_isSome.2 ⟨t, ht, decide_eq_true hkind⟩
    unfold State.ofTokens
    dsimp only
    generalize (ts.find? fun t => t.kind = .eof) = stop? at hfind hsome
    generalize (ts'.find? fun t => t.kind = .eof) = stop?' at hfind
    cases hfind with
    | none => exact absurd hsome (by simp)
    | some hstop => exact hstop
  errors := .nil
  loopDepth := rfl
  functionDepth := rfl

end

end Parser

/-- Parsed programs that resemble each other: their statements match and they have the same faults
at tokens that look the same. -/
structure Parsed.Resembles (P : Token → Token → Prop) (q q' : Parsed) : Prop where
  statements : List.Forall₂ (Stmt.Resembles P) q.statements q'.statements
  errors : List.Forall₂ (ParseError.Resembles P) q.errors q'.errors

/-- Tokens that look the same, an end token among them, are parsed alike. -/
theorem parse_resembles {P : Token → Token → Prop} {ts ts' : List Token}
    (h : List.Forall₂ (Token.Resembles P) ts ts') (heof : ∃ t ∈ ts, t.kind = .eof) :
    (parse ts).Resembles P (parse ts') := by
  have hstart := Parser.ofTokens_resembles h heof
  have hprogram := Parser.program_agrees (Parser.State.ofTokens ts).rest.length _ _ hstart
  unfold parse
  dsimp only
  -- the budgets are equal, since there are as many tokens to read
  rw [← hstart.rest.length_eq]
  rcases hprogram.cases with ⟨ss, s, ss', s', hp, hp', hss, hs⟩ | ⟨e, s, e', s', hp, hp', he, hs⟩
  · rw [hp, hp']
    exact ⟨hss, hs.errors⟩
  · rw [hp, hp']
    exact ⟨.nil, (hs.report he).errors⟩

end GradedScript
