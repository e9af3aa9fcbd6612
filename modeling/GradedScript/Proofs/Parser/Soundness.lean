import GradedScript.Proofs.Parser.Grammar
import GradedScript.Proofs.Parser.Reading

/-!
# What the parser accepts is in the grammar

Each parser obeys its part of the grammar: the tree it yields has tokens that fit their roles,
whatever was reported on the way, and if nothing was reported the tokens read derive the tree. The
nested uses of a parser have a smaller budget; this is enough because a token was read before.
-/

namespace GradedScript

/-! ## Derivations read something

This is what lets budgets go down with the nesting: behind a phrase fewer tokens are left. -/

namespace Grammar

theorem Call.length_pos {ts : List Token} {e : Expr} (h : Call ts e) : 0 < ts.length := by
  cases h with
  | primary h => cases h <;> simp
  | empty => simp
  | call => rw [List.length_append, List.length_cons]; omega

theorem Tier.length_pos {level : Level} {ts : List Token} {e : Expr} :
    Tier level ts e → 0 < ts.length
  | .operand _ h => h.length_pos
  | .join _ _ _ => by rw [List.length_append, List.length_cons]; omega
  | .unary _ _ => Nat.zero_lt_succ _
  | .call h => h.length_pos

theorem Expression.length_pos {ts : List Token} {e : Expr} (h : Expression ts e) :
    0 < ts.length := by
  cases h with
  | assign => simp
  | plain h => exact h.length_pos

/-- No statement is empty; an empty one would be a block. -/
theorem Statement.length_pos {p : Place} {isOpen : Bool} {ts : List Token} {s : Stmt}
    (h : Statement p isOpen ts s) : 0 < ts.length := by
  cases h <;> simp

theorem Declaration.length_pos {p : Place} {ts : List Token} {s : Stmt} (h : Declaration p ts s) :
    0 < ts.length := by
  cases h with
  | function => simp
  | varDecl => simp
  | statement h => exact h.length_pos

/-! ## Trees of single names

The target of an assignment is read as an expression, and found to be a name by its tree. -/

theorem Call.eq_of_var {ts : List Token} {name : Token} (h : Call ts (.var name)) :
    ts = [name] ∧ name.kind = .identifier := by
  cases h with
  | primary h => cases h with
    | name hkind => exact ⟨rfl, hkind⟩

/-- An operator makes no name. -/
theorem Level.join_ne_var (level : Level) (x : Expr) (operator : Token) (y : Expr) (name : Token) :
    level.join x operator y ≠ .var name := by
  cases level <;> exact Expr.noConfusion

/-- Only a name has the tree of a name. -/
theorem Tier.eq_of_var {level : Level} {ts : List Token} {e : Expr} {name : Token} :
    Tier level ts e → e = .var name → ts = [name] ∧ name.kind = .identifier
  | .operand _ h => fun he => h.eq_of_var he
  | .join _ _ _ => fun he => absurd he (Level.join_ne_var _ _ _ _ _)
  | .unary _ _ => fun he => Expr.noConfusion he
  | .call h => fun he => Call.eq_of_var (he ▸ h)

end Grammar

open Grammar

namespace Parser

/-! ## Expressions

The parsers of the levels take the parser of whole expressions as an argument. What it obeys is a
hypothesis here (`he`), for one token less, and `expression_obeys` ties the knot by induction on the
budget. -/

/-- The tokens of a tree fit their roles. -/
def Proper (e : Expr) : Prop :=
  e.Every Role.Admits

section

variable {n : Nat} {expression : Parser Expr}

theorem literal_obeys {token : Token} (value : Literal) (ht : token.kind ≠ .eof)
    (h : Primary [token] (.literal value token.line)) :
    Obeys (n + 1) Proper (fun _ ts e rest => Next token (ts ++ rest) → Primary ts e)
      (literal token value) :=
  skip_then ht (.pure (.literal _ _) fun _ _ _ => h)

/-- A number or string with its value. The scanner makes no other ones; one without a value fails. -/
theorem valueOf_obeys {token : Token} (hkind : token.kind = .number ∨ token.kind = .string) :
    Obeys (n + 1) Proper (fun _ ts e rest => Next token (ts ++ rest) → Primary ts e)
      (match token.literal with
        | some value => literal token value
        | none => failAt token .literalWithoutValue) := by
  have ht : token.kind ≠ .eof := by rcases hkind with h | h <;> simp [h]
  cases hvalue : token.literal with
  | none => exact failAt_obeys _ _
  | some value => exact literal_obeys value ht (.value hkind hvalue)

/-- Each kind that a primary may begin with is a rule of the grammar. -/
theorem primary_obeys (he : Obeys n Proper (fun _ ts e _ => Expression ts e) expression) :
    Obeys (n + 1) Proper (fun _ ts e _ => Primary ts e) (primary expression) := by
  refine peek_then fun token => ?_
  split
  case h_1 hkind => exact literal_obeys _ (by simp [hkind]) (.false hkind)
  case h_2 hkind => exact literal_obeys _ (by simp [hkind]) (.true hkind)
  case h_3 hkind => exact literal_obeys _ (by simp [hkind]) (.nil hkind)
  case h_4 hkind => exact valueOf_obeys (.inl hkind)
  case h_5 hkind => exact valueOf_obeys (.inr hkind)
  case h_6 hkind =>
    refine skip_then (by simp [hkind]) (he.seq fun inner hinner => ?_)
    refine (expect_obeys _ _).seq fun right hright => .pure (.grouping hinner) ?_
    intro _ _ _ us _ hus ts _ hts
    subst hus
    exact .group hkind hts hright
  case h_7 hkind => exact skip_then (by simp [hkind]) (.pure (.var rfl) fun _ _ _ => .name hkind)
  case h_8 => exact failAt_obeys _ _

/-- One item of a list and what comes after it, where `count` items are read already. What is
derived from an item and from the list is left open. -/
theorem item_then_obeys {α : Type} {A : α → Prop} {item : Parser α} {others : Parser (List α)}
    {I : List Token → α → Prop} {L : List Token → List α → Prop} {m count : Nat}
    (one : ∀ ts x, A x → I ts x → L ts [x])
    (more : ∀ ts x comma us xs, A x → I ts x → comma.kind = .comma → L us xs →
      L (ts ++ comma :: us) (x :: xs))
    (hitem : Obeys n A (fun _ ts x _ => I ts x) item)
    (hothers : Obeys n (fun xs => ∀ x ∈ xs, A x)
      (fun _ ts xs rest => (ts ++ rest).length < m → L ts xs ∧ count + 1 + xs.length ≤ maxCount)
      others) :
    Obeys n (fun xs => ∀ x ∈ xs, A x)
      (fun _ ts xs rest => count < maxCount → (ts ++ rest).length < m + 1 →
        L ts xs ∧ count + xs.length ≤ maxCount)
      (do
        let x ← item
        match ← accept .comma with
        | some _ => return x :: (← others)
        | none => return [x]) := by
  refine hitem.seq fun x hx => (accept_obeys _).seq fun comma? hcomma => ?_
  cases comma? with
  | none =>
    refine .pure (by simpa using hx) ?_
    rintro _ rest _ us _ ⟨rfl, _⟩ ts _ hts hcount _
    simpa using ⟨one ts x hx hts, hcount⟩
  | some comma =>
    refine hothers.seq fun xs hxs => .pure (by simpa using ⟨hx, hxs⟩) ?_
    rintro _ rest _ vs _ hvs us _ ⟨rfl, _⟩ ts _ hts hcount hlength
    -- the comma alone makes the rest shorter
    simp only [List.length_append, Option.toList, List.length_cons, List.length_nil] at hlength
    obtain ⟨hlist, hle⟩ := hvs (by rw [List.length_append, List.nil_append]; omega)
    simp only [Option.toList, List.append_nil]
    exact ⟨more ts x comma vs xs hx hts (hcomma comma rfl) hlist, by rw [List.length_cons]; omega⟩

/-- Items past the limit are reported, so without reports there are no more than it allows. A budget
of more than the tokens is enough. -/
theorem separated_obeys {α : Type} {A : α → Prop} {item : Parser α}
    {I : List Token → α → Prop} {L : List Token → List α → Prop}
    (one : ∀ ts x, A x → I ts x → L ts [x])
    (more : ∀ ts x comma us xs, A x → I ts x → comma.kind = .comma → L us xs →
      L (ts ++ comma :: us) (x :: xs))
    (hitem : Obeys n A (fun _ ts x _ => I ts x) item) (tooMany : ParseFault) (m count : Nat) :
    Obeys n (fun xs => ∀ x ∈ xs, A x)
      (fun _ ts xs rest => (ts ++ rest).length < m → L ts xs ∧ count + xs.length ≤ maxCount)
      (separated item tooMany m count) := by
  induction m generalizing count with
  | zero => exact .pure (by simp) fun _ _ _ h => absurd h (Nat.not_lt_zero _)
  | succ m ih =>
    have hread := item_then_obeys one more hitem (ih (count + 1))
    rw [separated]
    dsimp only
    split
    · exact peek_then fun token => report_then hread
    · rename_i hcount
      exact hread.mono n.le_refl (fun _ h => h) fun _ _ _ _ _ h =>
        h (Nat.lt_of_not_le hcount)

/-- Arguments and parameters are lists of items up to a closing parenthesis, or none. -/
theorem listed_obeys {α : Type} {A : α → Prop} {item : Parser α} {I : List Token → α → Prop}
    {L : List Token → List α → Prop} (one : ∀ ts x, A x → I ts x → L ts [x])
    (more : ∀ ts x comma us xs, A x → I ts x → comma.kind = .comma → L us xs →
      L (ts ++ comma :: us) (x :: xs))
    (hitem : Obeys n A (fun _ ts x _ => I ts x) item) (tooMany : ParseFault) {m : Nat}
    (hm : n < m) :
    Obeys n (fun xs => ∀ x ∈ xs, A x)
      (fun _ ts xs _ => (ts = [] ∧ xs = []) ∨ L ts xs ∧ xs.length ≤ maxCount)
      (listed item tooMany m) := by
  refine (nextIs_obeys _).seq fun isNext _ => ?_
  split
  · exact .pure (by simp) fun _ _ _ ts _ hts => .inl (by simpa using hts)
  · refine (separated_obeys one more hitem tooMany m 0).mono n.le_refl (fun _ h => h) ?_
    rintro _ us xs rest _ h ts hlength rfl
    obtain ⟨hlist, hcount⟩ := h (Nat.lt_of_le_of_lt hlength hm)
    exact .inr ⟨hlist, by simpa using hcount⟩

theorem arguments_obeys (he : Obeys n Proper (fun _ ts e _ => Expression ts e) expression) :
    Obeys n (fun es => ∀ e ∈ es, Proper e)
      (fun _ ts es _ => (ts = [] ∧ es = []) ∨ Arguments ts es ∧ es.length ≤ maxCount)
      (arguments expression (n + 1)) :=
  listed_obeys (fun _ _ _ => .one) (fun _ _ _ _ _ _ => .more) he _ n.lt_succ_self

/-- The loop over calls makes longer calls out of a callee. -/
theorem callsFrom_obeys (he : Obeys n Proper (fun _ ts e _ => Expression ts e) expression)
    (m : Nat) {callee : Expr} (hcallee : Proper callee) :
    Obeys n Proper (fun _ ts e _ => ∀ xs, Call xs callee → Call (xs ++ ts) e)
      (callsFrom expression (n + 1) m callee) := by
  induction m generalizing callee with
  | zero => exact .pure hcallee fun _ _ _ xs hxs => by simpa using hxs
  | succ m ih =>
    refine (accept_obeys _).seq fun left? hleft => ?_
    cases left? with
    | none =>
      refine .pure hcallee ?_
      rintro _ _ _ us _ ⟨rfl, _⟩ xs hxs
      simpa using hxs
    | some left =>
      refine (arguments_obeys he).seq fun es hes => (expect_obeys _ _).seq fun right hright => ?_
      refine (ih (.call hcallee rfl hes)).mono n.le_refl (fun _ h => h) ?_
      rintro _ ws e _ _ hws vs _ rfl us _ hus ts _ ⟨rfl, _⟩ xs hxs
      obtain ⟨rfl, rfl⟩ | ⟨harguments, hcount⟩ := hus
      · simpa using hws _ (.empty hxs (hleft left rfl) hright)
      · simpa using hws _ (.call hxs (hleft left rfl) harguments hcount hright)

theorem call_obeys (he : Obeys n Proper (fun _ ts e _ => Expression ts e) expression) :
    Obeys (n + 1) Proper (fun _ ts e _ => Call ts e) (call expression (n + 1)) := by
  refine (primary_obeys he).bind (k := fun _ => n) (fun _ ts e _ _ hts => ?_) fun e hproper => ?_
  · have hpos := (Call.primary hts).length_pos
    omega
  · exact (callsFrom_obeys he (n + 1) hproper).mono n.le_refl (fun _ h => h)
      fun _ _ _ _ _ h ts _ hts => h ts (.primary hts)

theorem isUnary_iff (k : Kind) : isUnary k = true ↔ k ∈ [Kind.bang, Kind.minus] := by
  cases k <;> decide

/-- Unary operators nest to the right, one budget each. -/
theorem unaryFrom_obeys (he : Obeys n Proper (fun _ ts e _ => Expression ts e) expression)
    (m : Nat) :
    Obeys (n + 1) Proper (fun _ ts e _ => Tier .unary ts e) (unaryFrom expression (n + 1) m) := by
  have hcall : Obeys (n + 1) Proper (fun _ ts e _ => Tier .unary ts e) (call expression (n + 1)) :=
    (call_obeys he).mono (Nat.le_refl _) (fun _ h => h) fun _ _ _ _ _ h => .call h
  induction m with
  | zero => exact hcall
  | succ m ih =>
    refine (acceptIf_obeys _).seq fun operator? hop => ?_
    cases operator? with
    | none =>
      refine hcall.mono (Nat.le_refl _) (fun _ h => h) ?_
      rintro _ us e _ _ h ts _ ⟨rfl, _⟩
      exact h
    | some operator =>
      have hop := (isUnary_iff _).1 (hop operator rfl)
      refine ih.seq fun right hright => .pure (.unary (decide_eq_true hop) hright) ?_
      rintro _ _ _ us _ hus ts _ ⟨rfl, _⟩
      simpa using Tier.unary hop hus

/-! ### Levels of operators

The levels but the tightest differ in their operators only, so one lemma on chains (`chain_obeys`)
does for all of them. -/

/-- The role of the operators of a level. -/
def operatorRole : Level → Role
  | .disjunction => .logical
  | .conjunction => .logical
  | _ => .binary

theorem admits_operators (level : Level) :
    ∀ kind ∈ level.operators, (operatorRole level).admits kind = true := by
  cases level <;> decide

/-- An operator of a level fits the role it has in the tree. -/
theorem join_proper {level : Level} {x y : Expr} {operator : Token} (hx : Proper x)
    (hop : operator.kind ∈ level.operators) (hy : Proper y) :
    Proper (level.join x operator y) := by
  have hadmits := admits_operators level _ hop
  cases level with
  | disjunction => exact .logical hx hadmits hy
  | conjunction => exact .logical hx hadmits hy
  | _ => exact .binary hx hadmits hy

/-- A chain of operands derives from its level. The loop makes longer operands on the left, as the
grammar does. -/
theorem chain_obeys {level : Level} (hlevel : level ≠ .unary) {operand : Parser Expr}
    (ho : Obeys n Proper (fun _ ts e _ => Tier level.tighter ts e) operand) (m : Nat) :
    Obeys n Proper (fun _ ts e _ => Tier level ts e)
      (chain (fun k => k ∈ level.operators) level.join operand m) := by
  have hfrom (m : Nat) {left : Expr} (hleft : Proper left) :
      Obeys n Proper (fun _ ts e _ => ∀ xs, Tier level xs left → Tier level (xs ++ ts) e)
        (chainFrom (fun k => k ∈ level.operators) level.join operand m left) := by
    induction m generalizing left with
    | zero => exact .pure hleft fun _ _ _ xs hxs => by simpa using hxs
    | succ m ih =>
      refine (acceptIf_obeys _).seq fun operator? hop => ?_
      cases operator? with
      | none =>
        refine .pure hleft ?_
        rintro _ _ _ us _ ⟨rfl, _⟩ xs hxs
        simpa using hxs
      | some operator =>
        have hop := of_decide_eq_true (hop operator rfl)
        refine ho.seq fun right hright => ?_
        refine (ih (join_proper hleft hop hright)).mono n.le_refl (fun _ h => h) ?_
        rintro _ vs e _ _ hvs us _ hus ts _ ⟨rfl, _⟩ xs hxs
        simpa using hvs _ (.join hxs hop hus)
  refine ho.seq fun left hleft => (hfrom m hleft).mono n.le_refl (fun _ h => h) ?_
  exact fun _ _ _ _ _ h ts _ hts => h ts (.operand hlevel hts)

/-- The parser of a level. -/
def tier (expression : Parser Expr) (budget : Nat) : Level → Parser Expr
  | .disjunction => disjunction expression budget
  | .conjunction => conjunction expression budget
  | .equality => equality expression budget
  | .comparison => comparison expression budget
  | .term => term expression budget
  | .factor => factor expression budget
  | .unary => unary expression budget

/-- All levels but the tightest are chains of the next one. -/
theorem tier_eq_chain (expression : Parser Expr) (budget : Nat) {level : Level}
    (hlevel : level ≠ .unary) :
    tier expression budget level =
      chain (fun k => k ∈ level.operators) level.join (tier expression budget level.tighter)
        budget := by
  cases level with
  | unary => exact absurd rfl hlevel
  | _ => exact congrArg (chain · _ _ _) (funext fun k => by cases k <;> rfl)

/-- What holds of the tightest level and of each level over the next one holds of all. -/
theorem Level.tighter_induction {motive : Level → Prop} (unary : motive .unary)
    (looser : ∀ level, level ≠ .unary → motive level.tighter → motive level) (level : Level) :
    motive level := by
  have factor : motive .factor := looser _ (by decide) unary
  have term : motive .term := looser _ (by decide) factor
  have comparison : motive .comparison := looser _ (by decide) term
  have equality : motive .equality := looser _ (by decide) comparison
  have conjunction : motive .conjunction := looser _ (by decide) equality
  have disjunction : motive .disjunction := looser _ (by decide) conjunction
  cases level <;> assumption

/-- By induction on the levels, from the tightest. -/
theorem tier_obeys (he : Obeys n Proper (fun _ ts e _ => Expression ts e) expression)
    (level : Level) :
    Obeys (n + 1) Proper (fun _ ts e _ => Tier level ts e) (tier expression (n + 1) level) := by
  induction level using Level.tighter_induction with
  | unary => exact unaryFrom_obeys he (n + 1)
  | looser level hlevel ih =>
    rw [tier_eq_chain _ _ hlevel]
    exact chain_obeys hlevel ih (n + 1)

/-- The target is an expression of the loosest level. If it is not a name, this is reported at the
`=`. -/
theorem assignment_obeys (he : Obeys n Proper (fun _ ts e _ => Expression ts e) expression) :
    Obeys (n + 1) Proper (fun _ ts e _ => Expression ts e) (assignment expression (n + 1)) := by
  refine (tier_obeys he .disjunction).bind (k := fun _ => n) (fun _ ts _ _ _ hts => ?_)
    fun target htarget => ?_
  · have hpos := hts.length_pos
    omega
  refine (accept_obeys _).seq fun equals? hequals => ?_
  cases equals? with
  | none =>
    refine .pure htarget ?_
    rintro _ _ _ us _ ⟨rfl, _⟩ ts _ hts
    simpa using Expression.plain hts
  | some equals =>
    refine he.seq fun value hvalue => ?_
    split
    · refine .pure (.assign rfl hvalue) ?_
      rintro _ _ _ vs _ hvs us _ ⟨rfl, _⟩ ts _ hts
      -- the target was read as an operand, and only a name has the tree of a name
      obtain ⟨rfl, hname⟩ := hts.eq_of_var rfl
      simpa using Expression.assign hname (hequals equals rfl) hvs
    · have htarget : Obeys n Proper (fun _ _ _ _ => True) (pure target) :=
        .pure htarget fun _ _ _ => trivial
      exact report_then htarget

end

/-- **An expression that is read derives from the grammar.** -/
theorem expression_obeys {n m : Nat} (hm : n ≤ m) :
    Obeys n Proper (fun _ ts e _ => Expression ts e) (expression m) := by
  have hbudget : Obeys m Proper (fun _ ts e _ => Expression ts e) (expression m) := by
    clear hm
    induction m with
    | zero => exact peek_then fun token => failAt_obeys token _
    | succ m ih => exact assignment_obeys ih
  exact hbudget.mono hm (fun _ h => h) fun _ _ _ _ _ h => h

/-! ## Statements

What is read of a statement is said together with what is not: an `else` that could go on with it is
not the next token (`StatementRead`). This decides which `if` an `else` belongs to. -/

/-- The tokens of a statement fit their roles, wherever it stands. -/
def ProperStmt (s : Stmt) : Prop :=
  ∀ p, s.Every Role.Admits p

/-- A statement was read, and an `else` that could belong to it would have been read with it. -/
def StatementRead : Post Stmt := fun pl ts s rest =>
  ∃ isOpen, Statement pl isOpen ts s ∧ (isOpen = true → ∀ t ∈ rest.head?, t.kind ≠ .kwElse)

/-- Declarations and a closing brace were read. -/
def BlockRead : Post (List Stmt) := fun pl ts ss _ =>
  ∃ ds close, ts = ds ++ [close] ∧ Declarations pl ds ss ∧ close.kind = .rightBrace

section

variable {n m : Nat} {statement : Parser Stmt} {block : Parser (List Stmt)}

/-- Each parameter is a name. -/
theorem parameters_obeys (hm : n < m) :
    Obeys n anyResult (fun _ ts params _ => OptionalParameters ts params) (parameters m) := by
  have hlisted := listed_obeys (I := fun ts param => ts = [param]) (L := Parameters)
    (fun _ _ hkind hts => hts ▸ .one hkind) (fun _ _ _ _ _ hkind hts => hts ▸ .more hkind)
    (expect_obeys .identifier .parameterName) .tooManyParameters hm
  refine hlisted.mono n.le_refl (fun _ _ => trivial) ?_
  rintro _ ts params _ _ (⟨rfl, rfl⟩ | ⟨hparameters, hcount⟩)
  · exact .none
  · exact .some hparameters hcount

theorem varDeclaration_obeys (hm : n ≤ m) :
    Obeys n ProperStmt (fun _ ts s _ => Variable ts s) (varDeclaration m) := by
  refine (expect_obeys _ _).seq fun name hname => (accept_obeys _).seq fun equals? hequals => ?_
  cases equals? with
  | none =>
    refine (expect_obeys _ _).seq fun semicolon hsemicolon => ?_
    refine .pure (fun _ => .varDecl rfl (by simp)) ?_
    rintro _ _ _ us _ rfl ts _ ⟨rfl, _⟩ _ _ rfl
    exact .plain hname hsemicolon
  | some equals =>
    dsimp only
    rw [bind_map_left]
    refine (expression_obeys hm).seq fun e he => ?_
    refine (expect_obeys _ _).seq fun semicolon hsemicolon => ?_
    refine .pure (fun _ => .varDecl rfl fun _ h => Option.some.inj h ▸ he) ?_
    rintro _ _ _ vs _ rfl us _ hus ts _ ⟨rfl, _⟩ _ _ rfl
    simpa using Variable.initialized hname (hequals equals rfl) hus hsemicolon

/-- An expression and its semicolon. -/
theorem closed_obeys (hm : n ≤ m) {make : Expr → Stmt}
    (hmake : ∀ e, Proper e → ProperStmt (make e)) (what : Expectation) :
    Obeys n ProperStmt
      (fun _ ts s _ => ∃ e us semicolon, s = make e ∧ ts = us ++ [semicolon] ∧
        Expression us e ∧ semicolon.kind = .semicolon)
      (closed make what m) := by
  refine (expression_obeys hm).seq fun e he => (expect_obeys _ _).seq fun semicolon hsemicolon => ?_
  refine .pure (hmake e he) ?_
  rintro _ _ _ us _ rfl ts _ hts
  exact ⟨e, ts, semicolon, rfl, by simp, hts, hsemicolon⟩

theorem expressionUnless_obeys (hm : n ≤ m) (kind : Kind) :
    Obeys n (fun e? => ∀ e ∈ e?, Proper e) (fun _ ts e? _ => OptionalExpression ts e?)
      (expressionUnless kind m) := by
  refine (nextIs_obeys _).seq fun isNext _ => ?_
  split
  · exact .pure (by simp) fun _ _ _ ts _ hts => by subst hts; exact .none
  · refine (expression_obeys hm).seq fun e he => .pure (by simpa using he) ?_
    rintro _ _ _ us _ hus ts _ rfl
    simpa using OptionalExpression.some hus

/-- Three kinds of first clauses, told apart by their first token. -/
theorem forInitializer_obeys (hm : n ≤ m) :
    Obeys n (fun s? => ∀ s ∈ s?, ProperStmt s) (fun _ ts s? _ => Initializer ts s?)
      (forInitializer m) := by
  refine (accept_obeys _).seq fun semicolon? hsemicolon => ?_
  cases semicolon? with
  | some semicolon =>
    refine .pure (by simp) ?_
    rintro _ _ _ ts _ ⟨rfl, _⟩
    exact .none (hsemicolon semicolon rfl)
  | none =>
    refine (accept_obeys _).seq fun keyword? hkeyword => ?_
    cases keyword? with
    | some keyword =>
      refine (varDeclaration_obeys hm).seq fun s hs => .pure (by simpa using hs) ?_
      rintro _ _ _ vs _ hvs us _ ⟨rfl, _⟩ ts _ ⟨rfl, _⟩
      simpa using Initializer.varDecl (hkeyword keyword rfl) hvs
    | none =>
      refine (closed_obeys hm (fun _ he _ => .expression he) _).seq fun s hs => ?_
      refine .pure (by simpa using hs) ?_
      rintro _ _ _ vs _ ⟨e, ws, semicolon, rfl, rfl, he, hsemicolon⟩ us _ ⟨rfl, _⟩ ts _ ⟨rfl, _⟩
      simpa using Initializer.expression he hsemicolon

/-- The loop that is built is the one of the grammar. -/
theorem forLoop_eq_forTree (keyword : Token) (initializer : Option Stmt)
    (condition increment : Option Expr) (body : Stmt) :
    forLoop keyword initializer condition increment body =
      forTree keyword.line condition body initializer increment := by
  cases initializer <;> cases increment <;> rfl

theorem forLoop_proper (keyword : Token) {initializer : Option Stmt}
    {condition increment : Option Expr} {body : Stmt} (hinit : ∀ s ∈ initializer, ProperStmt s)
    (hcond : ∀ e ∈ condition, Proper e) (hinc : ∀ e ∈ increment, Proper e)
    (hbody : ProperStmt body) :
    ProperStmt (forLoop keyword initializer condition increment body) := by
  have hloop {s : Stmt} (hs : ProperStmt s) :
      ProperStmt (.whileLoop (condition.getD (.literal (.bool true) keyword.line)) s) := by
    refine fun p => .whileLoop ?_ (hs _)
    cases condition with
    | none => exact .literal _ _
    | some e => exact hcond e rfl
  have hpair {s s' : Stmt} (hs : ProperStmt s) (hs' : ProperStmt s') :
      ProperStmt (.block [s, s']) :=
    fun p => .block (by simpa using ⟨hs p, hs' p⟩)
  rw [forLoop_eq_forTree]
  cases initializer with
  | none => cases increment with
    | none => exact hloop hbody
    | some e => exact hloop (hpair hbody fun _ => .expression (hinc e rfl))
  | some s => cases increment with
    | none => exact hpair (hinit s rfl) (hloop hbody)
    | some e =>
      exact hpair (hinit s rfl) (hloop (hpair hbody fun _ => .expression (hinc e rfl)))

/-- Outside of loops this is reported, so without reports the statement is inside one. -/
theorem breakStatement_obeys {keyword : Token} (hkeyword : keyword.kind = .kwBreak) :
    Obeys n ProperStmt (fun pl ts s rest => StatementRead pl (keyword :: ts) s rest)
      (breakStatement keyword) := by
  have hread : Obeys n ProperStmt
      (fun pl ts s rest => pl.inLoop = true → StatementRead pl (keyword :: ts) s rest)
      (do
        let _ ← expect .semicolon .semicolonAfterBreak
        return .breakOut keyword) := by
    refine (expect_obeys _ _).seq fun semicolon hsemicolon => .pure (fun _ => .breakOut rfl) ?_
    rintro _ _ _ ts _ rfl hloop
    exact ⟨false, .breakOut hloop hkeyword hsemicolon, by simp⟩
  exact checked_obeys (fun _ hdepth => decide_eq_true hdepth) hread

theorem returnStatement_obeys (hm : n ≤ m) {keyword : Token} (hkeyword : keyword.kind = .kwReturn) :
    Obeys n ProperStmt (fun pl ts s rest => StatementRead pl (keyword :: ts) s rest)
      (returnStatement m keyword) := by
  have hread : Obeys n ProperStmt
      (fun pl ts s rest => pl.inFunction = true → StatementRead pl (keyword :: ts) s rest)
      (do
        let value ← expressionUnless .semicolon m
        let _ ← expect .semicolon .semicolonAfterReturn
        return .giveBack keyword value) := by
    refine (expressionUnless_obeys hm _).seq fun value hvalue => ?_
    refine (expect_obeys _ _).seq fun semicolon hsemicolon => ?_
    refine .pure (fun _ => .giveBack rfl hvalue) ?_
    rintro _ _ _ us _ rfl ts _ hts hfunction
    exact ⟨false, by simpa using .giveBack hfunction hkeyword hts hsemicolon, by simp⟩
  exact checked_obeys (fun _ hdepth => decide_eq_true hdepth) hread

theorem printStatement_obeys (hm : n ≤ m) {keyword : Token} (hkeyword : keyword.kind = .kwPrint) :
    Obeys n ProperStmt (fun pl ts s rest => StatementRead pl (keyword :: ts) s rest)
      (printStatement m) := by
  have hclosed := closed_obeys hm (fun _ he _ => .print he) .semicolonAfterValue
  refine hclosed.mono n.le_refl (fun _ h => h) ?_
  rintro _ _ _ _ _ ⟨e, us, semicolon, rfl, rfl, he, hsemicolon⟩
  exact ⟨false, .print hkeyword he hsemicolon, by simp⟩

theorem whileStatement_obeys (hm : n ≤ m) {keyword : Token} (hkeyword : keyword.kind = .kwWhile)
    (hs : Obeys n ProperStmt StatementRead statement) :
    Obeys n ProperStmt (fun pl ts s rest => StatementRead pl (keyword :: ts) s rest)
      (whileStatement statement m) := by
  refine (expect_obeys _ _).seq fun left hleft => (expression_obeys hm).seq fun e he => ?_
  refine (expect_obeys _ _).seq fun right hright => (insideLoop_obeys hs).seq fun body hbody => ?_
  refine .pure (fun _ => .whileLoop he (hbody _)) ?_
  rintro _ _ _ ws _ ⟨isOpen, hws, helse⟩ vs _ rfl us _ hus ts _ rfl
  exact ⟨isOpen, by simpa using .whileLoop hkeyword hleft hus hright hws, helse⟩

/-- An `else` goes with the nearest `if`, since the first branch would have read it. -/
theorem ifStatement_obeys (hm : n ≤ m) {keyword : Token} (hkeyword : keyword.kind = .kwIf)
    (hs : Obeys n ProperStmt StatementRead statement) :
    Obeys n ProperStmt (fun pl ts s rest => StatementRead pl (keyword :: ts) s rest)
      (ifStatement statement m) := by
  refine (expect_obeys _ _).seq fun left hleft => (expression_obeys hm).seq fun e he => ?_
  refine (expect_obeys _ _).seq fun right hright => hs.seq fun thenBranch hthen => ?_
  refine (accept_obeys _).seq fun other? hother => ?_
  cases other? with
  | none =>
    refine .pure (fun p => .ifElse he (hthen p) (by simp)) ?_
    rintro _ _ _ xs _ ⟨rfl, hnone⟩ ws _ ⟨isOpen, hws, _⟩ vs _ rfl us _ hus ts _ rfl
    refine ⟨true, by simpa using .ifThen hkeyword hleft hus hright hws, fun _ t ht => ?_⟩
    exact of_decide_eq_false (hnone rfl t ht)
  | some other =>
    refine hs.seq fun elseBranch helse => .pure (fun p => .ifElse he (hthen p) ?_) ?_
    · simpa using helse p
    rintro _ _ _ ys _ ⟨isOpen', hys, helse⟩ xs _ ⟨rfl, _⟩ ws _ ⟨isOpen, hws, hclosed⟩ vs _ rfl
      us _ hus ts _ rfl
    have hother := hother other rfl
    -- an open branch would have read the `else` itself
    cases isOpen with
    | true => exact absurd hother (hclosed rfl other rfl)
    | false =>
      exact ⟨isOpen', by simpa using .ifElse hkeyword hleft hus hright hws hother hys, helse⟩

theorem forStatement_obeys (hm : n ≤ m) {keyword : Token} (hkeyword : keyword.kind = .kwFor)
    (hs : Obeys n ProperStmt StatementRead statement) :
    Obeys n ProperStmt (fun pl ts s rest => StatementRead pl (keyword :: ts) s rest)
      (forStatement statement m keyword) := by
  refine (expect_obeys _ _).seq fun left hleft => (forInitializer_obeys hm).seq fun init hinit => ?_
  refine (expressionUnless_obeys hm _).seq fun condition hcond => ?_
  refine (expect_obeys _ _).seq fun semicolon hsemicolon => ?_
  refine (expressionUnless_obeys hm _).seq fun increment hinc => ?_
  refine (expect_obeys _ _).seq fun right hright => (insideLoop_obeys hs).seq fun body hbody => ?_
  refine .pure (forLoop_proper keyword hinit hcond hinc hbody) ?_
  rintro _ _ _ zs _ ⟨isOpen, hzs, helse⟩ ys _ rfl xs _ hxs ws _ rfl vs _ hvs us _ hus ts _ rfl
  rw [forLoop_eq_forTree]
  exact ⟨isOpen, by simpa using .forLoop hkeyword hleft hus hvs hsemicolon hxs hright hzs, helse⟩

/-- The first token chooses the rule. -/
theorem plainStatement_obeys (hs : Obeys n ProperStmt StatementRead statement)
    (hb : Obeys n (fun ss => ∀ s ∈ ss, ProperStmt s) BlockRead block) :
    Obeys (n + 1) ProperStmt StatementRead (plainStatement statement block (n + 1)) := by
  refine peek_then fun token => ?_
  have hn : n ≤ n + 1 := Nat.le_succ n
  split
  case h_1 hkind => exact skip_then (by simp [hkind]) (breakStatement_obeys hkind)
  case h_2 hkind => exact skip_then (by simp [hkind]) (forStatement_obeys hn hkind hs)
  case h_3 hkind => exact skip_then (by simp [hkind]) (ifStatement_obeys hn hkind hs)
  case h_4 hkind => exact skip_then (by simp [hkind]) (printStatement_obeys hn hkind)
  case h_5 hkind => exact skip_then (by simp [hkind]) (returnStatement_obeys hn hkind)
  case h_6 hkind => exact skip_then (by simp [hkind]) (whileStatement_obeys hn hkind hs)
  case h_7 hkind =>
    refine skip_then (by simp [hkind]) (hb.seq fun ss hss => .pure (fun p => ?_) ?_)
    · exact .block fun s hmem => hss s hmem p
    · rintro _ _ _ ts _ ⟨ds, close, rfl, hds, hclose⟩
      exact ⟨false, by simpa using .block hkind hds hclose, by simp⟩
  case h_8 =>
    have hclosed := closed_obeys (n + 1).le_refl (fun _ he _ => .expression he)
      .semicolonAfterExpression
    refine hclosed.mono (Nat.le_refl _) (fun _ h => h) ?_
    rintro _ _ _ _ _ ⟨e, ts, semicolon, rfl, rfl, he, hsemicolon⟩ _
    exact ⟨false, .expression he hsemicolon, by simp⟩

theorem funDeclaration_obeys (hm : n < m) {keyword : Token} (hkeyword : keyword.kind = .kwFun)
    (hb : Obeys n (fun ss => ∀ s ∈ ss, ProperStmt s) BlockRead block) :
    Obeys n ProperStmt (fun pl ts s _ => Declaration pl (keyword :: ts) s)
      (funDeclaration block m) := by
  refine (expect_obeys _ _).seq fun name hname => (expect_obeys _ _).seq fun left hleft => ?_
  refine (parameters_obeys hm).seq fun params _ => (expect_obeys _ _).seq fun right hright => ?_
  refine (expect_obeys _ _).seq fun brace hbrace => ?_
  refine (insideFunction_obeys hb).seq fun body hbody => ?_
  refine .pure (fun _ => .funDecl rfl (fun _ _ => rfl) fun s hs => hbody s hs _) ?_
  rintro _ _ _ ys _ ⟨ds, close, rfl, hds, hclose⟩ xs _ rfl ws _ rfl vs _ hvs us _ rfl ts _ rfl
  simpa using Declaration.function hkeyword hname hleft hvs hright hbrace hds hclose

theorem anyStatement_obeys (hs : Obeys n ProperStmt StatementRead statement)
    (hb : Obeys n (fun ss => ∀ s ∈ ss, ProperStmt s) BlockRead block) :
    Obeys (n + 1) ProperStmt (fun pl ts s _ => Declaration pl ts s)
      (anyStatement statement block (n + 1)) := by
  refine peek_then fun token => ?_
  split
  case h_1 hkind => exact skip_then (by simp [hkind]) (funDeclaration_obeys n.lt_succ_self hkind hb)
  case h_2 hkind =>
    refine skip_then (by simp [hkind]) ?_
    exact (varDeclaration_obeys n.le_succ).mono n.le_refl (fun _ h => h)
      fun _ _ _ _ _ h => .varDecl hkind h
  case h_3 =>
    refine (plainStatement_obeys hs hb).mono (Nat.le_refl _) (fun _ h => h) ?_
    rintro _ _ _ _ _ ⟨_, h, _⟩ _
    exact .statement h

/-! ## Declarations and programs

A declaration that fails is reported and leaves nothing. Without reports each one has left its
tree. -/

variable {declaration : Parser (Option Stmt)}

theorem consOption_proper {s? : Option Stmt} {ss : List Stmt} (hs : ∀ s ∈ s?, ProperStmt s)
    (hss : ∀ s ∈ ss, ProperStmt s) : ∀ s ∈ consOption s? ss, ProperStmt s := by
  cases s? with
  | none => exact hss
  | some s => exact List.forall_mem_cons.2 ⟨hs s rfl, hss⟩

/-- Declarations up to a closing brace or the end. -/
theorem declarations_obeys
    (hd : Obeys n (fun s? => ∀ s ∈ s?, ProperStmt s)
      (fun pl ts s? _ => ∃ s, s? = some s ∧ Declaration pl ts s) declaration) (m : Nat) :
    Obeys n (fun ss => ∀ s ∈ ss, ProperStmt s) (fun pl ts ss _ => Declarations pl ts ss)
      (declarations declaration m) := by
  induction m with
  | zero => exact .pure (by simp) fun _ _ _ => .nil
  | succ m ih =>
    refine (nextIs_obeys _).seq fun isNext _ => atEnd_obeys.seq fun isEnd _ => ?_
    split
    · refine .pure (by simp) ?_
      rintro _ _ _ us _ ⟨rfl, _⟩ ts _ rfl
      exact .nil
    · refine hd.seq fun s? hs => ih.seq fun ss hss => .pure (consOption_proper hs hss) ?_
      rintro _ _ _ ws _ hws vs _ ⟨s, rfl, hvs⟩ us _ ⟨rfl, _⟩ ts _ rfl
      simpa [consOption] using Declarations.cons hvs hws

theorem block_obeys
    (hd : Obeys n (fun s? => ∀ s ∈ s?, ProperStmt s)
      (fun pl ts s? _ => ∃ s, s? = some s ∧ Declaration pl ts s) declaration) (m : Nat) :
    Obeys n (fun ss => ∀ s ∈ ss, ProperStmt s) BlockRead (Parser.block declaration m) := by
  refine (declarations_obeys hd m).seq fun ss hss => ?_
  refine (expect_obeys _ _).seq fun close hclose => .pure hss ?_
  rintro _ _ _ us _ rfl ts _ hts
  exact ⟨ts, close, by simp, hts, hclose⟩

end

/-- **A statement that is read derives from the grammar**, and so does a declaration. -/
theorem statement_obeys (n : Nat) :
    Obeys n ProperStmt StatementRead (statement n false) ∧
      Obeys n ProperStmt (fun pl ts s _ => Declaration pl ts s) (statement n true) := by
  induction n with
  | zero => exact ⟨peek_then fun t => failAt_obeys t _, peek_then fun t => failAt_obeys t _⟩
  | succ n ih =>
    have hblock := block_obeys (recovering_obeys ih.2) (n + 1)
    exact ⟨plainStatement_obeys ih.1 hblock, anyStatement_obeys ih.1 hblock⟩

/-- A program is read to its end, if the budget covers the tokens. -/
theorem programFrom_obeys {n : Nat} {declaration : Parser (Option Stmt)}
    (hd : Obeys n (fun s? => ∀ s ∈ s?, ProperStmt s)
      (fun pl ts s? _ => ∃ s, s? = some s ∧ Declaration pl ts s) declaration) (m : Nat) :
    Obeys n (fun ss => ∀ s ∈ ss, ProperStmt s)
      (fun pl ts ss rest => (ts ++ rest).length ≤ m → Declarations pl ts ss ∧ rest = [])
      (programFrom declaration m) := by
  induction m with
  | zero =>
    exact .pure (by simp) fun _ _ _ h => ⟨.nil, List.eq_nil_of_length_eq_zero (Nat.le_zero.1 h)⟩
  | succ m ih =>
    refine atEnd_obeys.seq fun isEnd _ => ?_
    split
    · rename_i hend
      refine .pure (by simp) ?_
      rintro _ _ _ ts _ ⟨rfl, h⟩ _
      exact ⟨.nil, h hend⟩
    · refine hd.seq fun s? hs => ih.seq fun ss hss => .pure (consOption_proper hs hss) ?_
      rintro _ _ _ vs _ hvs us _ ⟨s, rfl, hus⟩ ts _ ⟨rfl, _⟩ hlength
      -- a declaration reads something, so the budget of the loop lasts to the end
      have hpos := hus.length_pos
      simp only [List.nil_append, List.append_nil, List.length_append] at hlength
      obtain ⟨hvs, hrest⟩ := hvs (by rw [List.length_append, List.nil_append]; omega)
      exact ⟨by simpa [consOption] using Declarations.cons hus hvs, hrest⟩

/-- If there is no end token, one is made up. -/
theorem stop_ofTokens (tokens : List Token) : (State.ofTokens tokens).stop.kind = .eof := by
  unfold State.ofTokens
  dsimp only
  cases hfind : tokens.find? fun t => t.kind = .eof with
  | none => rfl
  | some t => simpa using List.find?_some hfind

/-- What a parse yields, and what it yields if nothing was reported. -/
theorem parse_obeys (tokens : List Token) :
    (∀ s ∈ (parse tokens).statements, ProperStmt s) ∧
      ((parse tokens).errors = [] →
        Declarations .top (State.ofTokens tokens).rest (parse tokens).statements) := by
  have hprogram := programFrom_obeys
    (recovering_obeys (statement_obeys (State.ofTokens tokens).rest.length).2)
    (State.ofTokens tokens).rest.length (State.ofTokens tokens) (stop_ofTokens tokens)
  unfold parse
  change Meets _ _ _ _ (program _ _) at hprogram
  dsimp only
  revert hprogram
  cases program (State.ofTokens tokens).rest.length (State.ofTokens tokens) with
  | error e s => exact fun _ => ⟨by simp, by simp⟩
  | ok ss s =>
    rintro ⟨ts, hreads, hss, hD⟩
    refine ⟨hss, fun hquiet => ?_⟩
    have herrors : s.errors = #[] := Array.toList_inj.1 hquiet
    obtain ⟨hdecls, hrest⟩ := hD (Nat.le_refl _) herrors (hreads.rest ▸ Nat.le_refl _)
    rw [hreads.rest, hrest, List.append_nil]
    exact hdecls

end Parser

end GradedScript
