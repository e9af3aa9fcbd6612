import GradedScript.Proofs.Parser.Leading
import GradedScript.Proofs.Parser.Soundness

/-!
# What is in the grammar is accepted

Each derivation leads its parser to its tree, if the budget covers the tokens and what comes next
does not go on with the same phrase. The budget is spent on nesting and on loops over tokens, and
either takes a token each time.
-/

namespace GradedScript

/-! ## What phrases begin and end with, and what goes on with them

A parser looks one token ahead to choose a rule, and stops at a token that does not go on with the
phrase. So for each phrase we need the kinds it may begin with, which by the look ahead keep other
rules off it, and the kinds that would go on with it, none of which may come next. -/

namespace Grammar

/-- The kinds an expression may begin with. -/
def expressionStarts : List Kind :=
  [.kwFalse, .kwTrue, .kwNil, .number, .string, .identifier, .leftParen, .bang, .minus]

/-- The kinds a call may begin with. -/
def callStarts : List Kind :=
  [.kwFalse, .kwTrue, .kwNil, .number, .string, .identifier, .leftParen]

/-- The kinds a statement may begin with. -/
def statementStarts : List Kind :=
  expressionStarts ++ [.kwPrint, .kwBreak, .kwReturn, .leftBrace, .kwIf, .kwWhile, .kwFor]

/-- The kinds a declaration may begin with. -/
def declarationStarts : List Kind :=
  statementStarts ++ [.kwFun, .kwVar]

/-- The first token is of one of the kinds. -/
def Starts (kinds : List Kind) (ts : List Token) : Prop :=
  ∃ t us, ts = t :: us ∧ t.kind ∈ kinds

variable {ts us : List Token} {e : Expr} {kinds kinds' : List Kind}

/-- How `Starts` is shown in use: the kind of the first token is known. -/
theorem Starts.of_kind {t : Token} {kind : Kind} (h : t.kind = kind) (hkind : kind ∈ kinds) :
    Starts kinds (t :: ts) :=
  ⟨t, ts, rfl, h ▸ hkind⟩

theorem Starts.mono (h : Starts kinds ts) (hsub : kinds ⊆ kinds') : Starts kinds' ts := by
  obtain ⟨t, us, hts, hkind⟩ := h
  exact ⟨t, us, hts, hsub hkind⟩

theorem Starts.append (h : Starts kinds ts) (us : List Token) : Starts kinds (ts ++ us) := by
  obtain ⟨t, vs, rfl, hkind⟩ := h
  exact ⟨t, vs ++ us, rfl, hkind⟩

theorem Primary.starts (h : Primary ts e) : Starts callStarts ts := by
  cases h with
  | false hkind => exact .of_kind hkind (by decide)
  | true hkind => exact .of_kind hkind (by decide)
  | nil hkind => exact .of_kind hkind (by decide)
  | value hkind =>
    rcases hkind with hkind | hkind
    · exact .of_kind hkind (by decide)
    · exact .of_kind hkind (by decide)
  | name hkind => exact .of_kind hkind (by decide)
  | group hleft => exact .of_kind hleft (by decide)

/-- The callee comes first, so a call begins like a primary. -/
theorem Call.starts {ts : List Token} {e : Expr} : Call ts e → Starts callStarts ts
  | .primary h => h.starts
  | .empty h _ _ => h.starts.append _
  | .call h _ _ _ _ => h.starts.append _

/-- An operator other than `!` and `-` comes second. -/
theorem Tier.starts {level : Level} {ts : List Token} {e : Expr} :
    Tier level ts e → Starts expressionStarts ts
  | .operand _ h => h.starts
  | .join h _ _ => h.starts.append _
  | .unary hop _ => ⟨_, _, rfl, List.mem_append_right callStarts hop⟩
  | .call h => h.starts.mono (by decide)

theorem Expression.starts (h : Expression ts e) : Starts expressionStarts ts := by
  cases h with
  | assign hname => exact .of_kind hname (by decide)
  | plain h => exact h.starts

theorem Arguments.starts {es : List Expr} (h : Arguments ts es) : Starts expressionStarts ts := by
  cases h with
  | one h => exact h.starts
  | more h => exact h.starts.append _

/-- Apart from an expression, each statement has a token of its own to begin with. -/
theorem Statement.starts {p : Place} {isOpen : Bool} {s : Stmt} (h : Statement p isOpen ts s) :
    Starts statementStarts ts := by
  cases h with
  | expression h => exact (h.starts.append _).mono (List.subset_append_left _ _)
  | print hkeyword => exact .of_kind hkeyword (by decide)
  | breakOut _ hkeyword => exact .of_kind hkeyword (by decide)
  | giveBack _ hkeyword => exact .of_kind hkeyword (by decide)
  | block hleft => exact .of_kind hleft (by decide)
  | ifThen hkeyword => exact .of_kind hkeyword (by decide)
  | ifElse hkeyword => exact .of_kind hkeyword (by decide)
  | whileLoop hkeyword => exact .of_kind hkeyword (by decide)
  | forLoop hkeyword => exact .of_kind hkeyword (by decide)

theorem Declaration.starts {p : Place} {s : Stmt} (h : Declaration p ts s) :
    Starts declarationStarts ts := by
  cases h with
  | function hkeyword => exact .of_kind hkeyword (by decide)
  | varDecl hkeyword => exact .of_kind hkeyword (by decide)
  | statement h => exact h.starts.mono (List.subset_append_left _ _)

/-- There may be no declarations at all. -/
theorem Declarations.starts {p : Place} {ss : List Stmt} (h : Declarations p ts ss) :
    ts = [] ∨ Starts declarationStarts ts := by
  cases h with
  | nil => exact .inl rfl
  | cons h => exact .inr (h.starts.append _)

/-- The kinds an expression may end with. -/
def expressionEnds : List Kind :=
  [.kwFalse, .kwTrue, .kwNil, .number, .string, .identifier, .rightParen]

/-- The last token is of one of the kinds. -/
def Closes (kinds : List Kind) (ts : List Token) : Prop :=
  ∃ us t, ts = us ++ [t] ∧ t.kind ∈ kinds

theorem Closes.of_kind {t : Token} {kind : Kind} (h : t.kind = kind) (hkind : kind ∈ kinds) :
    Closes kinds [t] :=
  ⟨[], t, rfl, h ▸ hkind⟩

/-- Tokens in front do not matter to the end. -/
theorem Closes.append (h : Closes kinds ts) (us : List Token) : Closes kinds (us ++ ts) := by
  obtain ⟨vs, t, rfl, hkind⟩ := h
  exact ⟨us ++ vs, t, (List.append_assoc us vs [t]).symm, hkind⟩

theorem Closes.cons (h : Closes kinds ts) (t : Token) : Closes kinds (t :: ts) :=
  h.append [t]

theorem Primary.closes (h : Primary ts e) : Closes expressionEnds ts := by
  cases h with
  | false hkind => exact .of_kind hkind (by decide)
  | true hkind => exact .of_kind hkind (by decide)
  | nil hkind => exact .of_kind hkind (by decide)
  | value hkind =>
    rcases hkind with hkind | hkind
    · exact .of_kind hkind (by decide)
    · exact .of_kind hkind (by decide)
  | name hkind => exact .of_kind hkind (by decide)
  | group _ _ hright => exact ((Closes.of_kind hright (by decide)).append _).cons _

theorem Call.closes (h : Call ts e) : Closes expressionEnds ts := by
  cases h with
  | primary h => exact h.closes
  | empty _ _ hright => exact ((Closes.of_kind hright (by decide)).cons _).append _
  | call _ _ _ _ hright => exact (((Closes.of_kind hright (by decide)).append _).cons _).append _

/-- The last operand ends a chain. -/
theorem Tier.closes {level : Level} {ts : List Token} {e : Expr} :
    Tier level ts e → Closes expressionEnds ts
  | .operand _ h => h.closes
  | .join _ _ h => (h.closes.cons _).append _
  | .unary _ h => h.closes.cons _
  | .call h => h.closes

theorem Expression.closes {ts : List Token} {e : Expr} :
    Expression ts e → Closes expressionEnds ts
  | .assign _ _ h => (h.closes.cons _).cons _
  | .plain h => h.closes

/-- The kinds that go on with operands, loosest first, the parenthesis of a call last. -/
def continuing : List Kind :=
  [.kwOr, .kwAnd, .bangEqual, .equalEqual, .greater, .greaterEqual, .less, .lessEqual, .minus,
    .plus, .slash, .star, .leftParen]

/-- The kinds that go on with operands of a level: its operators and what binds tighter. -/
def Level.continuations : Level → List Kind
  | .disjunction => continuing
  | .conjunction => continuing.drop 1
  | .equality => continuing.drop 2
  | .comparison => continuing.drop 4
  | .term => continuing.drop 8
  | .factor => continuing.drop 10
  | .unary => continuing.drop 12

theorem Level.operators_subset (level : Level) : level.operators ⊆ level.continuations := by
  cases level <;> decide

/-- What goes on with an operand goes on with the chain it is in. -/
theorem Level.tighter_subset (level : Level) :
    level.tighter.continuations ⊆ level.continuations := by
  cases level <;> decide

/-- An operator of a level does not go on with its operands. -/
theorem Level.not_mem_tighter {level : Level} (hlevel : level ≠ .unary) :
    ∀ kind ∈ level.operators, kind ∉ level.tighter.continuations := by
  cases level with
  | unary => exact absurd rfl hlevel
  | _ => decide

theorem Level.ne_unary {level : Level} {kind : Kind} (h : kind ∈ level.operators) :
    level ≠ .unary := by
  rintro rfl
  cases h

/-- The kinds that go on with an expression. -/
def expressionContinuations : List Kind :=
  .equal :: continuing

end Grammar

open Grammar

namespace Parser

/-- The first token of a phrase keeps off the kinds that no such phrase begins with. -/
theorem ends_of_starts {kinds : List Kind} {kind : Kind} {ts : List Token} (h : Starts kinds ts)
    (hkind : kind ∉ kinds) (rest : List Token) : Ends [kind] (ts ++ rest) := by
  obtain ⟨t, us, rfl, ht⟩ := h
  refine .cons fun hmem => hkind ?_
  rwa [← List.mem_singleton.1 hmem]

/-! ## Lists

Arguments and parameters are read by one loop, which reports nothing as long as there are no more
than the limit. -/

section

variable {α : Type} {s : State} {rest ts us : List Token} {item : Parser α} {tooMany : ParseFault}
  {m count : Nat} {x : α} {xs : List α}

/-- Within the limit nothing is reported. -/
theorem separated_succ (hcount : count < maxCount) :
    separated item tooMany (m + 1) count = (do
      let x ← item
      match ← accept .comma with
      | some _ => return x :: (← separated item tooMany m (count + 1))
      | none => return [x]) := by
  rw [separated]
  exact if_neg (Nat.not_le.2 hcount)

/-- The last item is not followed by a comma. -/
theorem Leads.separated_one (h : Leads s rest item ts (pure x)) (hends : Ends [.comma] rest)
    (hcount : count < maxCount) :
    Leads s rest (separated item tooMany (m + 1) count) ts (pure [x]) := by
  rw [separated_succ hcount]
  exact h.last ((accept_leads_none hends).last .refl)

/-- An item with a comma behind it, in front of other items. -/
theorem Leads.separated_more {comma : Token} (h : Leads s (comma :: us ++ rest) item ts (pure x))
    (hcomma : comma.kind = .comma)
    (hothers : Leads s rest (separated item tooMany m (count + 1)) us (pure xs))
    (hcount : count < maxCount) :
    Leads s rest (separated item tooMany (m + 1) count) (ts ++ comma :: us) (pure (x :: xs)) := by
  rw [separated_succ hcount]
  exact h.next ((accept_leads hcomma).next (hothers.last .refl))

theorem listed_leads_nil {right : Token} (hright : right.kind = .rightParen) :
    Leads s (right :: rest) (listed item tooMany m) [] (pure []) :=
  (nextIs_leads hright).last .refl

/-- A list is read if its first token is no closing parenthesis. -/
theorem listed_leads {right : Token} {kinds : List Kind} (hstarts : Starts kinds ts)
    (hkinds : .rightParen ∉ kinds)
    (h : Leads s (right :: rest) (separated item tooMany m 0) ts (pure xs)) :
    Leads s (right :: rest) (listed item tooMany m) ts (pure xs) :=
  Leads.look (nextIs_leads_false (ends_of_starts hstarts hkinds _)) h

end

/-! ## Expressions

For each nonterminal there is a predicate that says where its tokens lead its parser. Calls and
chains of operators are loops: after each callee or operand the parser looks for more. So their
tokens lead to where the loop looks next, with enough of its budget left, which follows a grammar
that nests to the left. Where nothing more comes, the loop ends (`TierLeads.leads`,
`CallLeads.leads`). -/

section

variable {ts us : List Token} {e : Expr} {level : Level}

/-- The tokens lead `expression` to the tree. -/
def ExpressionLeads (ts : List Token) (e : Expr) : Prop :=
  ∀ n s rest, ts.length ≤ n → Ends expressionContinuations rest →
    Leads s rest (expression n) ts (pure e)

/-- The tokens lead `separated` to the trees, as arguments. -/
def ArgumentsLead (ts : List Token) (es : List Expr) : Prop :=
  ∀ n m count s rest, ts.length ≤ n → ts.length ≤ m → count + es.length ≤ maxCount →
    Ends (.comma :: expressionContinuations) rest →
    Leads s rest (separated (expression n) .tooManyArguments m count) ts (pure es)

/-- The tokens lead `primary` to the tree. -/
def PrimaryLeads (ts : List Token) (e : Expr) : Prop :=
  ∀ n s rest, ts.length ≤ n + 1 → Leads s rest (primary (expression n)) ts (pure e)

/-- The tokens lead `call` to where it looks for calls of the tree. -/
def CallLeads (ts : List Token) (e : Expr) : Prop :=
  ∀ n s rest, ts.length ≤ n + 1 → ∃ m, n + 1 ≤ m + ts.length ∧
    Leads s rest (call (expression n) (n + 1)) ts (callsFrom (expression n) (n + 1) m e)

/-- The tokens lead `unaryFrom` to the tree. -/
def UnaryLeads (ts : List Token) (e : Expr) : Prop :=
  ∀ n m s rest, ts.length ≤ n + 1 → ts.length ≤ m → Ends [.leftParen] rest →
    Leads s rest (unaryFrom (expression n) (n + 1) m) ts (pure e)

/-- The tokens lead the chain of a level to where it looks for operators behind the tree. -/
def ChainLeads (level : Level) (ts : List Token) (e : Expr) : Prop :=
  ∀ n s rest, ts.length ≤ n + 1 → Ends level.tighter.continuations rest →
    ∃ m, n + 1 ≤ m + ts.length ∧
      Leads s rest (tier (expression n) (n + 1) level) ts
        (chainFrom (fun k => k ∈ level.operators) level.join
          (tier (expression n) (n + 1) level.tighter) m e)

/-- The tokens lead the parser of a level towards the tree. -/
def TierLeads (level : Level) (ts : List Token) (e : Expr) : Prop :=
  if level = .unary then UnaryLeads ts e else ChainLeads level ts e

/-- Where no operator of the level comes next, its parser yields the tree. -/
theorem TierLeads.leads (h : TierLeads level ts e) {n : Nat} {s : State} {rest : List Token}
    (hn : ts.length ≤ n + 1) (hends : Ends level.continuations rest) :
    Leads s rest (tier (expression n) (n + 1) level) ts (pure e) := by
  unfold TierLeads at h
  split at h
  · rename_i hlevel
    subst hlevel
    exact h n (n + 1) s rest hn hn hends
  · obtain ⟨m, -, hchain⟩ := h n s rest hn (hends.mono level.tighter_subset)
    have hnone : Leads s rest (acceptIf fun k => k ∈ level.operators) [] (pure none) :=
      acceptIf_leads_none fun t ht => decide_eq_false fun hmem =>
        hends t ht (level.operators_subset hmem)
    have hstop : Leads s rest (chainFrom (fun k => k ∈ level.operators) level.join
        (tier (expression n) (n + 1) level.tighter) m e) [] (pure e) := by
      cases m with
      | zero => exact .refl
      | succ m => exact hnone.last .refl
    have hboth := Leads.trans hchain hstop
    rwa [List.append_nil] at hboth

/-! ### Primaries and calls -/

/-- A token of which `primary` makes a literal. -/
theorem PrimaryLeads.literal {t : Token} {v : Literal}
    (h : (t.kind = .kwFalse ∧ v = .bool false) ∨ (t.kind = .kwTrue ∧ v = .bool true) ∨
      (t.kind = .kwNil ∧ v = .nil) ∨
      ((t.kind = .number ∨ t.kind = .string) ∧ t.literal = some v)) :
    PrimaryLeads [t] (.literal v t.line) := by
  intro n s rest _
  have hlook : Leads s (t :: rest) (primary (expression n)) [] _ := peek_leads _
  have hskip : Leads s rest (Parser.literal t v) [t] (pure (.literal v t.line)) := skip_leads _
  suffices hmade : Leads s (t :: rest) (primary (expression n)) [] (Parser.literal t v) from
    Leads.trans hmade hskip
  rcases h with ⟨hkind, rfl⟩ | ⟨hkind, rfl⟩ | ⟨hkind, rfl⟩ | ⟨hkind | hkind, hvalue⟩
  · simpa only [hkind] using hlook
  · simpa only [hkind] using hlook
  · simpa only [hkind] using hlook
  · simpa only [hkind, hvalue] using hlook
  · simpa only [hkind, hvalue] using hlook

/-- A closing parenthesis does not go on with the expression inside. -/
theorem PrimaryLeads.group {left right : Token} (hleft : left.kind = .leftParen)
    (h : ExpressionLeads ts e) (hright : right.kind = .rightParen) :
    PrimaryLeads (left :: (ts ++ [right])) (.grouping e) := by
  intro n s rest hn
  have hlook : Leads s (left :: (ts ++ [right] ++ rest)) (primary (expression n)) [] _ :=
    peek_leads _
  simp only [hleft] at hlook
  have hlength : ts.length ≤ n := by
    simp only [List.length_cons, List.length_append, List.length_nil] at hn
    omega
  have hends : Ends expressionContinuations ([right] ++ rest) :=
    .of_kind hright (by decide)
  refine Leads.trans hlook (Leads.trans (skip_leads _) ?_)
  exact (h n s _ hlength hends).next ((expect_leads _ hright).last .refl)

theorem PrimaryLeads.name {t : Token} (hkind : t.kind = .identifier) :
    PrimaryLeads [t] (.var t) := by
  intro n s rest _
  have hlook : Leads s (t :: rest) (primary (expression n)) [] _ := peek_leads _
  simp only [hkind] at hlook
  exact Leads.trans hlook (skip_leads _)

/-- The loop over calls has its whole budget when the callee is read. -/
theorem CallLeads.primary (h : PrimaryLeads ts e) : CallLeads ts e :=
  fun n s rest hn => ⟨n + 1, Nat.le_add_right _ _, (h n s rest hn).bind _⟩

/-- One more call, whatever its arguments are. -/
theorem CallLeads.call {left right : Token} {as : List Token} {es : List Expr}
    (h : CallLeads ts e) (hleft : left.kind = .leftParen)
    (harguments : ∀ n s rest, as.length ≤ n →
      Leads s (right :: rest) (arguments (expression n) (n + 1)) as (pure es))
    (hright : right.kind = .rightParen) :
    CallLeads (ts ++ left :: (as ++ [right])) (.call e right es) := by
  intro n s rest hn
  rw [List.length_append, List.length_cons, List.length_append, List.length_singleton] at hn
  -- of the budget for calls as much is left as there are tokens
  obtain ⟨m, hm, hcallee⟩ := h n s (left :: (as ++ [right]) ++ rest) (by omega)
  cases m with
  | zero => omega
  | succ m =>
    refine ⟨m, ?_, Leads.trans hcallee ?_⟩
    · rw [List.length_append, List.length_cons]
      omega
    · have hpass : Leads s ([right] ++ rest) (arguments (expression n) (n + 1)) as (pure es) :=
        harguments n s rest (by omega)
      exact (accept_leads hleft).next (hpass.next ((expect_leads _ hright).bind _))

/-- Arguments up to their closing parenthesis. -/
theorem ArgumentsLead.leads {right : Token} {as : List Token} {es : List Expr}
    (h : ArgumentsLead as es) (hstarts : Starts expressionStarts as)
    (hcount : es.length ≤ maxCount) (hright : right.kind = .rightParen) {n : Nat} {s : State}
    {rest : List Token} (hn : as.length ≤ n) :
    Leads s (right :: rest) (arguments (expression n) (n + 1)) as (pure es) := by
  have hends : Ends (.comma :: expressionContinuations) (right :: rest) :=
    .of_kind hright (by decide)
  refine listed_leads hstarts (by decide) ?_
  exact h n (n + 1) 0 s (right :: rest) hn (by omega) (by omega) hends

/-- Where no parenthesis comes next, no call is looked for any more. -/
theorem CallLeads.leads (h : CallLeads ts e) {n : Nat} {s : State} {rest : List Token}
    (hn : ts.length ≤ n + 1) (hends : Ends [.leftParen] rest) :
    Leads s rest (Parser.call (expression n) (n + 1)) ts (pure e) := by
  obtain ⟨m, -, hcall⟩ := h n s rest hn
  have hstop : Leads s rest (callsFrom (expression n) (n + 1) m e) [] (pure e) := by
    cases m with
    | zero => exact .refl
    | succ m => exact (accept_leads_none hends).last .refl
  have hboth := Leads.trans hcall hstop
  rwa [List.append_nil] at hboth

/-! ### Operators

A token that is an operator of a level ends the operands to its left, as it is looser than they are,
and goes on with the chain. -/

/-- What begins a call is no unary operator. -/
theorem UnaryLeads.call (h : CallLeads ts e) (hstarts : Starts callStarts ts) :
    UnaryLeads ts e := by
  intro n m s rest hn hm hends
  have hcall := h.leads (s := s) hn hends
  cases m with
  | zero => exact hcall
  | succ m =>
    have hnone : Leads s (ts ++ rest) (acceptIf isUnary) [] (pure none) := by
      refine acceptIf_leads_none fun u hu => ?_
      obtain ⟨t, us, rfl, ht⟩ := hstarts
      rw [← Option.some.inj hu]
      revert ht
      cases t.kind <;> decide
    exact Leads.look hnone hcall

theorem UnaryLeads.unary {operator : Token} (hop : operator.kind ∈ [Kind.bang, Kind.minus])
    (h : UnaryLeads ts e) : UnaryLeads (operator :: ts) (.unary operator e) := by
  intro n m s rest hn hm hends
  rw [List.length_cons] at hn hm
  cases m with
  | zero => omega
  | succ m =>
    have hoperand := h n m s rest (by omega) (by omega) hends
    exact (acceptIf_leads ((isUnary_iff _).2 hop)).next (hoperand.last .refl)

/-- One operand, with no operator looked at yet. -/
theorem ChainLeads.operand (hlevel : level ≠ .unary) (h : TierLeads level.tighter ts e) :
    ChainLeads level ts e := by
  intro n s rest hn hends
  rw [tier_eq_chain _ _ hlevel]
  exact ⟨n + 1, Nat.le_add_right _ _, (h.leads hn hends).bind _⟩

/-- One more operator and operand. A token less of the budget is left, and a token more is read. -/
theorem ChainLeads.join {operator : Token} {x y : Expr} (hlevel : level ≠ .unary)
    (hleft : ChainLeads level ts x) (hop : operator.kind ∈ level.operators)
    (hright : TierLeads level.tighter us y) :
    ChainLeads level (ts ++ operator :: us) (level.join x operator y) := by
  intro n s rest hn hends
  rw [List.length_append, List.length_cons] at hn
  -- the operator ends the operands to its left, but not the chain
  have hbetween : Ends level.tighter.continuations (operator :: us ++ rest) :=
    .cons (level.not_mem_tighter hlevel _ hop)
  obtain ⟨m, hm, hchain⟩ := hleft n s (operator :: us ++ rest) (by omega) hbetween
  cases m with
  | zero => omega
  | succ m =>
    refine ⟨m, ?_, Leads.trans hchain ?_⟩
    · rw [List.length_append, List.length_cons]
      omega
    · have hoperand := hright.leads (s := s) (n := n) (by omega) hends
      exact (acceptIf_leads (decide_eq_true hop)).next (hoperand.bind _)

theorem TierLeads.of_unary (h : UnaryLeads ts e) : TierLeads .unary ts e := by
  rw [TierLeads, if_pos rfl]
  exact h

theorem TierLeads.of_chain (hlevel : level ≠ .unary) (h : ChainLeads level ts e) :
    TierLeads level ts e := by
  rw [TierLeads, if_neg hlevel]
  exact h

theorem TierLeads.chain (hlevel : level ≠ .unary) (h : TierLeads level ts e) :
    ChainLeads level ts e := by
  rwa [TierLeads, if_neg hlevel] at h

theorem TierLeads.unary (h : TierLeads .unary ts e) : UnaryLeads ts e := by
  rwa [TierLeads, if_pos rfl] at h

/-- A name is an expression of every level. -/
theorem TierLeads.name {t : Token} (hkind : t.kind = .identifier) (level : Level) :
    TierLeads level [t] (.var t) := by
  induction level using Level.tighter_induction with
  | unary =>
    exact .of_unary (.call (.primary (.name hkind)) (.of_kind hkind (by decide)))
  | looser level hlevel ih => exact .of_chain hlevel (.operand hlevel ih)

/-- An expression that no `=` follows is no target. -/
theorem ExpressionLeads.plain (h : TierLeads .disjunction ts e) (hpos : 0 < ts.length) :
    ExpressionLeads ts e := by
  intro n s rest hn hends
  cases n with
  | zero => omega
  | succ n =>
    have htarget := h.leads (s := s) hn (hends.mono (List.subset_cons_self _ _))
    have hequal : Ends [.equal] rest := hends.mono (by decide)
    exact htarget.last ((accept_leads_none hequal).last .refl)

/-- The target is read first, and only then known to be one. -/
theorem ExpressionLeads.assign {name equals : Token} (hname : name.kind = .identifier)
    (hequals : equals.kind = .equal) (h : ExpressionLeads ts e) :
    ExpressionLeads (name :: equals :: ts) (.assign name e) := by
  intro n s rest hn hends
  rw [List.length_cons, List.length_cons] at hn
  cases n with
  | zero => omega
  | succ n =>
    -- the target is read as an operand of the loosest level, which `=` ends
    have hbetween : Ends Level.disjunction.continuations (equals :: ts ++ rest) :=
      .of_kind hequals (by decide)
    have htarget := (TierLeads.name hname .disjunction).leads (s := s) (n := n)
      (by simp) hbetween
    have hvalue := h n s rest (by omega) hends
    exact Leads.next htarget ((accept_leads hequals).next (hvalue.last .refl))

/-! ### Arguments -/

theorem ArgumentsLead.one (h : ExpressionLeads ts e) (hpos : 0 < ts.length) :
    ArgumentsLead ts [e] := by
  intro n m count s rest hn hm hcount hends
  rw [List.length_singleton] at hcount
  cases m with
  | zero => omega
  | succ m =>
    have hargument := h n s rest hn (hends.mono (List.subset_cons_self _ _))
    exact hargument.separated_one (hends.mono (by decide)) hcount

theorem ArgumentsLead.more {comma : Token} {es : List Expr} (h : ExpressionLeads ts e)
    (hcomma : comma.kind = .comma) (hrest : ArgumentsLead us es) :
    ArgumentsLead (ts ++ comma :: us) (e :: es) := by
  intro n m count s rest hn hm hcount hends
  rw [List.length_append, List.length_cons] at hn hm
  rw [List.length_cons] at hcount
  cases m with
  | zero => omega
  | succ m =>
    have hbetween : Ends expressionContinuations (comma :: us ++ rest) :=
      .of_kind hcomma (by decide)
    have hargument := h n s (comma :: us ++ rest) (by omega) hbetween
    have hothers := hrest n m (count + 1) s rest (by omega) (by omega) (by omega) hends
    exact hargument.separated_more hcomma hothers (by omega)

end

/-! ### All expressions

The induction on derivations, one rule a line. -/

mutual

/-- **What derives from the grammar of expressions is read as its tree.** -/
theorem expression_leads {ts : List Token} {e : Expr} : Expression ts e → ExpressionLeads ts e
  | .assign hname hequals hvalue => .assign hname hequals (expression_leads hvalue)
  | .plain h => .plain (tier_leads h) h.length_pos

theorem tier_leads {level : Level} {ts : List Token} {e : Expr} :
    Tier level ts e → TierLeads level ts e
  | .operand hlevel h => .of_chain hlevel (.operand hlevel (tier_leads h))
  | .join hleft hop hright =>
    have hlevel := Level.ne_unary hop
    .of_chain hlevel (.join hlevel ((tier_leads hleft).chain hlevel) hop (tier_leads hright))
  | .unary hop h => .of_unary (.unary hop (tier_leads h).unary)
  | .call h => .of_unary (.call (call_leads h) h.starts)

theorem call_leads {ts : List Token} {e : Expr} : Call ts e → CallLeads ts e
  | .primary h => .primary (primary_leads h)
  | .empty h hleft hright =>
    .call (call_leads h) hleft (fun _ _ _ _ => listed_leads_nil hright) hright
  | .call h hleft harguments hcount hright =>
    .call (call_leads h) hleft
      (fun _ _ _ hn => (arguments_leads harguments).leads harguments.starts hcount hright hn) hright

theorem arguments_leads {ts : List Token} {es : List Expr} : Arguments ts es → ArgumentsLead ts es
  | .one h => .one (expression_leads h) h.length_pos
  | .more h hcomma hrest => .more (expression_leads h) hcomma (arguments_leads hrest)

theorem primary_leads {ts : List Token} {e : Expr} : Primary ts e → PrimaryLeads ts e
  | .false hkind => .literal (.inl ⟨hkind, rfl⟩)
  | .true hkind => .literal (.inr (.inl ⟨hkind, rfl⟩))
  | .nil hkind => .literal (.inr (.inr (.inl ⟨hkind, rfl⟩)))
  | .value hkind hvalue => .literal (.inr (.inr (.inr ⟨hkind, hvalue⟩)))
  | .name hkind => .name hkind
  | .group hleft h hright => .group hleft (expression_leads h) hright

end

/-! ## Parts of statements

Each part is a short sequence of expected tokens and expressions, and the token behind an expression
is always one that does not go on with it. -/

section

variable {n : Nat} {s : State} {rest ts : List Token} {e : Expr}

/-- An expression and its semicolon. -/
theorem closed_leads {semicolon : Token} (make : Expr → Stmt) (what : Expectation)
    (h : Expression ts e) (hsemicolon : semicolon.kind = .semicolon) (hn : ts.length ≤ n) :
    Leads s rest (closed make what n) (ts ++ [semicolon]) (pure (make e)) := by
  have hends : Ends expressionContinuations ([semicolon] ++ rest) :=
    .of_kind hsemicolon (by decide)
  exact (expression_leads h n s _ hn hends).next ((expect_leads _ hsemicolon).last .refl)

/-- The token behind an optional expression tells whether there is one, if no expression begins with
its kind. -/
theorem expressionUnless_leads {e? : Option Expr} {t : Token} {kind : Kind}
    (h : OptionalExpression ts e?) (ht : t.kind = kind)
    (hkind : kind ∉ expressionStarts ++ expressionContinuations) (hn : ts.length ≤ n) :
    Leads s (t :: rest) (expressionUnless kind n) ts (pure e?) := by
  rw [List.mem_append, not_or] at hkind
  cases h with
  | none => exact (nextIs_leads ht).last .refl
  | some h =>
    have hnext : Ends [kind] (ts ++ t :: rest) := ends_of_starts h.starts hkind.1 _
    have hends : Ends expressionContinuations (t :: rest) := .of_kind ht hkind.2
    exact Leads.look (nextIs_leads_false hnext)
      ((expression_leads h n s (t :: rest) hn hends).last .refl)

theorem varDeclaration_leads {statement : Stmt} (h : Variable ts statement)
    (hn : ts.length ≤ n) : Leads s rest (varDeclaration n) ts (pure statement) := by
  cases h with
  | @plain name semicolon hname hsemicolon =>
    have hequal : Ends [.equal] ([semicolon] ++ rest) := .of_kind hsemicolon (by decide)
    exact (expect_leads _ hname).next
      (Leads.look (accept_leads_none hequal) ((expect_leads _ hsemicolon).last .refl))
  | @initialized name equals ts e semicolon hname hequals h hsemicolon =>
    rw [List.length_cons, List.length_cons, List.length_append] at hn
    have hends : Ends expressionContinuations ([semicolon] ++ rest) :=
      .of_kind hsemicolon (by decide)
    have hvalue := expression_leads h n s ([semicolon] ++ rest) (by omega) hends
    have hsome : Leads s ([semicolon] ++ rest) (some <$> expression n) ts (pure (some e)) := by
      rw [map_eq_pure_bind]
      exact hvalue.last .refl
    exact (expect_leads _ hname).next
      ((accept_leads hequals).next (hsome.next ((expect_leads _ hsemicolon).last .refl)))

/-- No clause is taken for another: a semicolon, `var` and an expression begin differently. -/
theorem forInitializer_leads {init : Option Stmt} (h : Initializer ts init)
    (hn : ts.length ≤ n) : Leads s rest (forInitializer n) ts (pure init) := by
  cases h with
  | none hsemicolon => exact (accept_leads hsemicolon).last .refl
  | @varDecl keyword ts _ hkeyword h =>
    rw [List.length_cons] at hn
    have hnone : Ends [.semicolon] (keyword :: ts ++ rest) := .of_kind hkeyword (by decide)
    refine Leads.look (accept_leads_none hnone) ?_
    exact (accept_leads hkeyword).next ((varDeclaration_leads h (by omega)).last .refl)
  | @expression ts e semicolon h hsemicolon =>
    rw [List.length_append] at hn
    have hnone (kind : Kind) (hkind : kind ∉ expressionStarts) :
        Ends [kind] (ts ++ [semicolon] ++ rest) :=
      ends_of_starts (h.starts.append _) hkind rest
    refine Leads.look (accept_leads_none (hnone .semicolon (by decide))) ?_
    refine Leads.look (accept_leads_none (hnone .kwVar (by decide))) ?_
    exact (closed_leads .expression _ h hsemicolon (by omega)).last .refl

theorem separated_leads_parameters {params : List Token} (h : Parameters ts params) {m count : Nat}
    (hm : ts.length ≤ m) (hcount : count + params.length ≤ maxCount) (hends : Ends [.comma] rest) :
    Leads s rest (separated (expect .identifier .parameterName) .tooManyParameters m count) ts
      (pure params) := by
  induction h generalizing m count with
  | one hkind =>
    cases m with
    | zero => cases hm
    | succ m =>
      exact (expect_leads _ hkind).separated_one hends hcount
  | more hkind hcomma hrest ih =>
    rw [List.length_cons, List.length_cons] at hm
    rw [List.length_cons] at hcount
    cases m with
    | zero => omega
    | succ m =>
      exact (expect_leads _ hkind).separated_more hcomma (ih (by omega) (by omega)) (by omega)

theorem parameters_leads {params : List Token} {right : Token} (h : OptionalParameters ts params)
    (hright : right.kind = .rightParen) (hn : ts.length ≤ n) :
    Leads s (right :: rest) (parameters n) ts (pure params) := by
  cases h with
  | none => exact listed_leads_nil hright
  | some h hcount =>
    have hstarts : Starts [.identifier] ts := by
      cases h with
      | one hkind => exact .of_kind hkind (by decide)
      | more hkind => exact .of_kind hkind (by decide)
    have hends : Ends [.comma] (right :: rest) := .of_kind hright (by decide)
    refine listed_leads hstarts (by decide) ?_
    exact separated_leads_parameters h hn (by rwa [Nat.zero_add]) hends

/-- Inside a loop nothing is reported. -/
theorem breakStatement_leads {keyword semicolon : Token} (hloop : s.place.inLoop = true)
    (hsemicolon : semicolon.kind = .semicolon) :
    Leads s rest (breakStatement keyword) [semicolon] (pure (.breakOut keyword)) := by
  have hdepth : ¬ s.loopDepth = 0 := of_decide_eq_true hloop
  have hread : Leads s rest (expect .semicolon .semicolonAfterBreak >>= fun _ =>
      pure (Stmt.breakOut keyword)) [semicolon] (pure (.breakOut keyword)) :=
    (expect_leads _ hsemicolon).last .refl
  unfold Leads breakStatement at *
  show (if s.loopDepth = 0 then _ else _ : Parser Stmt) _ = _
  rw [if_neg hdepth]
  exact hread

/-- Inside a function nothing is reported. -/
theorem returnStatement_leads {keyword semicolon : Token} {value : Option Expr}
    (hfunction : s.place.inFunction = true) (h : OptionalExpression ts value)
    (hsemicolon : semicolon.kind = .semicolon) (hn : ts.length ≤ n) :
    Leads s rest (returnStatement n keyword) (ts ++ [semicolon])
      (pure (.giveBack keyword value)) := by
  have hdepth : ¬ s.functionDepth = 0 := of_decide_eq_true hfunction
  have hread : Leads s rest (expressionUnless .semicolon n >>= fun value =>
      expect .semicolon .semicolonAfterReturn >>= fun _ => pure (Stmt.giveBack keyword value))
      (ts ++ [semicolon]) (pure (.giveBack keyword value)) :=
    Leads.next (expressionUnless_leads h hsemicolon (by decide) hn)
      ((expect_leads _ hsemicolon).last .refl)
  unfold Leads returnStatement at *
  show (if s.functionDepth = 0 then _ else _ : Parser Stmt) _ = _
  rw [if_neg hdepth]
  exact hread

/-! ## Statements around statements

The parser of the nested statement is left open here. A loop counts itself in for its body. -/

variable {nested : Parser Stmt} {body : Stmt}

theorem whileStatement_leads {left right : Token} {cs : List Token} {condition : Expr}
    (hleft : left.kind = .leftParen) (hcondition : Expression cs condition)
    (hright : right.kind = .rightParen) (hn : cs.length ≤ n)
    (hbody : Leads { s with loopDepth := s.loopDepth + 1 } rest nested ts (pure body)) :
    Leads s rest (whileStatement nested n) (left :: (cs ++ right :: ts))
      (pure (.whileLoop condition body)) := by
  have hends : Ends expressionContinuations (right :: ts ++ rest) :=
    .of_kind hright (by decide)
  refine (expect_leads _ hleft).next ((expression_leads hcondition n s _ hn hends).next ?_)
  exact (expect_leads _ hright).next ((insideLoop_leads hbody).last .refl)

theorem forStatement_leads {keyword left semicolon right : Token} {is cs us : List Token}
    {init : Option Stmt} {condition increment : Option Expr} (hleft : left.kind = .leftParen)
    (hinit : Initializer is init) (hcondition : OptionalExpression cs condition)
    (hsemicolon : semicolon.kind = .semicolon) (hincrement : OptionalExpression us increment)
    (hright : right.kind = .rightParen)
    (hn : (is ++ (cs ++ semicolon :: (us ++ right :: ts))).length ≤ n)
    (hbody : Leads { s with loopDepth := s.loopDepth + 1 } rest nested ts (pure body)) :
    Leads s rest (forStatement nested n keyword)
      (left :: (is ++ (cs ++ semicolon :: (us ++ right :: ts))))
      (pure (forTree keyword.line condition body init increment)) := by
  simp only [List.length_append, List.length_cons] at hn
  rw [← forLoop_eq_forTree]
  refine (expect_leads _ hleft).next ((forInitializer_leads hinit (by omega)).next ?_)
  refine Leads.next (expressionUnless_leads hcondition hsemicolon (by decide) (by omega)) ?_
  refine (expect_leads _ hsemicolon).next ?_
  refine Leads.next (expressionUnless_leads hincrement hright (by decide) (by omega)) ?_
  exact (expect_leads _ hright).next ((insideLoop_leads hbody).last .refl)

/-- Without an `else` next, there is one branch. -/
theorem ifStatement_leads {left right : Token} {cs : List Token} {condition : Expr}
    (hleft : left.kind = .leftParen) (hcondition : Expression cs condition)
    (hright : right.kind = .rightParen) (hn : cs.length ≤ n)
    (hthen : Leads s rest nested ts (pure body)) (helse : Ends [.kwElse] rest) :
    Leads s rest (ifStatement nested n) (left :: (cs ++ right :: ts))
      (pure (.ifElse condition body none)) := by
  have hends : Ends expressionContinuations (right :: ts ++ rest) :=
    .of_kind hright (by decide)
  refine (expect_leads _ hleft).next ((expression_leads hcondition n s _ hn hends).next ?_)
  exact (expect_leads _ hright).next (hthen.last ((accept_leads_none helse).last .refl))

/-- The first branch ends in front of the `else`. -/
theorem ifElseStatement_leads {left right other : Token} {cs us : List Token} {condition : Expr}
    {elseBody : Stmt} (hleft : left.kind = .leftParen) (hcondition : Expression cs condition)
    (hright : right.kind = .rightParen) (hn : cs.length ≤ n)
    (hthen : Leads s (other :: us ++ rest) nested ts (pure body)) (hother : other.kind = .kwElse)
    (helse : Leads s rest nested us (pure elseBody)) :
    Leads s rest (ifStatement nested n) (left :: (cs ++ right :: (ts ++ other :: us)))
      (pure (.ifElse condition body (some elseBody))) := by
  have hends : Ends expressionContinuations (right :: (ts ++ other :: us) ++ rest) :=
    .of_kind hright (by decide)
  refine (expect_leads _ hleft).next ((expression_leads hcondition n s _ hn hends).next ?_)
  refine (expect_leads _ hright).next (hthen.next ?_)
  exact (accept_leads hother).next (helse.last .refl)

end

/-! ## Statements and declarations

A statement that ends in an `if` without `else` is open: an `else` behind it would be taken for its
own. So an open statement leads to its tree only where no `else` follows. -/

/-- The tokens lead `statement` to the tree, at a place. -/
def StatementLeads (p : Place) (isOpen : Bool) (ts : List Token) (st : Stmt) : Prop :=
  ∀ n s rest, s.place = p → ts.length ≤ n → (isOpen = true → Ends [.kwElse] rest) →
    Leads s rest (statement n false) ts (pure st)

/-- The tokens lead `statement` to the tree where a declaration may stand. -/
def DeclarationLeads (p : Place) (ts : List Token) (st : Stmt) : Prop :=
  ∀ n s rest, s.place = p → ts.length ≤ n → Ends [.kwElse] rest →
    Leads s rest (statement n true) ts (pure st)

/-- The tokens lead `block` to the trees, behind the opening brace. -/
def BlockLeads (p : Place) (ts : List Token) (ss : List Stmt) : Prop :=
  ∀ n m s rest, s.place = p → ts.length ≤ n → ts.length ≤ m →
    Leads s rest (block (recovering (statement n true)) m) ts (pure ss)

section

variable {p : Place} {isOpen : Bool} {ts us cs : List Token} {st : Stmt} {ss : List Stmt}

/-- A statement that begins with a keyword or a brace. The parser looks at its first token, passes
over it and goes on with what comes next. -/
theorem StatementLeads.of_keyword {t : Token} {q : Nat → Parser Stmt}
    (hlook : ∀ n s rest, Leads s (t :: rest) (statement (n + 1) false) [] (skip >>= fun _ => q n))
    (h : ∀ n s rest, s.place = p → ts.length ≤ n → (isOpen = true → Ends [.kwElse] rest) →
      Leads s rest (q n) ts (pure st)) :
    StatementLeads p isOpen (t :: ts) st := by
  intro n s rest hp hn helse
  rw [List.length_cons] at hn
  cases n with
  | zero => omega
  | succ n =>
    have hrest := h n s rest hp (by omega) helse
    have hfirst := hlook n s (ts ++ rest)
    exact Leads.trans (Leads.trans hfirst (skip_leads _)) hrest

theorem StatementLeads.print {keyword semicolon : Token} {e : Expr}
    (hkeyword : keyword.kind = .kwPrint) (h : Expression ts e)
    (hsemicolon : semicolon.kind = .semicolon) :
    StatementLeads p false (keyword :: (ts ++ [semicolon])) (.print e) := by
  refine .of_keyword (q := fun n => printStatement (n + 1)) (fun n s rest => ?_) ?_
  · have hlook : Leads s (keyword :: rest) (statement (n + 1) false) [] _ := peek_leads _
    simpa only [hkeyword] using hlook
  · intro n s rest _ hn _
    rw [List.length_append] at hn
    exact closed_leads .print _ h hsemicolon (by omega)

theorem StatementLeads.breakOut {keyword semicolon : Token} (hloop : p.inLoop = true)
    (hkeyword : keyword.kind = .kwBreak) (hsemicolon : semicolon.kind = .semicolon) :
    StatementLeads p false [keyword, semicolon] (.breakOut keyword) := by
  refine .of_keyword (q := fun _ => breakStatement keyword) (fun n s rest => ?_) ?_
  · have hlook : Leads s (keyword :: rest) (statement (n + 1) false) [] _ := peek_leads _
    simpa only [hkeyword] using hlook
  · intro n s rest hp _ _
    exact breakStatement_leads (hp ▸ hloop) hsemicolon

theorem StatementLeads.giveBack {keyword semicolon : Token} {value : Option Expr}
    (hfunction : p.inFunction = true) (hkeyword : keyword.kind = .kwReturn)
    (h : OptionalExpression ts value) (hsemicolon : semicolon.kind = .semicolon) :
    StatementLeads p false (keyword :: (ts ++ [semicolon])) (.giveBack keyword value) := by
  refine .of_keyword (q := fun n => returnStatement (n + 1) keyword) (fun n s rest => ?_) ?_
  · have hlook : Leads s (keyword :: rest) (statement (n + 1) false) [] _ := peek_leads _
    simpa only [hkeyword] using hlook
  · intro n s rest hp hn _
    rw [List.length_append] at hn
    exact returnStatement_leads (hp ▸ hfunction) h hsemicolon (by omega)

theorem StatementLeads.block {left : Token} (hleft : left.kind = .leftBrace)
    (h : BlockLeads p ts ss) : StatementLeads p false (left :: ts) (.block ss) := by
  refine .of_keyword
    (q := fun n => do return .block (← Parser.block (recovering (statement n true)) (n + 1)))
    (fun n s rest => ?_) ?_
  · have hlook : Leads s (left :: rest) (statement (n + 1) false) [] _ := peek_leads _
    simpa only [hleft] using hlook
  · intro n s rest hp hn _
    exact (h n (n + 1) s rest hp hn (by omega)).last .refl

/-- An `if` without `else` is open, and so is what it ends with. -/
theorem StatementLeads.ifThen {keyword left right : Token} {condition : Expr} {isOpen' : Bool}
    (hkeyword : keyword.kind = .kwIf) (hleft : left.kind = .leftParen)
    (hcondition : Expression cs condition) (hright : right.kind = .rightParen)
    (hthen : StatementLeads p isOpen' ts st) :
    StatementLeads p true (keyword :: left :: (cs ++ right :: ts)) (.ifElse condition st none) := by
  refine .of_keyword (q := fun n => ifStatement (statement n false) (n + 1)) (fun n s rest => ?_) ?_
  · have hlook : Leads s (keyword :: rest) (statement (n + 1) false) [] _ := peek_leads _
    simpa only [hkeyword] using hlook
  · intro n s rest hp hn helse
    simp only [List.length_cons, List.length_append] at hn
    have hbranch := hthen n s rest hp (by omega) fun _ => helse rfl
    exact ifStatement_leads hleft hcondition hright (by omega) hbranch (helse rfl)

/-- The first branch must be closed; the statement is open if the second one is. -/
theorem StatementLeads.ifElse {keyword left right other : Token} {condition : Expr} {st' : Stmt}
    (hkeyword : keyword.kind = .kwIf) (hleft : left.kind = .leftParen)
    (hcondition : Expression cs condition) (hright : right.kind = .rightParen)
    (hthen : StatementLeads p false ts st) (hother : other.kind = .kwElse)
    (helse : StatementLeads p isOpen us st') :
    StatementLeads p isOpen (keyword :: left :: (cs ++ right :: (ts ++ other :: us)))
      (.ifElse condition st (some st')) := by
  refine .of_keyword (q := fun n => ifStatement (statement n false) (n + 1)) (fun n s rest => ?_) ?_
  · have hlook : Leads s (keyword :: rest) (statement (n + 1) false) [] _ := peek_leads _
    simpa only [hkeyword] using hlook
  · intro n s rest hp hn hends
    simp only [List.length_cons, List.length_append] at hn
    -- the first branch is closed, so it leaves the `else` alone
    have hbranch := hthen n s (other :: us ++ rest) hp (by omega) fun hopen => nomatch hopen
    have hbranch' := helse n s rest hp (by omega) hends
    exact ifElseStatement_leads hleft hcondition hright (by omega) hbranch hother hbranch'

theorem StatementLeads.whileLoop {keyword left right : Token} {condition : Expr}
    (hkeyword : keyword.kind = .kwWhile) (hleft : left.kind = .leftParen)
    (hcondition : Expression cs condition) (hright : right.kind = .rightParen)
    (hbody : StatementLeads p.loopBody isOpen ts st) :
    StatementLeads p isOpen (keyword :: left :: (cs ++ right :: ts)) (.whileLoop condition st) := by
  refine .of_keyword (q := fun n => whileStatement (statement n false) (n + 1))
    (fun n s rest => ?_) ?_
  · have hlook : Leads s (keyword :: rest) (statement (n + 1) false) [] _ := peek_leads _
    simpa only [hkeyword] using hlook
  · intro n s rest hp hn hends
    simp only [List.length_cons, List.length_append] at hn
    have hplace := hp ▸ s.place_enterLoop
    have hnested := hbody n _ rest hplace (by omega) hends
    exact whileStatement_leads hleft hcondition hright (by omega) hnested

theorem StatementLeads.forLoop {keyword left semicolon right : Token} {is : List Token}
    {init : Option Stmt} {condition increment : Option Expr} (hkeyword : keyword.kind = .kwFor)
    (hleft : left.kind = .leftParen) (hinit : Initializer is init)
    (hcondition : OptionalExpression cs condition) (hsemicolon : semicolon.kind = .semicolon)
    (hincrement : OptionalExpression us increment) (hright : right.kind = .rightParen)
    (hbody : StatementLeads p.loopBody isOpen ts st) :
    StatementLeads p isOpen (keyword :: left :: (is ++ (cs ++ semicolon :: (us ++ right :: ts))))
      (forTree keyword.line condition st init increment) := by
  refine .of_keyword (q := fun n => forStatement (statement n false) (n + 1) keyword)
    (fun n s rest => ?_) ?_
  · have hlook : Leads s (keyword :: rest) (statement (n + 1) false) [] _ := peek_leads _
    simpa only [hkeyword] using hlook
  · intro n s rest hp hn hends
    rw [List.length_cons] at hn
    have hshort : ts.length ≤ n := by
      simp only [List.length_cons, List.length_append] at hn
      omega
    have hplace := hp ▸ s.place_enterLoop
    have hnested := hbody n _ rest hplace hshort hends
    exact forStatement_leads hleft hinit hcondition hsemicolon hincrement hright (by omega) hnested

/-- A token that begins an expression chooses none of the other statements. -/
theorem plainStatement_leads_of_starts {nested : Parser Stmt} {blk : Parser (List Stmt)} {n : Nat}
    {s : State} {rest : List Token} {t : Token} (ht : t.kind ∈ expressionStarts) :
    Leads s (t :: rest) (plainStatement nested blk n) [] (expressionStatement n) := by
  have hlook : Leads s (t :: rest) (plainStatement nested blk n) [] _ := peek_leads _
  refine hlook.via ?_
  split
  case h_8 => exact .refl
  all_goals
    rename_i hkind
    rw [hkind] at ht
    exact absurd ht (by decide)

theorem anyStatement_leads_of_starts {nested : Parser Stmt} {blk : Parser (List Stmt)} {n : Nat}
    {s : State} {rest : List Token} {t : Token} (ht : t.kind ∈ statementStarts) :
    Leads s (t :: rest) (anyStatement nested blk n) [] (plainStatement nested blk n) := by
  have hlook : Leads s (t :: rest) (anyStatement nested blk n) [] _ := peek_leads _
  refine hlook.via ?_
  split
  case h_3 => exact .refl
  all_goals
    rename_i hkind
    rw [hkind] at ht
    exact absurd ht (by decide)

/-- An expression as a statement: no keyword stands in front. -/
theorem StatementLeads.expression {semicolon : Token} {e : Expr} (h : Expression ts e)
    (hsemicolon : semicolon.kind = .semicolon) :
    StatementLeads p false (ts ++ [semicolon]) (.expression e) := by
  intro n s rest _ hn _
  rw [List.length_append, List.length_singleton] at hn
  cases n with
  | zero => omega
  | succ n =>
    have hread : Leads s rest (expressionStatement (n + 1)) (ts ++ [semicolon])
        (pure (.expression e)) := closed_leads .expression _ h hsemicolon (by omega)
    refine Leads.via ?_ hread
    obtain ⟨t, us, rfl, ht⟩ := h.starts
    exact plainStatement_leads_of_starts ht

/-- Where a declaration may stand, a statement is read as one. -/
theorem DeclarationLeads.statement (h : StatementLeads p isOpen ts st)
    (hstarts : Starts statementStarts ts) : DeclarationLeads p ts st := by
  intro n s rest hp hn helse
  cases n with
  | zero => exact h 0 s rest hp hn fun _ => helse
  | succ n =>
    refine Leads.via ?_ (h (n + 1) s rest hp hn fun _ => helse)
    obtain ⟨t, us, rfl, ht⟩ := hstarts
    exact anyStatement_leads_of_starts ht

theorem DeclarationLeads.varDecl {keyword : Token} (hkeyword : keyword.kind = .kwVar)
    (h : Variable ts st) : DeclarationLeads p (keyword :: ts) st := by
  intro n s rest _ hn _
  rw [List.length_cons] at hn
  cases n with
  | zero => omega
  | succ n =>
    have hlook : Leads s (keyword :: ts ++ rest) (Parser.statement (n + 1) true) [] _ :=
      peek_leads _
    simp only [hkeyword] at hlook
    exact hlook.via ((skip_leads _).trans (varDeclaration_leads h (by omega)))

/-- The body of a function is in no loop, wherever the function stands. -/
theorem DeclarationLeads.function {keyword name left right brace : Token} {ps params : List Token}
    (hkeyword : keyword.kind = .kwFun) (hname : name.kind = .identifier)
    (hleft : left.kind = .leftParen) (hparams : OptionalParameters ps params)
    (hright : right.kind = .rightParen) (hbrace : brace.kind = .leftBrace)
    (hbody : BlockLeads .body ts ss) :
    DeclarationLeads p (keyword :: name :: left :: (ps ++ right :: brace :: ts))
      (.funDecl name params ss) := by
  intro n s rest _ hn _
  simp only [List.length_cons, List.length_append] at hn
  cases n with
  | zero => omega
  | succ n =>
    have hlook : Leads s (keyword :: name :: left :: (ps ++ right :: brace :: ts) ++ rest)
        (Parser.statement (n + 1) true) [] _ := peek_leads _
    simp only [hkeyword] at hlook
    refine hlook.via ((skip_leads _).trans ?_)
    refine (expect_leads _ hname).next ((expect_leads _ hleft).next ?_)
    refine Leads.next (parameters_leads hparams hright (by omega)) ?_
    refine (expect_leads _ hright).next ((expect_leads _ hbrace).next ?_)
    have hblock := hbody n (n + 1) _ rest s.place_enterFunction (by omega) (by omega)
    exact (insideFunction_leads hblock).last .refl

/-! ### Blocks

Declarations are read up to a closing brace, each with recovery, which is not needed here. -/

/-- The tokens lead `declarations` to the trees, in front of a closing brace. -/
def DeclarationsLead (p : Place) (ts : List Token) (ss : List Stmt) : Prop :=
  ∀ n m s close rest, s.place = p → close.kind = .rightBrace → ts.length ≤ n → ts.length ≤ m →
    Leads s (close :: rest) (declarations (recovering (Parser.statement n true)) m) ts (pure ss)

theorem DeclarationsLead.nil : DeclarationsLead p [] [] := by
  intro n m s close rest _ hclose _ _
  cases m with
  | zero => exact .refl
  | succ m => exact (nextIs_leads hclose).last .refl

/-- A declaration may be open, as neither a declaration nor the brace behind it begins with
`else`. -/
theorem DeclarationsLead.cons (h : DeclarationLeads p ts st) (hts : Starts declarationStarts ts)
    (hrest : DeclarationsLead p us ss) (hus : us = [] ∨ Starts declarationStarts us) :
    DeclarationsLead p (ts ++ us) (st :: ss) := by
  intro n m s close rest hp hclose hn hm
  rw [List.length_append] at hn hm
  have hpos : 0 < ts.length := by
    obtain ⟨t, vs, rfl, -⟩ := hts
    exact Nat.zero_lt_succ _
  -- what follows the first declaration is no `else`
  have helse : Ends [.kwElse] (us ++ close :: rest) := by
    rcases hus with rfl | hus
    · exact .of_kind hclose (by decide)
    · exact ends_of_starts hus (by decide) _
  cases m with
  | zero => omega
  | succ m =>
    have hfirst := recovering_leads (h n s (us ++ close :: rest) hp (by omega) helse)
    have hothers := hrest n m s close rest hp hclose (by omega) (by omega)
    have hnext : Ends [.rightBrace] (ts ++ us ++ close :: rest) := by
      rw [List.append_assoc]
      exact ends_of_starts hts (by decide) _
    have hmore : Leads s (ts ++ us ++ close :: rest) atEnd [] (pure false) := by
      obtain ⟨t, vs, rfl, -⟩ := hts
      exact .refl
    refine Leads.look (nextIs_leads_false hnext) (Leads.look hmore ?_)
    exact hfirst.next (hothers.last .refl)

theorem DeclarationsLead.block {close : Token} (h : DeclarationsLead p ts ss)
    (hclose : close.kind = .rightBrace) : BlockLeads p (ts ++ [close]) ss := by
  intro n m s rest hp hn hm
  rw [List.length_append] at hn hm
  have hstatements := h n m s close rest hp hclose (by omega) (by omega)
  exact Leads.next hstatements ((expect_leads _ hclose).last .refl)

end

mutual

/-- **What derives from the grammar of statements is read as its tree.** -/
theorem statement_leads {p : Place} {isOpen : Bool} {ts : List Token} {st : Stmt} :
    Statement p isOpen ts st → StatementLeads p isOpen ts st
  | .expression h hsemicolon => .expression h hsemicolon
  | .print hkeyword h hsemicolon => .print hkeyword h hsemicolon
  | .breakOut hloop hkeyword hsemicolon => .breakOut hloop hkeyword hsemicolon
  | .giveBack hfunction hkeyword h hsemicolon => .giveBack hfunction hkeyword h hsemicolon
  | .block hleft h hright => .block hleft ((declarations_lead h).block hright)
  | .ifThen hkeyword hleft hcondition hright hthen =>
    .ifThen hkeyword hleft hcondition hright (statement_leads hthen)
  | .ifElse hkeyword hleft hcondition hright hthen hother helse =>
    .ifElse hkeyword hleft hcondition hright (statement_leads hthen) hother (statement_leads helse)
  | .whileLoop hkeyword hleft hcondition hright hbody =>
    .whileLoop hkeyword hleft hcondition hright (statement_leads hbody)
  | .forLoop hkeyword hleft hinit hcondition hsemicolon hincrement hright hbody =>
    .forLoop hkeyword hleft hinit hcondition hsemicolon hincrement hright (statement_leads hbody)

theorem declaration_leads {p : Place} {ts : List Token} {st : Stmt} :
    Declaration p ts st → DeclarationLeads p ts st
  | .function hkeyword hname hleft hparams hright hbrace hbody hclose =>
    .function hkeyword hname hleft hparams hright hbrace ((declarations_lead hbody).block hclose)
  | .varDecl hkeyword h => .varDecl hkeyword h
  | .statement h => .statement (statement_leads h) h.starts

theorem declarations_lead {p : Place} {ts : List Token} {ss : List Stmt} :
    Declarations p ts ss → DeclarationsLead p ts ss
  | .nil => .nil
  | .cons h hrest => .cons (declaration_leads h) h.starts (declarations_lead hrest) hrest.starts

end

end Parser

end GradedScript
