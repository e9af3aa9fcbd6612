import GradedScript.Proofs.Machine.Matching
import GradedScript.Proofs.Parser.Grammar

/-!
# Derivations carry over to tokens that look alike

The grammar looks at the kinds and values of tokens only. So whatever it derives from some tokens,
it derives from tokens that look alike, and the trees match (`Declarations.transport`). In a derived
tree a `break` stands inside a loop and a `return` inside a function, so tokens need to match in
these roles only.
-/

namespace GradedScript

/-- The roles tokens play in derived trees: `break` needs a loop, and `return` a function. -/
def Role.isPlaced : Role → Bool
  | .breakAt inLoop => inLoop
  | .returnAt inFunction => inFunction
  | _ => true

namespace Grammar

/-- Tokens that make matching trees: they have the same value and match in every role they may
play. -/
structure Alike (T : TokenMatch) (t t' : Token) : Prop where
  literal_eq : t.literal = t'.literal
  rel : ∀ role : Role, role.isPlaced = true → T.Rel role t t'

section

variable {T : TokenMatch} {p : Place} {ts ts' : List Token} {t t' : Token}

theorem Alike.kind (h : Alike T t t') {kind : Kind} (hkind : t.kind = kind) : t'.kind = kind :=
  (T.kind_eq (h.rel .paren rfl)).symm.trans hkind

theorem Alike.kind_mem (h : Alike T t t') {kinds : List Kind} (hkind : t.kind ∈ kinds) :
    t'.kind ∈ kinds :=
  h.kind rfl ▸ hkind

/-- What stands for two lists in a row is two lists in a row. -/
theorem exists_append {α β : Type} {R : α → β → Prop} {xs ys : List α} {zs : List β}
    (h : List.Forall₂ R (xs ++ ys) zs) :
    ∃ xs' ys', zs = xs' ++ ys' ∧ List.Forall₂ R xs xs' ∧ List.Forall₂ R ys ys' := by
  induction xs generalizing zs with
  | nil => exact ⟨[], zs, rfl, .nil, h⟩
  | cons x xs ih =>
    obtain _ | ⟨hx, h⟩ := h
    obtain ⟨xs', ys', rfl, hxs, hys⟩ := ih h
    exact ⟨_ :: xs', ys', rfl, .cons hx hxs, hys⟩

/-! ## Expressions -/

/-- Operands that match are joined to trees that match. -/
theorem Level.join_matches (level : Level) {x x' y y' : Expr} (hx : x.Matches T x')
    (ht : Alike T t t') (hy : y.Matches T y') :
    (level.join x t y).Matches T (level.join x' t' y') := by
  cases level with
  | disjunction => exact .logical hx (ht.rel .logical rfl) hy
  | conjunction => exact .logical hx (ht.rel .logical rfl) hy
  | _ => exact .binary hx (ht.rel .binary rfl) hy

mutual

theorem Expression.transport {ts ts' : List Token} {e : Expr} :
    Expression ts e → List.Forall₂ (Alike T) ts ts' → ∃ e', Expression ts' e' ∧ e.Matches T e'
  | .assign hname hequals hvalue, h => by
    obtain _ | ⟨hn, _ | ⟨heq, h⟩⟩ := h
    obtain ⟨value', hvalue', hmatch⟩ := hvalue.transport h
    exact ⟨_, .assign (hn.kind hname) (heq.kind hequals) hvalue',
      .assign (hn.rel .assigned rfl) hmatch⟩
  | .plain htier, h => by
    obtain ⟨e', htier', hmatch⟩ := htier.transport h
    exact ⟨e', .plain htier', hmatch⟩

theorem Tier.transport {level : Level} {ts ts' : List Token} {e : Expr} :
    Tier level ts e → List.Forall₂ (Alike T) ts ts' → ∃ e', Tier level ts' e' ∧ e.Matches T e'
  | .operand hlevel hoperand, h => by
    obtain ⟨e', hoperand', hmatch⟩ := hoperand.transport h
    exact ⟨e', .operand hlevel hoperand', hmatch⟩
  | .join hleft hop hright, h => by
    obtain ⟨xs', _, rfl, hxs, _ | ⟨ht, hys⟩⟩ := exists_append h
    obtain ⟨x', hleft', hx⟩ := hleft.transport hxs
    obtain ⟨y', hright', hy⟩ := hright.transport hys
    exact ⟨_, .join hleft' (ht.kind_mem hop) hright', level.join_matches hx ht hy⟩
  | .unary hop hoperand, h => by
    obtain _ | ⟨ht, h⟩ := h
    obtain ⟨e', hoperand', hmatch⟩ := hoperand.transport h
    exact ⟨_, .unary (ht.kind_mem hop) hoperand', .unary (ht.rel .unary rfl) hmatch⟩
  | .call hcall, h => by
    obtain ⟨e', hcall', hmatch⟩ := hcall.transport h
    exact ⟨e', .call hcall', hmatch⟩

theorem Call.transport {ts ts' : List Token} {e : Expr} :
    Call ts e → List.Forall₂ (Alike T) ts ts' → ∃ e', Call ts' e' ∧ e.Matches T e'
  | .primary hprimary, h => by
    obtain ⟨e', hprimary', hmatch⟩ := hprimary.transport h
    exact ⟨e', .primary hprimary', hmatch⟩
  | .empty hcallee hleft hright, h => by
    obtain ⟨ts', _, rfl, hts, _ | ⟨hl, _ | ⟨hr, _ | _⟩⟩⟩ := exists_append h
    obtain ⟨callee', hcallee', hmatch⟩ := hcallee.transport hts
    exact ⟨_, .empty hcallee' (hl.kind hleft) (hr.kind hright),
      .call hmatch (hr.rel .paren rfl) rfl (by simp)⟩
  | .call hcallee hleft harguments hcount hright, h => by
    obtain ⟨ts', _, rfl, hts, _ | ⟨hl, hlater⟩⟩ := exists_append h
    obtain ⟨as', _, rfl, has, _ | ⟨hr, _ | _⟩⟩ := exists_append hlater
    obtain ⟨callee', hcallee', hmatch⟩ := hcallee.transport hts
    obtain ⟨arguments', harguments', hall⟩ := harguments.transport has
    exact ⟨_, .call hcallee' (hl.kind hleft) harguments' (hall.length_eq ▸ hcount) (hr.kind hright),
      .call hmatch (hr.rel .paren rfl) hall.length_eq fun _ _ he => List.forall₂_zip hall he⟩

theorem Arguments.transport {ts ts' : List Token} {es : List Expr} :
    Arguments ts es → List.Forall₂ (Alike T) ts ts' →
      ∃ es', Arguments ts' es' ∧ List.Forall₂ (Expr.Matches T) es es'
  | .one hexpression, h => by
    obtain ⟨e', hexpression', hmatch⟩ := hexpression.transport h
    exact ⟨[e'], .one hexpression', .cons hmatch .nil⟩
  | .more hexpression hcomma hrest, h => by
    obtain ⟨ts', _, rfl, hts, _ | ⟨hc, hus⟩⟩ := exists_append h
    obtain ⟨e', hexpression', hmatch⟩ := hexpression.transport hts
    obtain ⟨es', hrest', hall⟩ := hrest.transport hus
    exact ⟨e' :: es', .more hexpression' (hc.kind hcomma) hrest', .cons hmatch hall⟩

theorem Primary.transport {ts ts' : List Token} {e : Expr} :
    Primary ts e → List.Forall₂ (Alike T) ts ts' → ∃ e', Primary ts' e' ∧ e.Matches T e'
  | .false hkind, h => by
    obtain _ | ⟨ht, _ | _⟩ := h
    exact ⟨_, .false (ht.kind hkind), .literal _ _ _⟩
  | .true hkind, h => by
    obtain _ | ⟨ht, _ | _⟩ := h
    exact ⟨_, .true (ht.kind hkind), .literal _ _ _⟩
  | .nil hkind, h => by
    obtain _ | ⟨ht, _ | _⟩ := h
    exact ⟨_, .nil (ht.kind hkind), .literal _ _ _⟩
  | .value hkind hvalue, h => by
    obtain _ | ⟨ht, _ | _⟩ := h
    exact ⟨_, .value (hkind.imp ht.kind ht.kind) (ht.literal_eq ▸ hvalue), .literal _ _ _⟩
  | .name hkind, h => by
    obtain _ | ⟨ht, _ | _⟩ := h
    exact ⟨_, .name (ht.kind hkind), .var (ht.rel .read rfl)⟩
  | .group hleft hinner hright, h => by
    obtain _ | ⟨hl, h⟩ := h
    obtain ⟨ts', _, rfl, hts, _ | ⟨hr, _ | _⟩⟩ := exists_append h
    obtain ⟨e', hinner', hmatch⟩ := hinner.transport hts
    exact ⟨_, .group (hl.kind hleft) hinner' (hr.kind hright), .grouping hmatch⟩

end

theorem OptionalExpression.transport {e : Option Expr} (h : OptionalExpression ts e)
    (hts : List.Forall₂ (Alike T) ts ts') :
    ∃ e', OptionalExpression ts' e' ∧ Option.Rel (Expr.Matches T) e e' := by
  cases h with
  | none =>
    cases hts
    exact ⟨_, .none, .none⟩
  | some h =>
    obtain ⟨e', h', hmatch⟩ := h.transport hts
    exact ⟨_, .some h', .some hmatch⟩

/-! ## Parts of statements -/

theorem Parameters.transport {params : List Token} (h : Parameters ts params)
    (hts : List.Forall₂ (Alike T) ts ts') :
    ∃ params', Parameters ts' params' ∧ List.Forall₂ (T.Rel .parameter) params params' := by
  induction h generalizing ts' with
  | one hkind =>
    obtain _ | ⟨ht, _ | _⟩ := hts
    exact ⟨_, .one (ht.kind hkind), .cons (ht.rel .parameter rfl) .nil⟩
  | more hkind hcomma _ ih =>
    obtain _ | ⟨ht, _ | ⟨hc, hts⟩⟩ := hts
    obtain ⟨params', hrest', hall⟩ := ih hts
    exact ⟨_, .more (ht.kind hkind) (hc.kind hcomma) hrest', .cons (ht.rel .parameter rfl) hall⟩

theorem OptionalParameters.transport {params : List Token} (h : OptionalParameters ts params)
    (hts : List.Forall₂ (Alike T) ts ts') :
    ∃ params', OptionalParameters ts' params' ∧
      List.Forall₂ (T.Rel .parameter) params params' := by
  cases h with
  | none =>
    cases hts
    exact ⟨[], .none, .nil⟩
  | some h hcount =>
    obtain ⟨params', h', hall⟩ := h.transport hts
    exact ⟨params', .some h' (hall.length_eq ▸ hcount), hall⟩

theorem Variable.transport {s : Stmt} (h : Variable ts s) (hts : List.Forall₂ (Alike T) ts ts') :
    ∃ s', Variable ts' s' ∧ s.Matches T p s' := by
  cases h with
  | plain hname hsemicolon =>
    obtain _ | ⟨hn, _ | ⟨hs, _ | _⟩⟩ := hts
    exact ⟨_, .plain (hn.kind hname) (hs.kind hsemicolon), .varDecl (hn.rel .variableName rfl) .none⟩
  | initialized hname hequals h hsemicolon =>
    obtain _ | ⟨hn, _ | ⟨heq, hlater⟩⟩ := hts
    obtain ⟨ts', _, rfl, hvalue, _ | ⟨hs, _ | _⟩⟩ := exists_append hlater
    obtain ⟨e', h', hmatch⟩ := h.transport hvalue
    exact ⟨_, .initialized (hn.kind hname) (heq.kind hequals) h' (hs.kind hsemicolon),
      .varDecl (hn.rel .variableName rfl) (.some hmatch)⟩

theorem Initializer.transport {s : Option Stmt} (h : Initializer ts s)
    (hts : List.Forall₂ (Alike T) ts ts') :
    ∃ s', Initializer ts' s' ∧ Option.Rel (Stmt.Matches T p) s s' := by
  cases h with
  | none hsemicolon =>
    obtain _ | ⟨hs, _ | _⟩ := hts
    exact ⟨_, .none (hs.kind hsemicolon), .none⟩
  | varDecl hkeyword h =>
    obtain _ | ⟨hk, hts⟩ := hts
    obtain ⟨s', h', hmatch⟩ := h.transport hts
    exact ⟨_, .varDecl (hk.kind hkeyword) h', .some hmatch⟩
  | expression h hsemicolon =>
    obtain ⟨ts', _, rfl, he, _ | ⟨hs, _ | _⟩⟩ := exists_append hts
    obtain ⟨e', h', hmatch⟩ := h.transport he
    exact ⟨_, .expression h' (hs.kind hsemicolon), .some (.expression hmatch)⟩

/-- A block of statements that match in pairs. -/
theorem block_matches {ss ss' : List Stmt} (h : List.Forall₂ (Stmt.Matches T p) ss ss') :
    (Stmt.block ss).Matches T p (.block ss') :=
  .block h.length_eq fun _ _ hs => List.forall₂_zip h hs

/-- The tree of a `for` loop matches when its parts do. -/
theorem forTree_matches (line line' : Nat) {condition condition' : Option Expr} {body body' : Stmt}
    {initializer initializer' : Option Stmt} {increment increment' : Option Expr}
    (hcondition : Option.Rel (Expr.Matches T) condition condition')
    (hbody : body.Matches T p.loopBody body')
    (hinitializer : Option.Rel (Stmt.Matches T p) initializer initializer')
    (hincrement : Option.Rel (Expr.Matches T) increment increment') :
    (forTree line condition body initializer increment).Matches T p
      (forTree line' condition' body' initializer' increment') := by
  have hcond : (condition.getD (.literal (.bool true) line)).Matches T
      (condition'.getD (.literal (.bool true) line')) := by
    cases hcondition with
    | none => exact .literal _ _ _
    | some h => exact h
  cases hincrement with
  | none =>
    have hloop := Stmt.Matches.whileLoop hcond hbody
    cases hinitializer with
    | none => exact hloop
    | some hinit => exact block_matches (.cons hinit (.cons hloop .nil))
  | some hincr =>
    have hloop := Stmt.Matches.whileLoop hcond
      (block_matches (.cons hbody (.cons (.expression hincr) .nil)))
    cases hinitializer with
    | none => exact hloop
    | some hinit => exact block_matches (.cons hinit (.cons hloop .nil))

/-! ## Statements and declarations -/

mutual

theorem Statement.transport {p : Place} {isOpen : Bool} {ts ts' : List Token} {s : Stmt} :
    Statement p isOpen ts s → List.Forall₂ (Alike T) ts ts' →
      ∃ s', Statement p isOpen ts' s' ∧ s.Matches T p s'
  | .expression he hsemicolon, h => by
    obtain ⟨ts', _, rfl, hts, _ | ⟨hs, _ | _⟩⟩ := exists_append h
    obtain ⟨e', he', hmatch⟩ := he.transport hts
    exact ⟨_, .expression he' (hs.kind hsemicolon), .expression hmatch⟩
  | .print hkeyword he hsemicolon, h => by
    obtain _ | ⟨hk, h⟩ := h
    obtain ⟨ts', _, rfl, hts, _ | ⟨hs, _ | _⟩⟩ := exists_append h
    obtain ⟨e', he', hmatch⟩ := he.transport hts
    exact ⟨_, .print (hk.kind hkeyword) he' (hs.kind hsemicolon), .print hmatch⟩
  | .breakOut hloop hkeyword hsemicolon, h => by
    obtain _ | ⟨hk, _ | ⟨hs, _ | _⟩⟩ := h
    exact ⟨_, .breakOut hloop (hk.kind hkeyword) (hs.kind hsemicolon),
      .breakOut (hk.rel (.breakAt p.inLoop) hloop)⟩
  | .giveBack hfunction hkeyword hvalue hsemicolon, h => by
    obtain _ | ⟨hk, h⟩ := h
    obtain ⟨ts', _, rfl, hts, _ | ⟨hs, _ | _⟩⟩ := exists_append h
    obtain ⟨value', hvalue', hmatch⟩ := hvalue.transport hts
    exact ⟨_, .giveBack hfunction (hk.kind hkeyword) hvalue' (hs.kind hsemicolon),
      .giveBack (hk.rel (.returnAt p.inFunction) hfunction) hmatch⟩
  | .block hleft hstatements hright, h => by
    obtain _ | ⟨hl, h⟩ := h
    obtain ⟨ts', _, rfl, hts, _ | ⟨hr, _ | _⟩⟩ := exists_append h
    obtain ⟨ss', hstatements', hall⟩ := hstatements.transport hts
    exact ⟨_, .block (hl.kind hleft) hstatements' (hr.kind hright), block_matches hall⟩
  | .ifThen hkeyword hleft hcondition hright hthen, h => by
    obtain _ | ⟨hk, _ | ⟨hl, h⟩⟩ := h
    obtain ⟨cs', _, rfl, hcs, _ | ⟨hr, hts⟩⟩ := exists_append h
    obtain ⟨condition', hcondition', hcond⟩ := hcondition.transport hcs
    obtain ⟨s', hthen', hmatch⟩ := hthen.transport hts
    exact ⟨_, .ifThen (hk.kind hkeyword) (hl.kind hleft) hcondition' (hr.kind hright) hthen',
      .ifThen hcond hmatch⟩
  | .ifElse hkeyword hleft hcondition hright hthen hother helse, h => by
    obtain _ | ⟨hk, _ | ⟨hl, h⟩⟩ := h
    obtain ⟨cs', _, rfl, hcs, _ | ⟨hr, hlater⟩⟩ := exists_append h
    obtain ⟨ts', _, rfl, hts, _ | ⟨ho, hus⟩⟩ := exists_append hlater
    obtain ⟨condition', hcondition', hcond⟩ := hcondition.transport hcs
    obtain ⟨s', hthen', hmatch⟩ := hthen.transport hts
    obtain ⟨other', helse', hmatch'⟩ := helse.transport hus
    exact ⟨_, .ifElse (hk.kind hkeyword) (hl.kind hleft) hcondition' (hr.kind hright) hthen'
      (ho.kind hother) helse', .ifElse hcond hmatch hmatch'⟩
  | .whileLoop hkeyword hleft hcondition hright hbody, h => by
    obtain _ | ⟨hk, _ | ⟨hl, h⟩⟩ := h
    obtain ⟨cs', _, rfl, hcs, _ | ⟨hr, hts⟩⟩ := exists_append h
    obtain ⟨condition', hcondition', hcond⟩ := hcondition.transport hcs
    obtain ⟨s', hbody', hmatch⟩ := hbody.transport hts
    exact ⟨_, .whileLoop (hk.kind hkeyword) (hl.kind hleft) hcondition' (hr.kind hright) hbody',
      .whileLoop hcond hmatch⟩
  | .forLoop hkeyword hleft hinitializer hcondition hsemicolon hincrement hright hbody, h => by
    obtain _ | ⟨hk, _ | ⟨hl, h⟩⟩ := h
    obtain ⟨is', _, rfl, his, hclauses⟩ := exists_append h
    obtain ⟨cs', _, rfl, hcs, _ | ⟨hs, hlater⟩⟩ := exists_append hclauses
    obtain ⟨us', _, rfl, hus, _ | ⟨hr, hts⟩⟩ := exists_append hlater
    obtain ⟨initializer', hinitializer', hinit⟩ := hinitializer.transport his
    obtain ⟨condition', hcondition', hcond⟩ := hcondition.transport hcs
    obtain ⟨increment', hincrement', hincr⟩ := hincrement.transport hus
    obtain ⟨s', hbody', hmatch⟩ := hbody.transport hts
    exact ⟨_, .forLoop (hk.kind hkeyword) (hl.kind hleft) hinitializer' hcondition'
      (hs.kind hsemicolon) hincrement' (hr.kind hright) hbody',
      forTree_matches _ _ hcond hmatch hinit hincr⟩

theorem Declaration.transport {p : Place} {ts ts' : List Token} {s : Stmt} :
    Declaration p ts s → List.Forall₂ (Alike T) ts ts' →
      ∃ s', Declaration p ts' s' ∧ s.Matches T p s'
  | .function hkeyword hname hleft hparams hright hbrace hbody hclose, h => by
    obtain _ | ⟨hk, _ | ⟨hn, _ | ⟨hl, h⟩⟩⟩ := h
    obtain ⟨ps', _, rfl, hps, _ | ⟨hr, _ | ⟨hb, hlater⟩⟩⟩ := exists_append h
    obtain ⟨ts', _, rfl, hts, _ | ⟨hc, _ | _⟩⟩ := exists_append hlater
    obtain ⟨params', hparams', hall⟩ := hparams.transport hps
    obtain ⟨body', hbody', hmatch⟩ := hbody.transport hts
    exact ⟨_, .function (hk.kind hkeyword) (hn.kind hname) (hl.kind hleft) hparams'
      (hr.kind hright) (hb.kind hbrace) hbody' (hc.kind hclose),
      .funDecl (hn.rel .functionName rfl) hall hmatch.length_eq fun _ _ hs =>
        List.forall₂_zip hmatch hs⟩
  | .varDecl hkeyword hvariable, h => by
    obtain _ | ⟨hk, h⟩ := h
    obtain ⟨s', hvariable', hmatch⟩ := hvariable.transport h
    exact ⟨s', .varDecl (hk.kind hkeyword) hvariable', hmatch⟩
  | .statement hstatement, h => by
    obtain ⟨s', hstatement', hmatch⟩ := hstatement.transport h
    exact ⟨s', .statement hstatement', hmatch⟩

/-- **What the grammar derives from some tokens, it derives from tokens that look alike.** -/
theorem Declarations.transport {p : Place} {ts ts' : List Token} {ss : List Stmt} :
    Declarations p ts ss → List.Forall₂ (Alike T) ts ts' →
      ∃ ss', Declarations p ts' ss' ∧ List.Forall₂ (Stmt.Matches T p) ss ss'
  | .nil, h => by
    cases h
    exact ⟨[], .nil, .nil⟩
  | .cons hfirst hrest, h => by
    obtain ⟨ts', us', rfl, hts, hus⟩ := exists_append h
    obtain ⟨s', hfirst', hmatch⟩ := hfirst.transport hts
    obtain ⟨ss', hrest', hall⟩ := hrest.transport hus
    exact ⟨s' :: ss', .cons hfirst' hrest', .cons hmatch hall⟩

end

end

end Grammar

end GradedScript
