import GradedScript.Proofs.Parser.Exactness
import GradedScript.Proofs.Scan.Printing
import GradedScript.Proofs.Tree.Occurrences
import Mathlib

/-!
# The words of trees

A tree does not only have tokens of the right kinds in their roles. Each of them is also spelled as
its kind and value say, since it comes from a scanner, and each literal is one that can be written
in a source. In the tree of a source without static faults all nodes are so (`worded_of_source`).
-/

namespace GradedScript

/-! ## Words -/

/-- A token whose text is a lexeme of its kind and value. -/
def Token.Spelled (t : Token) : Prop :=
  Lexeme t.lexeme.toList t.kind t.literal

/-- The kinds of the tokens that the grammar puts into a role. -/
def Role.kinds : Role → List Kind
  | .unary => [.bang, .minus]
  | .binary =>
    [.minus, .slash, .star, .plus, .greater, .greaterEqual, .less, .lessEqual, .equalEqual,
      .bangEqual]
  | .logical => [.kwAnd, .kwOr]
  | .read | .assigned | .variableName | .functionName | .parameter => [.identifier]
  | .paren => [.rightParen]
  | .breakAt _ => [.kwBreak]
  | .returnAt _ => [.kwReturn]

/-- A token that can stand in a role. -/
structure Token.Plays (role : Role) (t : Token) : Prop where
  spelled : t.Spelled
  kind : t.kind ∈ role.kinds

/-- Values that can be written: numbers are read from decimals, and strings have no quotes in
them. -/
inductive Literal.Written : Literal → Prop
  | number (d : Decimal) : Written (.number d.nearest)
  | string {s} (hs : '"' ∉ s.toList) : Written (.string s)
  | bool (b) : Written (.bool b)
  | nil : Written .nil

/-- The literal and the tokens of a node itself, without its parts, are as the grammar has them. -/
def Node.Worded : Node → Prop
  | .expr (.literal value _) => value.Written
  | .expr (.unary operator _) => operator.Plays .unary
  | .expr (.binary _ operator _) => operator.Plays .binary
  | .expr (.logical _ operator _) => operator.Plays .logical
  | .expr (.var name) => name.Plays .read
  | .expr (.assign name _) => name.Plays .assigned
  | .expr (.call _ paren _) => paren.Plays .paren
  | .stmt (.varDecl name _) => name.Plays .variableName
  | .stmt (.breakOut keyword) => keyword.Plays (.breakAt true)
  | .stmt (.giveBack keyword _) => keyword.Plays (.returnAt true)
  | .stmt (.funDecl name params _) =>
    name.Plays .functionName ∧ ∀ t ∈ params, t.Plays .parameter
  | _ => True

theorem Token.Spelled.plays {t : Token} (h : t.Spelled) {role : Role} {kind : Kind}
    (hkind : t.kind = kind) (hrole : kind ∈ role.kinds) : t.Plays role :=
  ⟨h, hkind ▸ hrole⟩

/-- The value of a token can be written. -/
theorem Token.Spelled.written {t : Token} (h : t.Spelled) {value : Literal}
    (hvalue : t.literal = some value) : value.Written := by
  unfold Token.Spelled at h
  rw [hvalue] at h
  generalize t.lexeme.toList = text, t.kind = kind at h
  cases h with
  | whole => exact .number _
  | fraction => exact .number _
  | string hbody =>
    refine .string ?_
    rwa [String.toList_ofList]

namespace Grammar

/-! ## Expressions -/

/-- Operands and an operator of a level make a tree. -/
theorem Level.join_worded (level : Level) {x y : Expr} {t : Token}
    (hx : (Node.expr x).All Node.Worded) (ht : t.Spelled) (hop : t.kind ∈ level.operators)
    (hy : (Node.expr y).All Node.Worded) : (Node.expr (level.join x t y)).All Node.Worded := by
  have hparts : ∀ p ∈ [(Branch.part, Node.expr x), (.part, .expr y)], p.2.All Node.Worded :=
    List.forall_mem_cons.2 ⟨hx, List.forall_mem_singleton.2 hy⟩
  have hlogical (hplays : t.Plays .logical) : (Node.expr (.logical x t y)).All Node.Worded :=
    Node.all_iff.2 ⟨hplays, hparts⟩
  have hbinary (hkinds : ∀ kind ∈ level.operators, kind ∈ Role.binary.kinds) :
      (Node.expr (.binary x t y)).All Node.Worded :=
    Node.all_iff.2 ⟨⟨ht, hkinds _ hop⟩, hparts⟩
  cases level with
  | disjunction => exact hlogical (ht.plays (List.mem_singleton.1 hop) (by decide))
  | conjunction => exact hlogical (ht.plays (List.mem_singleton.1 hop) (by decide))
  | _ => exact hbinary (by decide)

mutual

theorem Expression.worded {ts : List Token} {e : Expr} :
    Expression ts e → (∀ t ∈ ts, t.Spelled) → (Node.expr e).All Node.Worded
  | .assign hname _ hvalue, h => by
    obtain ⟨hn, hlater⟩ := List.forall_mem_cons.1 h
    have hv := hvalue.worded (List.forall_mem_cons.1 hlater).2
    exact Node.all_iff.2 ⟨hn.plays hname (by decide), List.forall_mem_singleton.2 hv⟩
  | .plain htier, h => htier.worded h

theorem Tier.worded {level : Level} {ts : List Token} {e : Expr} :
    Tier level ts e → (∀ t ∈ ts, t.Spelled) → (Node.expr e).All Node.Worded
  | .operand _ hoperand, h => hoperand.worded h
  | .join hleft hop hright, h => by
    obtain ⟨hxs, hlater⟩ := List.forall_mem_append.1 h
    obtain ⟨ht, hys⟩ := List.forall_mem_cons.1 hlater
    exact level.join_worded (hleft.worded hxs) ht hop (hright.worded hys)
  | .unary hop hoperand, h => by
    obtain ⟨ht, hts⟩ := List.forall_mem_cons.1 h
    exact Node.all_iff.2 ⟨⟨ht, hop⟩, List.forall_mem_singleton.2 (hoperand.worded hts)⟩
  | .call hcall, h => hcall.worded h

theorem Call.worded {ts : List Token} {e : Expr} :
    Call ts e → (∀ t ∈ ts, t.Spelled) → (Node.expr e).All Node.Worded
  | .primary hprimary, h => hprimary.worded h
  | .empty hcallee _ hright, h => by
    obtain ⟨hts, hlater⟩ := List.forall_mem_append.1 h
    have hr := List.forall_mem_singleton.1 (List.forall_mem_cons.1 hlater).2
    exact Node.all_iff.2
      ⟨hr.plays hright (by decide), List.forall_mem_singleton.2 (hcallee.worded hts)⟩
  | .call hcallee _ harguments _ hright, h => by
    obtain ⟨hts, hlater⟩ := List.forall_mem_append.1 h
    obtain ⟨has, hr⟩ := List.forall_mem_append.1 (List.forall_mem_cons.1 hlater).2
    exact Node.all_iff.2 ⟨(List.forall_mem_singleton.1 hr).plays hright (by decide),
      List.forall_mem_cons.2 ⟨hcallee.worded hts, List.forall_mem_map.2 (harguments.worded has)⟩⟩

theorem Arguments.worded {ts : List Token} {es : List Expr} :
    Arguments ts es → (∀ t ∈ ts, t.Spelled) → ∀ e ∈ es, (Node.expr e).All Node.Worded
  | .one hexpression, h => List.forall_mem_singleton.2 (hexpression.worded h)
  | .more hexpression _ hrest, h => by
    obtain ⟨hts, hlater⟩ := List.forall_mem_append.1 h
    exact List.forall_mem_cons.2
      ⟨hexpression.worded hts, hrest.worded (List.forall_mem_cons.1 hlater).2⟩

theorem Primary.worded {ts : List Token} {e : Expr} :
    Primary ts e → (∀ t ∈ ts, t.Spelled) → (Node.expr e).All Node.Worded
  | .false _, _ => Node.all_iff.2 ⟨.bool false, List.forall_mem_nil _⟩
  | .true _, _ => Node.all_iff.2 ⟨.bool true, List.forall_mem_nil _⟩
  | .nil _, _ => Node.all_iff.2 ⟨.nil, List.forall_mem_nil _⟩
  | .value _ hvalue, h =>
    Node.all_iff.2 ⟨(List.forall_mem_singleton.1 h).written hvalue, List.forall_mem_nil _⟩
  | .name hkind, h =>
    Node.all_iff.2
      ⟨(List.forall_mem_singleton.1 h).plays hkind (by decide), List.forall_mem_nil _⟩
  | .group _ hinner _, h => by
    obtain ⟨hts, -⟩ := List.forall_mem_append.1 (List.forall_mem_cons.1 h).2
    exact Node.all_iff.2 ⟨trivial, List.forall_mem_singleton.2 (hinner.worded hts)⟩

end

theorem OptionalExpression.worded {ts : List Token} {e : Option Expr}
    (h : OptionalExpression ts e) (hts : ∀ t ∈ ts, t.Spelled) :
    ∀ e' ∈ e, (Node.expr e').All Node.Worded := by
  cases h with
  | none => rintro e' ⟨⟩
  | some h =>
    rintro e' ⟨⟩
    exact h.worded hts

/-! ## Parts of statements -/

theorem Parameters.plays {ts params : List Token} (h : Parameters ts params)
    (hts : ∀ t ∈ ts, t.Spelled) : ∀ t ∈ params, t.Plays .parameter := by
  induction h with
  | one hkind =>
    exact List.forall_mem_singleton.2 ((List.forall_mem_singleton.1 hts).plays hkind (by decide))
  | more hkind _ _ ih =>
    obtain ⟨ht, hlater⟩ := List.forall_mem_cons.1 hts
    exact List.forall_mem_cons.2
      ⟨ht.plays hkind (by decide), ih (List.forall_mem_cons.1 hlater).2⟩

theorem OptionalParameters.plays {ts params : List Token} (h : OptionalParameters ts params)
    (hts : ∀ t ∈ ts, t.Spelled) : ∀ t ∈ params, t.Plays .parameter := by
  cases h with
  | none => exact List.forall_mem_nil _
  | some h => exact h.plays hts

theorem Variable.worded {ts : List Token} {s : Stmt} (h : Variable ts s)
    (hts : ∀ t ∈ ts, t.Spelled) : (Node.stmt s).All Node.Worded := by
  obtain ⟨hname, -⟩ | ⟨hname, -, h, -⟩ := h
  · have hn := (List.forall_mem_cons.1 hts).1
    exact Node.all_iff.2 ⟨hn.plays hname (by decide), List.forall_mem_nil _⟩
  · obtain ⟨hn, hlater⟩ := List.forall_mem_cons.1 hts
    obtain ⟨hvalue, -⟩ := List.forall_mem_append.1 (List.forall_mem_cons.1 hlater).2
    exact Node.all_iff.2
      ⟨hn.plays hname (by decide), List.forall_mem_singleton.2 (h.worded hvalue)⟩

theorem Initializer.worded {ts : List Token} {s : Option Stmt} (h : Initializer ts s)
    (hts : ∀ t ∈ ts, t.Spelled) : ∀ s' ∈ s, (Node.stmt s').All Node.Worded := by
  cases h with
  | none => rintro s' ⟨⟩
  | varDecl _ h =>
    rintro s' ⟨⟩
    exact h.worded (List.forall_mem_cons.1 hts).2
  | expression h _ =>
    rintro s' ⟨⟩
    have he := h.worded (List.forall_mem_append.1 hts).1
    exact Node.all_iff.2 ⟨trivial, List.forall_mem_singleton.2 he⟩

/-- The tree of a `for` loop is made of its parts, loops and blocks, and at most a literal. -/
theorem forTree_worded (line : Nat) {condition increment : Option Expr} {body : Stmt}
    {initializer : Option Stmt} (hcondition : ∀ e ∈ condition, (Node.expr e).All Node.Worded)
    (hbody : (Node.stmt body).All Node.Worded)
    (hinitializer : ∀ s ∈ initializer, (Node.stmt s).All Node.Worded)
    (hincrement : ∀ e ∈ increment, (Node.expr e).All Node.Worded) :
    (Node.stmt (forTree line condition body initializer increment)).All Node.Worded := by
  have hcond : (Node.expr (condition.getD (.literal (.bool true) line))).All Node.Worded := by
    cases condition with
    | none => exact Node.all_iff.2 ⟨.bool true, List.forall_mem_nil _⟩
    | some e => exact hcondition e rfl
  have hloop {s : Stmt} (hs : (Node.stmt s).All Node.Worded) :
      (Node.stmt (.whileLoop (condition.getD (.literal (.bool true) line)) s)).All Node.Worded :=
    Node.all_iff.2 ⟨trivial, List.forall_mem_cons.2 ⟨hcond, List.forall_mem_singleton.2 hs⟩⟩
  have hblock {s s' : Stmt} (hs : (Node.stmt s).All Node.Worded)
      (hs' : (Node.stmt s').All Node.Worded) : (Node.stmt (.block [s, s'])).All Node.Worded :=
    Node.all_iff.2 ⟨trivial, List.forall_mem_cons.2 ⟨hs, List.forall_mem_singleton.2 hs'⟩⟩
  have hstep (e : Expr) (he : (Node.expr e).All Node.Worded) :
      (Node.stmt (.block [body, .expression e])).All Node.Worded :=
    hblock hbody (Node.all_iff.2 ⟨trivial, List.forall_mem_singleton.2 he⟩)
  cases initializer with
  | none =>
    cases increment with
    | none => exact hloop hbody
    | some e => exact hloop (hstep e (hincrement e rfl))
  | some s =>
    cases increment with
    | none => exact hblock (hinitializer s rfl) (hloop hbody)
    | some e => exact hblock (hinitializer s rfl) (hloop (hstep e (hincrement e rfl)))

/-! ## Statements and declarations -/

mutual

theorem Statement.worded {p : Place} {isOpen : Bool} {ts : List Token} {s : Stmt} :
    Statement p isOpen ts s → (∀ t ∈ ts, t.Spelled) → (Node.stmt s).All Node.Worded
  | .expression he _, h => by
    have he := he.worded (List.forall_mem_append.1 h).1
    exact Node.all_iff.2 ⟨trivial, List.forall_mem_singleton.2 he⟩
  | .print _ he _, h => by
    have he := he.worded (List.forall_mem_append.1 (List.forall_mem_cons.1 h).2).1
    exact Node.all_iff.2 ⟨trivial, List.forall_mem_singleton.2 he⟩
  | .breakOut _ hkeyword _, h =>
    Node.all_iff.2
      ⟨(List.forall_mem_cons.1 h).1.plays hkeyword (by decide), List.forall_mem_nil _⟩
  | .giveBack _ hkeyword hvalue _, h => by
    obtain ⟨hk, hlater⟩ := List.forall_mem_cons.1 h
    have hv := hvalue.worded (List.forall_mem_append.1 hlater).1
    refine Node.all_iff.2 ⟨hk.plays hkeyword (by decide), List.forall_mem_map.2 ?_⟩
    exact fun e he => hv e (Option.mem_toList.1 he)
  | .block _ hstatements _, h => by
    have hall := hstatements.worded (List.forall_mem_append.1 (List.forall_mem_cons.1 h).2).1
    exact Node.all_iff.2 ⟨trivial, List.forall_mem_map.2 hall⟩
  | .ifThen _ _ hcondition _ hthen, h => by
    have hlater := (List.forall_mem_cons.1 (List.forall_mem_cons.1 h).2).2
    obtain ⟨hcs, hlater⟩ := List.forall_mem_append.1 hlater
    have hs := hthen.worded (List.forall_mem_cons.1 hlater).2
    exact Node.all_iff.2 ⟨trivial, List.forall_mem_cons.2
      ⟨hcondition.worded hcs, List.forall_mem_singleton.2 hs⟩⟩
  | .ifElse _ _ hcondition _ hthen _ helse, h => by
    have hlater := (List.forall_mem_cons.1 (List.forall_mem_cons.1 h).2).2
    obtain ⟨hcs, hlater⟩ := List.forall_mem_append.1 hlater
    obtain ⟨hts, hlater⟩ := List.forall_mem_append.1 (List.forall_mem_cons.1 hlater).2
    have hs := helse.worded (List.forall_mem_cons.1 hlater).2
    exact Node.all_iff.2 ⟨trivial, List.forall_mem_cons.2 ⟨hcondition.worded hcs,
      List.forall_mem_cons.2 ⟨hthen.worded hts, List.forall_mem_singleton.2 hs⟩⟩⟩
  | .whileLoop _ _ hcondition _ hbody, h => by
    have hlater := (List.forall_mem_cons.1 (List.forall_mem_cons.1 h).2).2
    obtain ⟨hcs, hlater⟩ := List.forall_mem_append.1 hlater
    have hs := hbody.worded (List.forall_mem_cons.1 hlater).2
    exact Node.all_iff.2 ⟨trivial, List.forall_mem_cons.2
      ⟨hcondition.worded hcs, List.forall_mem_singleton.2 hs⟩⟩
  | .forLoop _ _ hinitializer hcondition _ hincrement _ hbody, h => by
    have hlater := (List.forall_mem_cons.1 (List.forall_mem_cons.1 h).2).2
    obtain ⟨his, hlater⟩ := List.forall_mem_append.1 hlater
    obtain ⟨hcs, hlater⟩ := List.forall_mem_append.1 hlater
    obtain ⟨hus, hlater⟩ := List.forall_mem_append.1 (List.forall_mem_cons.1 hlater).2
    exact forTree_worded _ (hcondition.worded hcs)
      (hbody.worded (List.forall_mem_cons.1 hlater).2) (hinitializer.worded his)
      (hincrement.worded hus)

theorem Declaration.worded {p : Place} {ts : List Token} {s : Stmt} :
    Declaration p ts s → (∀ t ∈ ts, t.Spelled) → (Node.stmt s).All Node.Worded
  | .function _ hname _ hparams _ _ hbody _, h => by
    obtain ⟨hn, hlater⟩ := List.forall_mem_cons.1 (List.forall_mem_cons.1 h).2
    obtain ⟨hps, hlater⟩ := List.forall_mem_append.1 (List.forall_mem_cons.1 hlater).2
    have hlater := (List.forall_mem_cons.1 (List.forall_mem_cons.1 hlater).2).2
    have hall := hbody.worded (List.forall_mem_append.1 hlater).1
    exact Node.all_iff.2
      ⟨⟨hn.plays hname (by decide), hparams.plays hps⟩, List.forall_mem_map.2 hall⟩
  | .varDecl _ hvariable, h => hvariable.worded (List.forall_mem_cons.1 h).2
  | .statement hstatement, h => hstatement.worded h

theorem Declarations.worded {p : Place} {ts : List Token} {ss : List Stmt} :
    Declarations p ts ss → (∀ t ∈ ts, t.Spelled) → ∀ s ∈ ss, (Node.stmt s).All Node.Worded
  | .nil, _ => List.forall_mem_nil _
  | .cons hfirst hrest, h => by
    obtain ⟨hts, hus⟩ := List.forall_mem_append.1 h
    exact List.forall_mem_cons.2 ⟨hfirst.worded hts, hrest.worded hus⟩

end

end Grammar

/-! ## Sources -/

/-- Every token of a source but the end is spelled. -/
theorem spelled_of_mem_tokensBefore {source : String} {t : Token} (h : t ∈ tokensBefore source) :
    t.Spelled := by
  have hmem : t ∈ (scan source).tokens := by
    rw [scan_tokens]
    exact List.mem_append_left _ h
  exact (scan_items_partitioned source).lexeme t (Scanned.mem_tokens_iff.1 hmem)
    (tokensBefore_ne_eof t h)

/-- **Trees are worded.** In the tree of a source without static faults, every token is spelled as
it should be in its role, and every literal can be written. -/
theorem worded_of_source {source : String} (hvalid : (Program.ofSource source).errors = []) :
    ∀ s ∈ (Program.ofSource source).statements, (Node.stmt s).All Node.Worded :=
  (Program.derived_before hvalid).worded fun _ => spelled_of_mem_tokensBefore

end GradedScript
