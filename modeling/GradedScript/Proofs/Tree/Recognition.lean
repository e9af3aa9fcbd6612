import GradedScript.Proofs.Tree.Legibility
import Mathlib

/-!
# Texts determine trees

Trees of sources are told apart by their texts. A text is uniquely readable as a datum, so what is
left is to tell a tree from its datum. The head of a datum shows the rule that the tree was built
by, or the operator of it; then the number of items shows whether it has one operand or two, and
which of the optional parts there are. Tokens that are not shown have one spelling only. So two
programs have the same texts just if they resemble each other (`texts_determine_trees`).
-/

namespace GradedScript

/-! ## Lists -/

/-- Lists with the same images match in pairs if their members match whenever they have the same
image. -/
theorem forall₂_of_map_eq {α β : Type} {f : α → β} {Q : α → Prop} {R : α → α → Prop}
    {l l' : List α} (hl : ∀ a ∈ l, ∀ a', Q a' → f a = f a' → R a a') (hl' : ∀ a' ∈ l', Q a')
    (heq : l.map f = l'.map f) : List.Forall₂ R l l' := by
  induction l generalizing l' with
  | nil =>
    obtain rfl := List.map_eq_nil_iff.1 heq.symm
    exact .nil
  | cons a l ih =>
    obtain ⟨a', l'', rfl, ha, hrest⟩ := List.map_eq_cons_iff.1 heq.symm
    obtain ⟨hfirst, hlater⟩ := List.forall_mem_cons.1 hl
    obtain ⟨hfirst', hlater'⟩ := List.forall_mem_cons.1 hl'
    exact .cons (hfirst a' hfirst' ha.symm) (ih hlater hlater' hrest.symm)

theorem optionRel_of_toList {α : Type} {R : α → α → Prop} {o o' : Option α}
    (h : List.Forall₂ R o.toList o'.toList) : Option.Rel R o o' := by
  cases o with
  | none =>
    cases o' with
    | none => exact .none
    | some a' => cases h
  | some a =>
    cases o' with
    | none => cases h
    | some a' =>
      obtain _ | ⟨ha, -⟩ := h
      exact .some ha

/-! ## Telling trees from their data -/

/-- Only trees that resemble a node have its datum. -/
def Node.Recognised : Node → Prop
  | .expr e => ∀ e', (Node.expr e').All Node.Legible → e.datum = e'.datum →
      e.Matches anywhere e'
  | .stmt s => ∀ s', (Node.stmt s').All Node.Legible → s.datum = s'.datum →
      s.Resembles anyPlace s'

section

variable {branch : Branch} {es es' : List Expr} {ss ss' : List Stmt}

/-- Expressions among the parts of nodes match if their data are the same. -/
theorem Expr.forall₂_matches
    (hes : ∀ p ∈ es.map fun e => (branch, Node.expr e), p.2.Recognised)
    (hes' : ∀ p ∈ es'.map fun e => (branch, Node.expr e), p.2.All Node.Legible)
    (heq : Expr.data es = Expr.data es') :
    List.Forall₂ (Expr.Matches anywhere) es es' := by
  rw [Expr.data_eq_map, Expr.data_eq_map] at heq
  have hlegible := List.forall_mem_map.1 hes'
  exact forall₂_of_map_eq (List.forall_mem_map.1 hes) hlegible heq

/-- Statements among the parts of nodes resemble each other if their data are the same. -/
theorem Stmt.forall₂_resembles
    (hss : ∀ p ∈ ss.map fun s => (branch, Node.stmt s), p.2.Recognised)
    (hss' : ∀ p ∈ ss'.map fun s => (branch, Node.stmt s), p.2.All Node.Legible)
    (heq : Stmt.data ss = Stmt.data ss') : List.Forall₂ (Stmt.Resembles anyPlace) ss ss' := by
  rw [Stmt.data_eq_map, Stmt.data_eq_map] at heq
  have hlegible := List.forall_mem_map.1 hss'
  exact forall₂_of_map_eq (List.forall_mem_map.1 hss) hlegible heq

end

/-- Parameters are shown one by one. -/
theorem parameterDatum_inj {params params' : List Token} (h : ∀ t ∈ params, t.Plays .parameter)
    (h' : ∀ t ∈ params', t.Plays .parameter)
    (heq : parameterDatum params = parameterDatum params') :
    List.Forall₂ (Token.Resembles anyPlace) params params' := by
  have hempty {t : Token} (ht : t.Plays .parameter) : t.lexeme.toList ≠ [] :=
    Lexeme.ne_nil ht.spelled
  cases params with
  | nil =>
    cases params' with
    | nil => exact .nil
    | cons t' ts' => exact absurd (Datum.list.inj heq).1.symm (hempty (h' t' List.mem_cons_self))
  | cons t ts =>
    obtain ⟨ht, hts⟩ := List.forall_mem_cons.1 h
    cases params' with
    | nil => exact absurd (Datum.list.inj heq).1 (hempty ht)
    | cons t' ts' =>
      obtain ⟨ht', hts'⟩ := List.forall_mem_cons.1 h'
      obtain ⟨hfirst, hlater⟩ := Datum.list.inj heq
      refine .cons (ht.spelled.resembles ht'.spelled hfirst) (forall₂_of_map_eq ?_ hts' hlater)
      intro u hu u' hu' hatom
      exact (hts u hu).spelled.resembles hu'.spelled (Datum.atom.inj hatom)

/-! ## Expressions -/

/-- The rules that expressions are built by. -/
inductive Rule where
  | literal
  | var
  | grouping
  | unary
  | binary
  | logical
  | assign
  | call

/-- The rule that an expression is built by. -/
def Expr.rule : Expr → Rule
  | .literal .. => .literal
  | .var _ => .var
  | .grouping _ => .grouping
  | .unary .. => .unary
  | .binary .. => .binary
  | .logical .. => .logical
  | .assign .. => .assign
  | .call .. => .call

/-- The first word or quotation of a datum. -/
def Datum.head : Datum → List Char
  | .atom text => text
  | .list head _ => head

/-- The rule that a datum shows, if its head is a token of some kind. -/
def Datum.rule (kind : Kind) : Datum → Rule
  | .atom _ => if kind = .identifier then .var else .literal
  | .list head items =>
    if kind = .identifier then if head = "group".toList then .grouping else .call
    else if kind = .equal then .assign
    else if items.length = 1 then .unary
    else if kind ∈ Role.logical.kinds then .logical
    else .binary

/-- The head of an expression's datum is a token, and shows the rule together with its kind. -/
theorem Expr.rule_eq {e : Expr} (h : (Node.expr e).Legible) :
    ∃ kind literal, Lexeme e.datum.head kind literal ∧ e.datum.rule kind = e.rule := by
  obtain ⟨hworded, hfinite⟩ := h
  cases e with
  | literal value line =>
    have hkind : value.kind ≠ .identifier := by
      intro hkind
      exact absurd (hkind ▸ value.kind_mem) (by decide)
    exact ⟨_, _, hworded.lexeme hfinite, if_neg hkind⟩
  | var name => exact ⟨_, _, hworded.spelled, if_pos (List.mem_singleton.1 hworded.kind)⟩
  | grouping inner => exact ⟨_, _, word_lexeme "group" (by decide), rfl⟩
  | call callee paren arguments => exact ⟨_, _, word_lexeme "call" (by decide), rfl⟩
  | assign name value => exact ⟨.equal, none, .single (by decide), rfl⟩
  | unary operator right =>
    have htable : ∀ kind ∈ Role.unary.kinds, kind ≠ .identifier ∧ kind ≠ .equal := by decide
    obtain ⟨hname, hequal⟩ := htable _ hworded.kind
    exact ⟨_, _, hworded.spelled, (if_neg hname).trans ((if_neg hequal).trans rfl)⟩
  | binary left operator right =>
    have htable : ∀ kind ∈ Role.binary.kinds, kind ≠ .identifier ∧ kind ≠ .equal ∧
        kind ∉ Role.logical.kinds := by decide
    obtain ⟨hname, hequal, hlogical⟩ := htable _ hworded.kind
    exact ⟨_, _, hworded.spelled, (if_neg hname).trans ((if_neg hequal).trans (if_neg hlogical))⟩
  | logical left operator right =>
    have htable : ∀ kind ∈ Role.logical.kinds, kind ≠ .identifier ∧ kind ≠ .equal := by decide
    obtain ⟨hname, hequal⟩ := htable _ hworded.kind
    exact ⟨_, _, hworded.spelled,
      (if_neg hname).trans ((if_neg hequal).trans (if_pos hworded.kind))⟩

/-- **The datum of an expression shows the expression**, if those of its parts do. -/
theorem Expr.recognised {e : Expr} (h : (Node.expr e).Legible)
    (hparts : ∀ p ∈ (Node.expr e).parts, p.2.Recognised) : (Node.expr e).Recognised := by
  intro e' hall' heq
  obtain ⟨h', hparts'⟩ := Node.all_iff.1 hall'
  have hrule : e.rule = e'.rule := by
    obtain ⟨kind, literal, hlexeme, hrule⟩ := Expr.rule_eq h
    obtain ⟨kind', literal', hlexeme', hrule'⟩ := Expr.rule_eq h'
    rw [← heq] at hlexeme' hrule'
    rw [← hrule, ← hrule', (hlexeme.unique hlexeme').1]
  obtain ⟨hworded, hfinite⟩ := h
  obtain ⟨hworded', hfinite'⟩ := h'
  cases e with
  | literal value line =>
    cases e' with
    | literal value' line' =>
      obtain rfl :=
        Literal.Written.quoted_inj hworded hfinite hworded' hfinite' (Datum.atom.inj heq)
      exact .literal value line line'
    | _ => cases hrule
  | var name =>
    cases e' with
    | var name' => exact .var (hworded.spelled.resembles hworded'.spelled (Datum.atom.inj heq))
    | _ => cases hrule
  | grouping inner =>
    cases e' with
    | grouping inner' =>
      have hall : List.Forall₂ (Expr.Matches anywhere) [inner] [inner'] :=
        Expr.forall₂_matches hparts hparts' (Datum.list.inj heq).2
      obtain _ | ⟨hinner, -⟩ := hall
      exact .grouping hinner
    | _ => cases hrule
  | unary operator right =>
    cases e' with
    | unary operator' right' =>
      obtain ⟨hop, hitems⟩ := Datum.list.inj heq
      have hall : List.Forall₂ (Expr.Matches anywhere) [right] [right'] :=
        Expr.forall₂_matches hparts hparts' hitems
      obtain _ | ⟨hright, -⟩ := hall
      exact .unary (hworded.spelled.resembles hworded'.spelled hop) hright
    | _ => cases hrule
  | binary left operator right =>
    cases e' with
    | binary left' operator' right' =>
      obtain ⟨hop, hitems⟩ := Datum.list.inj heq
      have hall : List.Forall₂ (Expr.Matches anywhere) [left, right] [left', right'] :=
        Expr.forall₂_matches hparts hparts' hitems
      obtain _ | ⟨hleft, _ | ⟨hright, -⟩⟩ := hall
      exact .binary hleft (hworded.spelled.resembles hworded'.spelled hop) hright
    | _ => cases hrule
  | logical left operator right =>
    cases e' with
    | logical left' operator' right' =>
      obtain ⟨hop, hitems⟩ := Datum.list.inj heq
      have hall : List.Forall₂ (Expr.Matches anywhere) [left, right] [left', right'] :=
        Expr.forall₂_matches hparts hparts' hitems
      obtain _ | ⟨hleft, _ | ⟨hright, -⟩⟩ := hall
      exact .logical hleft (hworded.spelled.resembles hworded'.spelled hop) hright
    | _ => cases hrule
  | assign name value =>
    cases e' with
    | assign name' value' =>
      obtain ⟨hname, hitems⟩ := List.cons.inj (Datum.list.inj heq).2
      have hall : List.Forall₂ (Expr.Matches anywhere) [value] [value'] :=
        Expr.forall₂_matches hparts hparts' hitems
      obtain _ | ⟨hvalue, -⟩ := hall
      exact .assign (hworded.spelled.resembles hworded'.spelled (Datum.atom.inj hname)) hvalue
    | _ => cases hrule
  | call callee paren arguments =>
    cases e' with
    | call callee' paren' arguments' =>
      have hall : List.Forall₂ (Expr.Matches anywhere) (callee :: arguments)
          (callee' :: arguments') :=
        Expr.forall₂_matches hparts hparts' (Datum.list.inj heq).2
      obtain _ | ⟨hcallee, harguments⟩ := hall
      exact .call hcallee (hworded.resembles hworded' rfl (by decide)) harguments.length_eq
        fun _ _ he => List.forall₂_zip harguments he
    | _ => cases hrule

/-! ## Statements -/

/-- **The datum of a statement shows the statement**, if those of its parts do. -/
theorem Stmt.recognised {s : Stmt} (h : (Node.stmt s).Legible)
    (hparts : ∀ p ∈ (Node.stmt s).parts, p.2.Recognised) : (Node.stmt s).Recognised := by
  intro s' hall' heq place
  obtain ⟨h', hparts'⟩ := Node.all_iff.1 hall'
  have hworded := h.worded
  have hworded' := h'.worded
  cases s with
  | expression e =>
    cases s' with
    | expression e' =>
      have hall : List.Forall₂ (Expr.Matches anywhere) [e] [e'] :=
        Expr.forall₂_matches hparts hparts' (Datum.list.inj heq).2
      obtain _ | ⟨he, -⟩ := hall
      exact .expression he
    | _ => exact absurd (Datum.list.inj heq).1 (by decide)
  | print e =>
    cases s' with
    | print e' =>
      have hall : List.Forall₂ (Expr.Matches anywhere) [e] [e'] :=
        Expr.forall₂_matches hparts hparts' (Datum.list.inj heq).2
      obtain _ | ⟨he, -⟩ := hall
      exact .print he
    | _ => exact absurd (Datum.list.inj heq).1 (by decide)
  | varDecl name initializer =>
    cases s' with
    | varDecl name' initializer' =>
      obtain ⟨hname, hitems⟩ := List.cons.inj (Datum.list.inj heq).2
      have hall := Expr.forall₂_matches hparts hparts' hitems
      exact .varDecl (hworded.spelled.resembles hworded'.spelled (Datum.atom.inj hname))
        (optionRel_of_toList hall)
    | _ => exact absurd (Datum.list.inj heq).1 (by decide)
  | block statements =>
    cases s' with
    | block statements' =>
      have hall := Stmt.forall₂_resembles hparts hparts' (Datum.list.inj heq).2
      exact Grammar.block_matches (hall.imp fun _ _ hs => hs place)
    | _ => exact absurd (Datum.list.inj heq).1 (by decide)
  | ifElse condition thenBranch elseBranch =>
    cases s' with
    | ifElse condition' thenBranch' elseBranch' =>
      obtain ⟨hcond, hitems⟩ := List.cons.inj (Datum.list.inj heq).2
      obtain ⟨hcondition, hbranches⟩ := List.forall_mem_cons.1 hparts
      obtain ⟨hcondition', hbranches'⟩ := List.forall_mem_cons.1 hparts'
      rw [Stmt.optionData_eq_map, Stmt.optionData_eq_map, ← Stmt.data_eq_map,
        ← Stmt.data_eq_map] at hitems
      have hall : List.Forall₂ (Stmt.Resembles anyPlace) (thenBranch :: elseBranch.toList)
          (thenBranch' :: elseBranch'.toList) :=
        Stmt.forall₂_resembles hbranches hbranches' hitems
      obtain _ | ⟨hthen, helse⟩ := hall
      have hmatches := hcondition condition' hcondition' hcond
      obtain hother | _ := optionRel_of_toList helse
      · exact .ifElse hmatches (hthen place) (hother place)
      · exact .ifThen hmatches (hthen place)
    | _ => exact absurd (Datum.list.inj heq).1 (by decide)
  | whileLoop condition body =>
    cases s' with
    | whileLoop condition' body' =>
      obtain ⟨hcond, hitems⟩ := List.cons.inj (Datum.list.inj heq).2
      obtain ⟨hcondition, hbodies⟩ := List.forall_mem_cons.1 hparts
      obtain ⟨hcondition', hbodies'⟩ := List.forall_mem_cons.1 hparts'
      have hall : List.Forall₂ (Stmt.Resembles anyPlace) [body] [body'] :=
        Stmt.forall₂_resembles hbodies hbodies' hitems
      obtain _ | ⟨hbody, -⟩ := hall
      exact .whileLoop (hcondition condition' hcondition' hcond) (hbody place.loopBody)
    | _ => exact absurd (Datum.list.inj heq).1 (by decide)
  | breakOut keyword =>
    cases s' with
    | breakOut keyword' => exact .breakOut (hworded.resembles hworded' rfl (by decide))
    | _ => exact absurd (Datum.list.inj heq).1 (by decide)
  | funDecl name params body =>
    cases s' with
    | funDecl name' params' body' =>
      obtain ⟨hname, hitems⟩ := List.cons.inj (Datum.list.inj heq).2
      obtain ⟨hparams, hbody⟩ := List.cons.inj hitems
      have hall := Stmt.forall₂_resembles hparts hparts' hbody
      exact .funDecl (hworded.1.spelled.resembles hworded'.1.spelled (Datum.atom.inj hname))
        (parameterDatum_inj hworded.2 hworded'.2 hparams) hall.length_eq
        fun _ _ hs => List.forall₂_zip hall hs .body
    | _ => exact absurd (Datum.list.inj heq).1 (by decide)
  | giveBack keyword value =>
    cases s' with
    | giveBack keyword' value' =>
      have hall := Expr.forall₂_matches hparts hparts' (Datum.list.inj heq).2
      exact .giveBack (hworded.resembles hworded' rfl (by decide)) (optionRel_of_toList hall)
    | _ => exact absurd (Datum.list.inj heq).1 (by decide)

/-- **Trees with legible nodes are shown by their data.** -/
theorem Node.recognised {n : Node} (h : n.All Node.Legible) : n.Recognised := by
  induction n using Node.induction with
  | h n ih =>
    obtain ⟨hlegible, hparts⟩ := Node.all_iff.1 h
    have hshown : ∀ p ∈ n.parts, p.2.Recognised := fun p hp => ih p hp (hparts p hp)
    cases n with
    | expr e => exact Expr.recognised hlegible hshown
    | stmt s => exact Stmt.recognised hlegible hshown

/-! ## Trees that resemble each other have the same data -/

theorem map_eq_of_zip {α β : Type} {f : α → β} {l l' : List α} (hlength : l.length = l'.length)
    (h : ∀ a a', (a, a') ∈ l.zip l' → f a = f a') : l.map f = l'.map f := by
  rw [← List.forall₂_eq_eq_eq, List.forall₂_map_left_iff, List.forall₂_map_right_iff]
  exact List.forall₂_iff_zip.2 ⟨hlength, fun {a a'} hmem => h a a' hmem⟩

section

variable {T : TokenMatch}

theorem TokenMatch.text_eq {role : Role} {t t' : Token} (h : T.Rel role t t') :
    t.lexeme.toList = t'.lexeme.toList :=
  congrArg String.toList (T.lexeme_eq h)

theorem Expr.Matches.datum_eq {e e' : Expr} (h : e.Matches T e') : e.datum = e'.datum := by
  induction h with
  | literal => rfl
  | var hname => exact congrArg Datum.atom (T.text_eq hname)
  | grouping _ ih => exact congrArg (fun d => Datum.list "group".toList [d]) ih
  | unary hop _ ih => exact congrArg₂ (fun text d => Datum.list text [d]) (T.text_eq hop) ih
  | binary _ hop _ ihl ihr =>
    exact congrArg₂ Datum.list (T.text_eq hop) (congrArg₂ (fun d d' => [d, d']) ihl ihr)
  | logical _ hop _ ihl ihr =>
    exact congrArg₂ Datum.list (T.text_eq hop) (congrArg₂ (fun d d' => [d, d']) ihl ihr)
  | assign hname _ ih =>
    exact congrArg₂ (fun text d => Datum.list "=".toList [.atom text, d]) (T.text_eq hname) ih
  | @call _ _ _ _ arguments arguments' _ _ hlength _ ihc ihargs =>
    have harguments : Expr.data arguments = Expr.data arguments' := by
      rw [Expr.data_eq_map, Expr.data_eq_map, map_eq_of_zip hlength ihargs]
    exact congrArg₂ (fun d ds => Datum.list "call".toList (d :: ds)) ihc harguments

theorem Expr.data_toList_eq {e e' : Option Expr} (h : Option.Rel (Expr.Matches T) e e') :
    Expr.data e.toList = Expr.data e'.toList := by
  cases h with
  | none => rfl
  | some h => exact congrArg (fun d => [d]) h.datum_eq

theorem parameterDatum_eq {params params' : List Token}
    (h : List.Forall₂ (T.Rel .parameter) params params') :
    parameterDatum params = parameterDatum params' := by
  cases h with
  | nil => rfl
  | @cons t t' ts ts' ht hts =>
    have hlater : ts.map (fun u => Datum.atom u.lexeme.toList) =
        ts'.map fun u => Datum.atom u.lexeme.toList := by
      rw [← List.forall₂_eq_eq_eq, List.forall₂_map_left_iff, List.forall₂_map_right_iff]
      exact hts.imp fun _ _ hu => congrArg Datum.atom (T.text_eq hu)
    exact congrArg₂ Datum.list (T.text_eq ht) hlater

theorem Stmt.Matches.datum_eq {p : Place} {s s' : Stmt} (h : s.Matches T p s') :
    s.datum = s'.datum := by
  induction h with
  | expression he => exact congrArg (fun d => Datum.list ";".toList [d]) he.datum_eq
  | print he => exact congrArg (fun d => Datum.list "print".toList [d]) he.datum_eq
  | varDecl hname hinit =>
    exact congrArg₂ (fun text ds => Datum.list "var".toList (.atom text :: ds)) (T.text_eq hname)
      (Expr.data_toList_eq hinit)
  | @block _ statements statements' hlength _ ih =>
    have hstatements : Stmt.data statements = Stmt.data statements' := by
      rw [Stmt.data_eq_map, Stmt.data_eq_map, map_eq_of_zip hlength ih]
    exact congrArg (Datum.list "block".toList) hstatements
  | ifThen hcond _ ih =>
    exact congrArg₂ (fun d d' => Datum.list "if".toList [d, d']) hcond.datum_eq ih
  | ifElse hcond _ _ ihthen ihelse =>
    exact congrArg₂ (fun d ds => Datum.list "if".toList (d :: ds)) hcond.datum_eq
      (congrArg₂ (fun d d' => [d, d']) ihthen ihelse)
  | whileLoop hcond _ ih =>
    exact congrArg₂ (fun d d' => Datum.list "while".toList [d, d']) hcond.datum_eq ih
  | breakOut => rfl
  | @funDecl _ _ _ _ _ body body' hname hparams hlength _ ih =>
    have hbody : Stmt.data body = Stmt.data body' := by
      rw [Stmt.data_eq_map, Stmt.data_eq_map, map_eq_of_zip hlength ih]
    exact congrArg₂ (fun text ds => Datum.list "fun".toList (.atom text :: ds)) (T.text_eq hname)
      (congrArg₂ List.cons (parameterDatum_eq hparams) hbody)
  | giveBack _ hvalue =>
    exact congrArg (Datum.list "return".toList) (Expr.data_toList_eq hvalue)

end

/-! ## Programs -/

/-- Statements with legible nodes have the same text just if they resemble each other. -/
theorem Stmt.text_eq_iff {s s' : Stmt} (h : (Node.stmt s).All Node.Legible)
    (h' : (Node.stmt s').All Node.Legible) : s.text = s'.text ↔ s.Resembles anyPlace s' := by
  constructor
  · intro htext
    have hchars : s.datum.charsThen [] = s'.datum.charsThen [] := by
      rw [← s.charsThen_eq, ← s'.charsThen_eq]
      exact String.ofList_inj.1 htext
    have hend : Follows [] := by
      rintro c ⟨⟩
    obtain ⟨hdatum, -⟩ := Datum.charsThen_inj (Node.readable_datum h) (Node.readable_datum h')
      hend hend hchars
    exact Node.recognised h s' h' hdatum
  · intro hresembles
    unfold Stmt.text
    rw [s.charsThen_eq, s'.charsThen_eq, (hresembles .top).datum_eq]

/-- Sources without static faults and infinite numbers have legible trees. -/
theorem legible_of_source {source : String} (hvalid : (Program.ofSource source).errors = [])
    (hfinite : ∀ o ∈ programNodes (Program.ofSource source).statements, o.node.isFinite = true) :
    ∀ s ∈ (Program.ofSource source).statements, (Node.stmt s).All Node.Legible := by
  intro s hs o ho
  exact ⟨worded_of_source hvalid s hs o ho, hfinite o (List.mem_flatMap.2 ⟨s, hs, ho⟩)⟩

/-- **Texts determine trees.** If two sources have no static faults and no infinite numbers in their
trees, then their statements have the same texts, one by one, just if the trees are the same but for
the lines and spans of tokens and literals. -/
theorem texts_determine_trees (source source' : String)
    (hvalid : (Program.ofSource source).errors = [])
    (hvalid' : (Program.ofSource source').errors = [])
    (hfinite : ∀ o ∈ programNodes (Program.ofSource source).statements, o.node.isFinite = true)
    (hfinite' : ∀ o ∈ programNodes (Program.ofSource source').statements, o.node.isFinite = true) :
    List.Forall₂ (fun s s' => s.text = s'.text) (Program.ofSource source).statements
        (Program.ofSource source').statements ↔
      List.Forall₂ (Stmt.Resembles anyPlace) (Program.ofSource source).statements
        (Program.ofSource source').statements := by
  have hlegible := legible_of_source hvalid hfinite
  have hlegible' := legible_of_source hvalid' hfinite'
  rw [List.forall₂_iff_zip, List.forall₂_iff_zip]
  refine and_congr_right fun _ => forall₃_congr fun s s' hmem => ?_
  obtain ⟨hs, hs'⟩ := List.of_mem_zip hmem
  exact Stmt.text_eq_iff (hlegible s hs) (hlegible' s' hs')

/-- A string with parentheses, blanks and a newline in it, both uses of a minus sign, and parts that
may be left out. -/
def spacedScript : String :=
  "print \") (; x\n \"; if (a == 1.50) b = \"\"; else !c;\n" ++
    "fun f(a, b) { for (;;) break; return -a - b(1, nil); }"

/-- The same with other blanks and numerals, a comment, and a `while` loop in place of the `for`. -/
def denseScript : String :=
  "/* dense */print\") (; x\n \";if(a==1.5)b=\"\";else!c;" ++
    "fun f(a,b){ while (true) break; return-a-b(1.0,nil); }"

/-- The texts of both. -/
def scriptTexts : List String :=
  ["(print \") (; x\n \")", "(if (== a 1.5) (; (= b \"\")) (; (! c)))",
    "(fun f (a b) (while true (break)) (return (- (- a) (call b 1 nil))))"]

/-- The trees of both scripts have the same texts, so they differ in lines and spans only. -/
theorem texts_determine_trees_spacedScript :
    (Program.ofSource spacedScript).statements.map Stmt.text = scriptTexts ∧
    (Program.ofSource denseScript).statements.map Stmt.text = scriptTexts ∧
    List.Forall₂ (Stmt.Resembles anyPlace) (Program.ofSource spacedScript).statements
      (Program.ofSource denseScript).statements := by
  obtain ⟨hvalid, htexts, hfinite⟩ : (Program.ofSource spacedScript).errors.isEmpty ∧
      (Program.ofSource spacedScript).statements.map Stmt.text = scriptTexts ∧
      ∀ o ∈ programNodes (Program.ofSource spacedScript).statements, o.node.isFinite = true := by
    decide +kernel
  obtain ⟨hvalid', htexts', hfinite'⟩ : (Program.ofSource denseScript).errors.isEmpty ∧
      (Program.ofSource denseScript).statements.map Stmt.text = scriptTexts ∧
      ∀ o ∈ programNodes (Program.ofSource denseScript).statements, o.node.isFinite = true := by
    decide +kernel
  refine ⟨htexts, htexts', ?_⟩
  refine (texts_determine_trees _ _ (List.isEmpty_iff.1 hvalid) (List.isEmpty_iff.1 hvalid')
    hfinite hfinite').1 ?_
  exact forall₂_of_map_eq (fun _ _ _ _ heq => heq) (fun _ _ => trivial) (htexts.trans htexts'.symm)

end GradedScript
