import GradedScript.Proofs.Parser.Likeness
import GradedScript.Proofs.Parser.Wording
import GradedScript.Proofs.Scan.NumberTexts
import GradedScript.Proofs.Tree.Datum
import Mathlib

/-!
# Legible trees

What makes the text of a tree readable. Every token but a parenthesis is an atom, and a literal is
written as a token that has it as its value, as long as it is no infinite number
(`Literal.Written.lexeme`). So the texts of tokens and literals show what they are, and the datum of
a tree whose nodes are legible can be read back (`Node.readable_datum`).
-/

namespace GradedScript

/-! ## Lexemes -/

/-- The tokens that are spelled in one way only. -/
def spellings : List (List Char × Kind) :=
  singles.map (fun s => ([s.1], s.2)) ++ doubles.map (fun d => ([d.1, '='], d.2)) ++
    keywords.map fun k => (k.1.toList, k.2)

section

variable {text text' : List Char} {kind : Kind} {literal literal' : Option Literal}

theorem Lexeme.mem_spellings (h : Lexeme text kind literal)
    (hkind : kind ∉ [Kind.identifier, .number, .string]) : (text, kind) ∈ spellings := by
  unfold spellings
  cases h with
  | single hc =>
    exact List.mem_append_left _ (List.mem_append_left _ (List.mem_map.2 ⟨_, hc, rfl⟩))
  | double hc =>
    exact List.mem_append_left _ (List.mem_append_right _ (List.mem_map.2 ⟨_, hc, rfl⟩))
  | keyword _ _ hword =>
    refine List.mem_append_right _ (List.mem_map.2 ⟨_, hword, ?_⟩)
    rw [String.toList_ofList]
  | name => exact absurd (by decide) hkind
  | whole => exact absurd (by decide) hkind
  | fraction => exact absurd (by decide) hkind
  | string => exact absurd (by decide) hkind

/-- The kind of a token shows its text, unless it is a name, a number or a string. -/
theorem Lexeme.text_eq (h : Lexeme text kind literal) (h' : Lexeme text' kind literal')
    (hkind : kind ∉ [Kind.identifier, .number, .string]) : text = text' := by
  have htable : ∀ a ∈ spellings, ∀ b ∈ spellings, a.2 = b.2 → a.1 = b.1 := by decide +kernel
  exact htable _ (h.mem_spellings hkind) _ (h'.mem_spellings hkind) rfl

theorem word_lexeme (word : String)
    (h : word.toList.head?.any isWordStart = true ∧ word.toList.all isWordChar = true) :
    Lexeme word.toList (Kind.ofWord word) none := by
  have hword : String.ofList word.toList = word := String.ofList_toList
  generalize word.toList = chars at h hword ⊢
  subst hword
  cases chars with
  | nil => exact absurd h.1 (by decide)
  | cons c cs => exact .of_word h.1 (List.forall_mem_cons.1 (List.all_eq_true.1 h.2)).2

theorem not_mem_delimiters {c : Char} (h : isWordChar c = true) : c ∉ delimiters := by
  intro hc
  simp only [delimiters, List.mem_cons, List.not_mem_nil, or_false] at hc
  rcases hc with rfl | rfl | rfl | rfl <;> exact absurd h (by decide)

/-- Tokens are words, but for parentheses and strings. -/
theorem Lexeme.isWord (h : Lexeme text kind literal)
    (hkind : kind ∉ [Kind.leftParen, .rightParen, .string]) : IsWord text := by
  have hstart {c : Char} (hc : isWordStart c = true) : isWordChar c = true := by
    simp only [isWordStart, isWordChar, Char.isAlphanum, Bool.or_eq_true] at hc ⊢
    exact hc.imp_left .inl
  have hdigit {c : Char} (hc : c.isDigit = true) : isWordChar c = true := by
    simp [isWordChar, Char.isAlphanum, hc]
  cases h with
  | single hc =>
    have htable : ∀ s ∈ singles, s.2 ∉ [Kind.leftParen, .rightParen, .string] →
        s.1 ∉ delimiters := by decide
    exact List.forall_mem_singleton.2 (htable _ hc hkind)
  | double hc =>
    have htable : ∀ d ∈ doubles, d.1 ∉ delimiters := by decide
    exact List.forall_mem_cons.2 ⟨htable _ hc, List.forall_mem_singleton.2 (by decide)⟩
  | keyword hc hcs | name hc hcs =>
    exact List.forall_mem_cons.2
      ⟨not_mem_delimiters (hstart hc), fun d hd => not_mem_delimiters (hcs d hd)⟩
  | whole hc hcs =>
    exact List.forall_mem_cons.2
      ⟨not_mem_delimiters (hdigit hc), fun d hd => not_mem_delimiters (hdigit (hcs d hd))⟩
  | fraction hc hcs hd hds =>
    refine List.forall_mem_cons.2
      ⟨not_mem_delimiters (hdigit hc), List.forall_mem_append.2 ⟨?_, ?_⟩⟩
    · exact fun d hd => not_mem_delimiters (hdigit (hcs d hd))
    · refine List.forall_mem_cons.2 ⟨by decide, List.forall_mem_cons.2 ⟨?_, ?_⟩⟩
      · exact not_mem_delimiters (hdigit hd)
      · exact fun d hd => not_mem_delimiters (hdigit (hds d hd))
  | string => exact absurd (by decide) hkind

/-- A token can be read back as an atom, unless it is a parenthesis. -/
theorem Lexeme.readable (h : Lexeme text kind literal)
    (hkind : kind ∉ [Kind.leftParen, .rightParen]) : (Datum.atom text).Readable := by
  by_cases hstring : kind = .string
  · subst hstring
    cases h with
    | single hc => exact absurd hc (by simp [singles])
    | double hc => exact absurd hc (by simp [doubles])
    | keyword _ _ hword => exact absurd hword (by simp [keywords])
    | string hbody => exact .quotation hbody
  · refine .word h.ne_nil (h.isWord ?_)
    simp only [List.mem_cons, not_or] at hkind ⊢
    exact ⟨hkind.1, hkind.2.1, hstring, List.not_mem_nil⟩

end

/-! ## Literals -/

/-- The kind of the token that a literal is written as. -/
def Literal.kind : Literal → Kind
  | .number _ => .number
  | .string _ => .string
  | .bool true => .kwTrue
  | .bool false => .kwFalse
  | .nil => .kwNil

theorem Literal.kind_mem (v : Literal) :
    v.kind ∈ [Kind.number, .string, .kwTrue, .kwFalse, .kwNil] := by
  cases v with
  | bool b => cases b <;> decide
  | _ => simp [Literal.kind]

/-- The value that the token carries. -/
def Literal.carried : Literal → Option Literal
  | .number x => some (.number x)
  | .string s => some (.string s)
  | .bool _ => none
  | .nil => none

/-- The literal that a token of a kind and with a value stands for. -/
def Literal.ofToken : Kind → Option Literal → Literal
  | _, some v => v
  | .kwTrue, none => .bool true
  | .kwFalse, none => .bool false
  | _, none => .nil

theorem Literal.ofToken_kind_carried (v : Literal) : ofToken v.kind v.carried = v := by
  cases v with
  | bool b => cases b <;> rfl
  | _ => rfl

/-- Whether a literal is no number or a finite one. -/
def Literal.isFinite : Literal → Bool
  | .number x => x.isFinite
  | _ => true

section

variable {v v' : Literal}

/-- **In its tree a literal is written as a token that has it as its value.** -/
theorem Literal.Written.lexeme (h : v.Written) (hfinite : v.isFinite = true) :
    Lexeme v.quoted v.kind v.carried := by
  cases h with
  | number d =>
    obtain ⟨digits, d', htext, hnumeral, hvalue⟩ := text_number hfinite
    rw [signBit_nearest] at htext hvalue
    have hlexeme := hnumeral.lexeme
    rw [hvalue] at hlexeme
    show Lexeme (Literal.number d.nearest).text.toList _ _
    rw [htext]
    exact hlexeme
  | @string s hs =>
    have hlexeme := Lexeme.string hs
    rwa [String.ofList_toList] at hlexeme
  | bool b =>
    cases b with
    | true => exact word_lexeme "true" (by decide)
    | false => exact word_lexeme "false" (by decide)
  | nil => exact word_lexeme "nil" (by decide)

/-- Literals that are written alike are equal. -/
theorem Literal.Written.quoted_inj (h : v.Written) (hfinite : v.isFinite = true) (h' : v'.Written)
    (hfinite' : v'.isFinite = true) (heq : v.quoted = v'.quoted) : v = v' := by
  have hlexeme' := h'.lexeme hfinite'
  rw [← heq] at hlexeme'
  obtain ⟨hkind, hcarried⟩ := (h.lexeme hfinite).unique hlexeme'
  rw [← ofToken_kind_carried v, hkind, hcarried, ofToken_kind_carried]

end

/-! ## Tokens -/

section

variable {t t' : Token} {role : Role}

/-- The text of a token shows its kind and value. -/
theorem Token.Spelled.resembles (h : t.Spelled) (h' : t'.Spelled)
    (heq : t.lexeme.toList = t'.lexeme.toList) : t.Resembles anyPlace t' := by
  unfold Token.Spelled at h'
  rw [← heq] at h'
  obtain ⟨hkind, hliteral⟩ := Lexeme.unique h h'
  exact ⟨hkind, String.toList_inj.1 heq, hliteral, trivial⟩

/-- Tokens that are not shown look the same if their role admits one kind and spelling only. -/
theorem Token.Plays.resembles (h : t.Plays role) (h' : t'.Plays role) {kind : Kind}
    (hrole : role.kinds = [kind]) (hkind : kind ∉ [Kind.identifier, .number, .string]) :
    t.Resembles anyPlace t' := by
  have hmem := h.kind
  have hmem' := h'.kind
  rw [hrole, List.mem_singleton] at hmem hmem'
  refine h.spelled.resembles h'.spelled ?_
  have hlexeme : Lexeme _ _ _ := h.spelled
  have hlexeme' : Lexeme _ _ _ := h'.spelled
  rw [hmem] at hlexeme
  rw [hmem'] at hlexeme'
  exact hlexeme.text_eq hlexeme' hkind

end

/-! ## Nodes -/

/-- Whether a node is no number or a finite one. -/
def Node.isFinite : Node → Bool
  | .expr (.literal value _) => value.isFinite
  | _ => true

/-- A node that its text shows as what it is. -/
structure Node.Legible (n : Node) : Prop where
  worded : n.Worded
  finite : n.isFinite = true

/-- What the text of a node shows. -/
def Node.datum : Node → Datum
  | .expr e => e.datum
  | .stmt s => s.datum

theorem isWord_of_all {text : List Char} (h : text.all (fun c => !delimiters.contains c) = true) :
    IsWord text := by
  intro c hc hmem
  have hnot := List.all_eq_true.1 h c hc
  rw [List.contains_iff_mem.2 hmem] at hnot
  cases hnot

/-- The data of the parts of a node are among its items. -/
theorem Expr.data_eq_parts (branch : Branch) (es : List Expr) :
    Expr.data es = (es.map fun e => (branch, Node.expr e)).map fun p => p.2.datum := by
  rw [Expr.data_eq_map, List.map_map]
  rfl

theorem Stmt.data_eq_parts (branch : Branch) (ss : List Stmt) :
    Stmt.data ss = (ss.map fun s => (branch, Node.stmt s)).map fun p => p.2.datum := by
  rw [Stmt.data_eq_map, List.map_map]
  rfl

/-- A name is readable. -/
theorem Token.Plays.readable {t : Token} {role : Role} (h : t.Plays role)
    (hrole : role.kinds = [.identifier]) : (Datum.atom t.lexeme.toList).Readable := by
  have hkind := h.kind
  rw [hrole, List.mem_singleton] at hkind
  refine Lexeme.readable h.spelled ?_
  rw [hkind]
  decide

/-- An expression is readable if its parts are. -/
theorem Expr.readable_datum {e : Expr} (h : (Node.expr e).Legible)
    (hparts : ∀ p ∈ (Node.expr e).parts, p.2.datum.Readable) : e.datum.Readable := by
  obtain ⟨hworded, hfinite⟩ := h
  have hitems := List.forall_mem_map.2 hparts
  have hoperator {t : Token} {role : Role} (ht : t.Plays role)
      (hrole : ∀ kind ∈ role.kinds, kind ∉ [Kind.leftParen, .rightParen, .string]) :
      IsWord t.lexeme.toList :=
    Lexeme.isWord ht.spelled (hrole _ ht.kind)
  cases e with
  | literal value line =>
    have htable : ∀ kind ∈ [Kind.number, .string, .kwTrue, .kwFalse, .kwNil],
        kind ∉ [Kind.leftParen, .rightParen] := by decide
    exact (Literal.Written.lexeme hworded hfinite).readable (htable _ value.kind_mem)
  | var name => exact hworded.readable rfl
  | grouping inner => exact .list (isWord_of_all (by decide)) hitems
  | unary operator right => exact .list (hoperator hworded (by decide)) hitems
  | binary left operator right => exact .list (hoperator hworded (by decide)) hitems
  | logical left operator right => exact .list (hoperator hworded (by decide)) hitems
  | assign name value =>
    exact .list (isWord_of_all (by decide)) (List.forall_mem_cons.2 ⟨hworded.readable rfl, hitems⟩)
  | call callee paren arguments =>
    refine .list (isWord_of_all (by decide)) ?_
    rw [Expr.data_eq_parts .part]
    exact hitems

theorem readable_parameterDatum {params : List Token} (h : ∀ t ∈ params, t.Plays .parameter) :
    (parameterDatum params).Readable := by
  cases params with
  | nil => exact .list (List.forall_mem_nil _) (List.forall_mem_nil _)
  | cons t ts =>
    obtain ⟨ht, hts⟩ := List.forall_mem_cons.1 h
    have hkind : t.kind = .identifier := List.mem_singleton.1 ht.kind
    refine .list (Lexeme.isWord ht.spelled (by rw [hkind]; decide)) ?_
    exact List.forall_mem_map.2 fun t ht => (hts t ht).readable rfl

/-- A statement is readable if its parts are. -/
theorem Stmt.readable_datum {s : Stmt} (h : (Node.stmt s).Legible)
    (hparts : ∀ p ∈ (Node.stmt s).parts, p.2.datum.Readable) : s.datum.Readable := by
  have hworded := h.worded
  have hitems := List.forall_mem_map.2 hparts
  cases s with
  | expression e => exact .list (isWord_of_all (by decide)) hitems
  | print e => exact .list (isWord_of_all (by decide)) hitems
  | whileLoop condition body => exact .list (isWord_of_all (by decide)) hitems
  | breakOut keyword => exact .list (isWord_of_all (by decide)) hitems
  | varDecl name initializer =>
    refine .list (isWord_of_all (by decide)) (List.forall_mem_cons.2 ⟨hworded.readable rfl, ?_⟩)
    rw [Expr.data_eq_parts .initializer]
    exact hitems
  | block statements =>
    refine .list (isWord_of_all (by decide)) ?_
    rw [Stmt.data_eq_parts .part]
    exact hitems
  | ifElse condition thenBranch elseBranch =>
    refine .list (isWord_of_all (by decide)) ?_
    rw [Stmt.optionData_eq_map, ← Stmt.data_eq_map, Stmt.data_eq_parts .part]
    exact hitems
  | funDecl name params body =>
    refine .list (isWord_of_all (by decide)) (List.forall_mem_cons.2 ⟨hworded.1.readable rfl, ?_⟩)
    rw [Stmt.data_eq_parts .body]
    exact List.forall_mem_cons.2 ⟨readable_parameterDatum hworded.2, hitems⟩
  | giveBack keyword value =>
    refine .list (isWord_of_all (by decide)) ?_
    rw [Expr.data_eq_parts .part]
    exact hitems

/-- **Trees with legible nodes are readable.** -/
theorem Node.readable_datum {n : Node} (h : n.All Node.Legible) : n.datum.Readable := by
  induction n using Node.induction with
  | h n ih =>
    obtain ⟨hlegible, hparts⟩ := Node.all_iff.1 h
    have hread : ∀ p ∈ n.parts, p.2.datum.Readable := fun p hp => ih p hp (hparts p hp)
    cases n with
    | expr e => exact Expr.readable_datum hlegible hread
    | stmt s => exact Stmt.readable_datum hlegible hread

end GradedScript
