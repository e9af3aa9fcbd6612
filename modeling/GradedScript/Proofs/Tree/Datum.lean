import GradedScript.Tree.Printer
import Mathlib.Data.List.Basic

/-!
# Parenthesised texts

The text of a tree is built from words, quotations and parentheses. A `Datum` is what such a text
shows: a word or a quotation, or parentheses around a head and items. Every tree has one, and its
text is that of the datum (`Expr.charsThen_eq`, `Stmt.charsThen_eq`).

Such texts are uniquely readable (`Datum.charsThen_inj`). Nothing in a word ends a word, nothing in
a quotation ends a quotation, and what comes after an item, a blank or a closing parenthesis, tells
whether another one follows.
-/

namespace GradedScript

/-- What a parenthesised text shows. A head may be empty. -/
inductive Datum where
  | atom (text : List Char)
  | list (head : List Char) (items : List Datum)

mutual

/-- Writes a datum in front of `rest`. -/
def Datum.charsThen : Datum → List Char → List Char
  | .atom text, rest => text ++ rest
  | .list head items, rest => '(' :: (head ++ Datum.eachThen items (')' :: rest))

/-- Writes data in front of `rest`, a blank before each. -/
def Datum.eachThen : List Datum → List Char → List Char
  | [], rest => rest
  | d :: ds, rest => ' ' :: d.charsThen (Datum.eachThen ds rest)

end

/-! ## Unique readability -/

/-- The characters that end a word or begin something else. -/
def delimiters : List Char :=
  [' ', ')', '(', '"']

/-- Words have no delimiters in them. -/
def IsWord (text : List Char) : Prop :=
  ∀ c ∈ text, c ∉ delimiters

/-- A word that stands before `rest` ends there. -/
def Follows (rest : List Char) : Prop :=
  ∀ c ∈ rest.head?, c ∈ [' ', ')']

/-- Data that can be read back: atoms are words, not empty ones, or quotations. -/
inductive Datum.Readable : Datum → Prop
  | word {text} (hne : text ≠ []) (hword : IsWord text) : Readable (.atom text)
  | quotation {body} (hbody : '"' ∉ body) : Readable (.atom ('"' :: (body ++ ['"'])))
  | list {head items} (hhead : IsWord head) (hitems : ∀ d ∈ items, Readable d) :
      Readable (.list head items)

/-- What comes before the first of some characters is determined by the whole. -/
theorem append_inj_of_stops {stops us vs rest rest' : List Char} (hus : ∀ c ∈ us, c ∉ stops)
    (hvs : ∀ c ∈ vs, c ∉ stops) (hrest : ∀ c ∈ rest.head?, c ∈ stops)
    (hrest' : ∀ c ∈ rest'.head?, c ∈ stops) (heq : us ++ rest = vs ++ rest') :
    us = vs ∧ rest = rest' := by
  induction us generalizing vs with
  | nil =>
    cases vs with
    | nil => exact ⟨rfl, heq⟩
    | cons v vs =>
      obtain rfl : rest = v :: (vs ++ rest') := heq
      exact absurd (hrest v rfl) (hvs v List.mem_cons_self)
  | cons u us ih =>
    cases vs with
    | nil =>
      obtain rfl : u :: (us ++ rest) = rest' := heq
      exact absurd (hrest' u rfl) (hus u List.mem_cons_self)
    | cons v vs =>
      obtain ⟨rfl, hafter⟩ := List.cons.inj heq
      obtain ⟨rfl, hrests⟩ :=
        ih (List.forall_mem_cons.1 hus).2 (List.forall_mem_cons.1 hvs).2 hafter
      exact ⟨rfl, hrests⟩

section

variable {rest rest' : List Char}

theorem IsWord.append_inj {us vs : List Char} (hus : IsWord us) (hvs : IsWord vs)
    (hrest : Follows rest) (hrest' : Follows rest') (heq : us ++ rest = vs ++ rest') :
    us = vs ∧ rest = rest' := by
  have hstops : ∀ c : Char, c ∉ delimiters → c ∉ [' ', ')'] :=
    fun _ hc => mt (List.mem_append_left ['(', '"']) hc
  exact append_inj_of_stops (fun c hc => hstops c (hus c hc)) (fun c hc => hstops c (hvs c hc))
    hrest hrest' heq

/-- A quotation ends at the next quote, whatever follows. -/
theorem quotation_inj {body body' : List Char} (hbody : '"' ∉ body) (hbody' : '"' ∉ body')
    (heq : body ++ '"' :: rest = body' ++ '"' :: rest') : body = body' ∧ rest = rest' := by
  have hstop : ∀ {text : List Char}, '"' ∉ text → ∀ c ∈ text, c ∉ ['"'] := by
    rintro text htext c hc hquote
    exact htext (List.mem_singleton.1 hquote ▸ hc)
  have hquote : ∀ (after : List Char), ∀ c ∈ ('"' :: after).head?, c ∈ ['"'] := by
    rintro after c ⟨⟩
    exact List.mem_singleton.2 rfl
  obtain ⟨hbodies, hrests⟩ :=
    append_inj_of_stops (hstop hbody) (hstop hbody') (hquote rest) (hquote rest') heq
  exact ⟨hbodies, (List.cons.inj hrests).2⟩

/-- What comes after a datum in a list. -/
theorem follows_eachThen (ds : List Datum) (rest : List Char) :
    Follows (Datum.eachThen ds (')' :: rest)) := by
  cases ds with
  | nil =>
    rintro c ⟨⟩
    exact List.mem_cons_of_mem _ List.mem_cons_self
  | cons d ds =>
    rintro c ⟨⟩
    exact List.mem_cons_self

/-- A word that is not empty does not begin with a delimiter. -/
theorem IsWord.ne_cons_append {text after : List Char} (hne : text ≠ []) (hword : IsWord text)
    {c : Char} (hc : c ∈ delimiters) : c :: after ≠ text ++ rest := by
  obtain ⟨d, ds, rfl⟩ := List.exists_cons_of_ne_nil hne
  intro heq
  exact hword d List.mem_cons_self ((List.cons.inj heq).1 ▸ hc)

/-- Items are told apart one by one if each can be. -/
theorem Datum.eachThen_inj {ds ds' : List Datum}
    (hds : ∀ d ∈ ds, ∀ d', d'.Readable → ∀ rest rest', Follows rest → Follows rest' →
      d.charsThen rest = d'.charsThen rest' → d = d' ∧ rest = rest')
    (hds' : ∀ d' ∈ ds', d'.Readable)
    (heq : eachThen ds (')' :: rest) = eachThen ds' (')' :: rest')) : ds = ds' ∧ rest = rest' := by
  induction ds generalizing ds' with
  | nil =>
    cases ds' with
    | nil => exact ⟨rfl, (List.cons.inj heq).2⟩
    | cons d' ds' => exact absurd (List.cons.inj heq).1 (by decide)
  | cons d ds ih =>
    cases ds' with
    | nil => exact absurd (List.cons.inj heq).1 (by decide)
    | cons d' ds' =>
      obtain ⟨hfirst, hlater⟩ := List.forall_mem_cons.1 hds
      obtain ⟨hfirst', hlater'⟩ := List.forall_mem_cons.1 hds'
      obtain ⟨rfl, hafter⟩ := hfirst d' hfirst' _ _ (follows_eachThen ds rest)
        (follows_eachThen ds' rest') (List.cons.inj heq).2
      obtain ⟨rfl, hrests⟩ := ih hlater hlater' hafter
      exact ⟨rfl, hrests⟩

/-- **Unique readability.** If two texts agree and each begins with a datum that ends where the
other text goes on, they begin with the same datum. -/
theorem Datum.charsThen_inj {d d' : Datum} (h : d.Readable) (h' : d'.Readable)
    (hrest : Follows rest) (hrest' : Follows rest')
    (heq : d.charsThen rest = d'.charsThen rest') : d = d' ∧ rest = rest' := by
  induction h generalizing d' rest rest' with
  | word hne hword =>
    cases h' with
    | word hne' hword' =>
      obtain ⟨rfl, hrests⟩ := hword.append_inj hword' hrest hrest' heq
      exact ⟨rfl, hrests⟩
    | quotation => exact absurd heq.symm (hword.ne_cons_append hne (by decide))
    | list => exact absurd heq.symm (hword.ne_cons_append hne (by decide))
  | quotation hbody =>
    cases h' with
    | word hne' hword' => exact absurd heq (hword'.ne_cons_append hne' (by decide))
    | quotation hbody' =>
      rw [charsThen, charsThen, List.cons_append, List.cons_append, List.append_assoc,
        List.append_assoc] at heq
      obtain ⟨rfl, hrests⟩ := quotation_inj hbody hbody' (List.cons.inj heq).2
      exact ⟨rfl, hrests⟩
    | list => exact absurd (List.cons.inj heq).1 (by decide)
  | list hhead _ ih =>
    cases h' with
    | word hne' hword' => exact absurd heq (hword'.ne_cons_append hne' (by decide))
    | quotation => exact absurd (List.cons.inj heq).1 (by decide)
    | list hhead' hitems' =>
      obtain ⟨rfl, hafter⟩ := hhead.append_inj hhead' (follows_eachThen _ _) (follows_eachThen _ _)
        (List.cons.inj heq).2
      obtain ⟨rfl, hrests⟩ := eachThen_inj
        (fun d hd d' hd' rest rest' hrest hrest' => ih d hd hd' hrest hrest') hitems' hafter
      exact ⟨rfl, hrests⟩

end

/-! ## The data of trees -/

mutual

/-- What the text of an expression shows. -/
def Expr.datum : Expr → Datum
  | .literal value _ => .atom value.quoted
  | .grouping inner => .list "group".toList [inner.datum]
  | .unary operator right => .list operator.lexeme.toList [right.datum]
  | .binary left operator right => .list operator.lexeme.toList [left.datum, right.datum]
  | .logical left operator right => .list operator.lexeme.toList [left.datum, right.datum]
  | .var name => .atom name.lexeme.toList
  | .assign name value => .list "=".toList [.atom name.lexeme.toList, value.datum]
  | .call callee _ arguments => .list "call".toList (callee.datum :: Expr.data arguments)

/-- What the texts of expressions show. -/
def Expr.data : List Expr → List Datum
  | [] => []
  | e :: es => e.datum :: Expr.data es

end

/-- What the names of parameters show between their parentheses: the first one is the head. -/
def parameterDatum : List Token → Datum
  | [] => .list [] []
  | t :: ts => .list t.lexeme.toList (ts.map fun t => .atom t.lexeme.toList)

mutual

/-- What the text of a statement shows. -/
def Stmt.datum : Stmt → Datum
  | .expression e => .list ";".toList [e.datum]
  | .print e => .list "print".toList [e.datum]
  | .varDecl name initializer =>
    .list "var".toList (.atom name.lexeme.toList :: Expr.data initializer.toList)
  | .block statements => .list "block".toList (Stmt.data statements)
  | .ifElse condition thenBranch elseBranch =>
    .list "if".toList (condition.datum :: thenBranch.datum :: Stmt.optionData elseBranch)
  | .whileLoop condition body => .list "while".toList [condition.datum, body.datum]
  | .breakOut _ => .list "break".toList []
  | .funDecl name params body =>
    .list "fun".toList (.atom name.lexeme.toList :: parameterDatum params :: Stmt.data body)
  | .giveBack _ value => .list "return".toList (Expr.data value.toList)

/-- What the texts of statements show. -/
def Stmt.data : List Stmt → List Datum
  | [] => []
  | s :: ss => s.datum :: Stmt.data ss

/-- What the text of a statement shows, if there is one. -/
def Stmt.optionData : Option Stmt → List Datum
  | none => []
  | some s => [s.datum]

end

theorem Expr.data_eq_map (es : List Expr) : Expr.data es = es.map Expr.datum := by
  induction es with
  | nil => rfl
  | cons e es ih => rw [Expr.data, ih, List.map_cons]

theorem Stmt.data_eq_map (ss : List Stmt) : Stmt.data ss = ss.map Stmt.datum := by
  induction ss with
  | nil => rfl
  | cons s ss ih => rw [Stmt.data, ih, List.map_cons]

theorem Stmt.optionData_eq_map (s : Option Stmt) :
    Stmt.optionData s = s.toList.map Stmt.datum := by
  cases s <;> rfl

/-! ## Trees are written like their data -/

-- both sides of a rule compute, so each is shown up to the parts that are written by rules again
mutual

theorem Expr.charsThen_eq :
    (e : Expr) → (rest : List Char) → e.charsThen rest = e.datum.charsThen rest
  | .literal .., _ => rfl
  | .var _, _ => rfl
  | .grouping inner, rest => congrArg ("(group ".toList ++ ·) (inner.charsThen_eq (')' :: rest))
  | .unary operator right, rest =>
    congrArg (fun chars => '(' :: (operator.lexeme.toList ++ ' ' :: chars))
      (right.charsThen_eq (')' :: rest))
  | .binary left operator right, rest => by
    show '(' :: (operator.lexeme.toList ++
      ' ' :: left.charsThen (' ' :: right.charsThen (')' :: rest))) = _
    rw [left.charsThen_eq, right.charsThen_eq]
    rfl
  | .logical left operator right, rest => by
    show '(' :: (operator.lexeme.toList ++
      ' ' :: left.charsThen (' ' :: right.charsThen (')' :: rest))) = _
    rw [left.charsThen_eq, right.charsThen_eq]
    rfl
  | .assign name value, rest =>
    congrArg (fun chars => "(= ".toList ++ (name.lexeme.toList ++ ' ' :: chars))
      (value.charsThen_eq (')' :: rest))
  | .call callee _ arguments, rest => by
    show "(call ".toList ++ callee.charsThen (Expr.eachThen arguments (')' :: rest)) = _
    rw [callee.charsThen_eq, Expr.eachThen_eq arguments]
    rfl

theorem Expr.eachThen_eq : (es : List Expr) → (rest : List Char) →
    Expr.eachThen es rest = Datum.eachThen (Expr.data es) rest
  | [], _ => rfl
  | e :: es, rest => by
    show ' ' :: e.charsThen (Expr.eachThen es rest) = _
    rw [e.charsThen_eq, Expr.eachThen_eq es]
    rfl

end

theorem Expr.optionThen_eq (e : Option Expr) (rest : List Char) :
    Expr.optionThen e rest = Datum.eachThen (Expr.data e.toList) rest := by
  cases e with
  | none => rfl
  | some e => exact congrArg (' ' :: ·) (e.charsThen_eq rest)

theorem lexemesThen_cons (t : Token) (ts : List Token) (rest : List Char) :
    lexemesThen (t :: ts) rest =
      t.lexeme.toList ++ Datum.eachThen (ts.map fun t => .atom t.lexeme.toList) rest := by
  induction ts generalizing t with
  | nil => rfl
  | cons u us ih => exact congrArg (t.lexeme.toList ++ ' ' :: ·) (ih u)

/-- Parameters between their parentheses. -/
theorem lexemesThen_eq (params : List Token) (rest : List Char) :
    '(' :: lexemesThen params (')' :: rest) = (parameterDatum params).charsThen rest := by
  cases params with
  | nil => rfl
  | cons t ts => exact congrArg ('(' :: ·) (lexemesThen_cons t ts (')' :: rest))

mutual

theorem Stmt.charsThen_eq :
    (s : Stmt) → (rest : List Char) → s.charsThen rest = s.datum.charsThen rest
  | .expression e, rest => congrArg ("(; ".toList ++ ·) (e.charsThen_eq (')' :: rest))
  | .print e, rest => congrArg ("(print ".toList ++ ·) (e.charsThen_eq (')' :: rest))
  | .varDecl name initializer, rest =>
    congrArg (fun chars => "(var ".toList ++ (name.lexeme.toList ++ chars))
      (Expr.optionThen_eq initializer (')' :: rest))
  | .block statements, rest =>
    congrArg ("(block".toList ++ ·) (Stmt.eachThen_eq statements (')' :: rest))
  | .ifElse condition thenBranch elseBranch, rest => by
    show "(if ".toList ++ condition.charsThen
      (' ' :: thenBranch.charsThen (Stmt.optionThen elseBranch (')' :: rest))) = _
    rw [condition.charsThen_eq, thenBranch.charsThen_eq, Stmt.optionThen_eq elseBranch]
    rfl
  | .whileLoop condition body, rest => by
    show "(while ".toList ++ condition.charsThen (' ' :: body.charsThen (')' :: rest)) = _
    rw [condition.charsThen_eq, body.charsThen_eq]
    rfl
  | .breakOut _, _ => rfl
  | .funDecl name params body, rest => by
    show "(fun ".toList ++ (name.lexeme.toList ++ " (".toList ++
      lexemesThen params (')' :: Stmt.eachThen body (')' :: rest))) = _
    rw [Stmt.eachThen_eq body, List.append_assoc]
    exact congrArg (fun chars => "(fun ".toList ++ (name.lexeme.toList ++ ' ' :: chars))
      (lexemesThen_eq params _)
  | .giveBack _ value, rest =>
    congrArg ("(return".toList ++ ·) (Expr.optionThen_eq value (')' :: rest))

theorem Stmt.eachThen_eq : (ss : List Stmt) → (rest : List Char) →
    Stmt.eachThen ss rest = Datum.eachThen (Stmt.data ss) rest
  | [], _ => rfl
  | s :: ss, rest => by
    show ' ' :: s.charsThen (Stmt.eachThen ss rest) = _
    rw [s.charsThen_eq, Stmt.eachThen_eq ss]
    rfl

theorem Stmt.optionThen_eq : (s : Option Stmt) → (rest : List Char) →
    Stmt.optionThen s rest = Datum.eachThen (Stmt.optionData s) rest
  | none, _ => rfl
  | some s, rest => congrArg (' ' :: ·) (s.charsThen_eq rest)

end

end GradedScript
