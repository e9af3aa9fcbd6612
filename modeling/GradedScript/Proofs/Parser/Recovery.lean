import GradedScript.Proofs.Parser.Exactness
import GradedScript.Proofs.Parser.Progress
import Mathlib.Order.Bounds.Defs

/-!
# Recovery of the parser

A parser reads a row of tokens that ends in its only end token (`Row`), and stands at a place of the
row (`State.At`). From every place but the last a declaration gets on, whether it can be read or not;
one that cannot be read is left at the first boundary behind the token it failed at (`Resumes`). So
every token list is parsed to its end, and no budget decides where (`parse_recovers`).
-/

namespace GradedScript

namespace Parser

/-! ## Rows and places -/

/-- Tokens of which the last one is the only end token. -/
structure Row where
  before : List Token
  stop : Token
  before_ne : ∀ t ∈ before, t.kind ≠ .eof
  stop_eof : stop.kind = .eof

namespace Row

/-- The tokens of a row. -/
def tokens (row : Row) : List Token :=
  row.before ++ [row.stop]

/-- A row holds what a token list has up to its first end token; where it has none, one is supplied
on the line of the last token. -/
def Heads (row : Row) (tokens : List Token) : Prop :=
  row.tokens <+: tokens ∨ tokens = row.before ∧ row.stop = impliedEnd tokens

/-- Place `q` is one where parsing goes on: the end, behind a semicolon, or before a keyword that
begins a declaration or statement. -/
def Boundary (row : Row) (q : Nat) : Prop :=
  ∃ t, row.tokens[q]? = some t ∧
    (t.kind = .eof ∨ (∃ u, row.tokens[q - 1]? = some u ∧ u.kind = .semicolon) ∨
      t.kind ∈ [.kwClass, .kwFun, .kwVar, .kwFor, .kwIf, .kwWhile, .kwPrint, .kwReturn])

/-- Parsing goes on at place `q` after it failed at place `p`. -/
def Resumes (row : Row) (p q : Nat) : Prop :=
  ∃ t, row.tokens[p]? = some t ∧
    (t.kind = .eof ∧ q = p ∨ t.kind ≠ .eof ∧ IsLeast { q | p < q ∧ row.Boundary q } q)

theorem getElem?_lt {row : Row} {c : Nat} (h : c < row.before.length) :
    row.tokens[c]? = row.before[c]? :=
  List.getElem?_append_left h

/-- The tokens left from a place on begin with the one at that place. -/
theorem of_drop_eq_cons {row : Row} {c : Nat} {t : Token} {ts : List Token}
    (h : row.before.drop c = t :: ts) :
    c < row.before.length ∧ row.tokens[c]? = some t ∧ row.before.drop (c + 1) = ts := by
  have hlt : c < row.before.length := by
    by_contra hge
    rw [List.drop_eq_nil_of_le (Nat.le_of_not_lt hge)] at h
    cases h
  refine ⟨hlt, ?_, ?_⟩
  · rw [getElem?_lt hlt, ← List.head?_drop, h]
    rfl
  · rw [← List.tail_drop, h]
    rfl

theorem getElem?_length (row : Row) : row.tokens[row.before.length]? = some row.stop := by
  simp [tokens]

end Row

/-- The parser stands before the token at place `c` of a row. -/
structure State.At (row : Row) (c : Nat) (s : State) : Prop where
  rest : s.rest = row.before.drop c
  stop : s.stop = row.stop
  le : c ≤ row.before.length

namespace State.At

variable {row : Row} {c : Nat} {s s' : State} {ts : List Token}

theorem stop_eof (h : s.At row c) : s.stop.kind = .eof := by
  rw [h.stop]
  exact row.stop_eof

theorem length_eq (h : s.At row c) : s.rest.length = row.before.length - c := by
  rw [h.rest, List.length_drop]

/-- The next token is the one of the row. -/
theorem next (h : s.At row c) : row.tokens[c]? = some (s.rest.headD s.stop) := by
  rcases h.le.lt_or_eq with hlt | rfl
  · rw [Row.getElem?_lt hlt, h.rest, List.drop_eq_getElem_cons hlt, List.getElem?_eq_getElem hlt]
    rfl
  · rw [row.getElem?_length, h.rest, h.stop, List.drop_length]
    rfl

/-- Reading gets on by as many places as tokens are read. -/
theorem reads (h : s.At row c) (hreads : Reads s ts s') : s'.At row (c + ts.length) where
  rest := by
    have hdrop : row.before.drop c = ts ++ s'.rest := h.rest ▸ hreads.rest
    rw [← List.drop_drop, hdrop, List.drop_left]
  stop := hreads.stop.trans h.stop
  le := by
    have hlen := hreads.length_eq
    have hle := h.le
    rw [h.length_eq] at hlen
    omega

end State.At

/-! ## Boundaries -/

theorem beginsStatement_iff (kind : Kind) : beginsStatement kind = true ↔
    kind ∈ [.kwClass, .kwFun, .kwVar, .kwFor, .kwIf, .kwWhile, .kwPrint, .kwReturn] := by
  cases kind <;> decide

/-- The place behind `p` is a boundary unless the tokens around it say otherwise. -/
theorem Row.boundary_succ_iff {row : Row} {p : Nat} {t u : Token} (ht : row.tokens[p]? = some t)
    (hu : row.tokens[p + 1]? = some u) :
    row.Boundary (p + 1) ↔
      u.kind = .eof ∨ t.kind = .semicolon ∨ beginsStatement u.kind = true := by
  simp [Row.Boundary, hu, ht, beginsStatement_iff]

/-- A boundary right behind a place is the least one behind it. -/
theorem Row.least_succ {row : Row} {p : Nat} (h : row.Boundary (p + 1)) :
    IsLeast { q | p < q ∧ row.Boundary q } (p + 1) :=
  ⟨⟨p.lt_succ_self, h⟩, fun _ hq => hq.1⟩

/-- What is looked for behind the token at place `p` is the least boundary behind it. -/
theorem boundaryAfter_eq_drop {row : Row} {p : Nat} {t : Token} {ts : List Token}
    (h : row.before.drop p = t :: ts) :
    ∃ q, boundaryAfter t ts = row.before.drop q ∧ q ≤ row.before.length ∧
      IsLeast { q | p < q ∧ row.Boundary q } q := by
  obtain ⟨hlt, ht, hts⟩ := Row.of_drop_eq_cons h
  induction ts generalizing p t with
  | nil =>
    -- the end of the row comes next
    have hend : p + 1 = row.before.length := Nat.le_antisymm hlt (List.drop_eq_nil_iff.1 hts)
    refine ⟨p + 1, hts.symm, hlt, Row.least_succ ?_⟩
    exact (Row.boundary_succ_iff ht (hend ▸ row.getElem?_length)).2 (.inl row.stop_eof)
  | cons u us ih =>
    obtain ⟨hlt', hu, hus⟩ := Row.of_drop_eq_cons hts
    have hune : u.kind ≠ .eof :=
      row.before_ne u (List.mem_of_mem_drop (hts ▸ List.mem_cons_self))
    unfold boundaryAfter
    split
    · rename_i hboundary
      refine ⟨p + 1, hts.symm, hlt, Row.least_succ ?_⟩
      refine (Row.boundary_succ_iff ht hu).2 (.inr ?_)
      simpa using hboundary
    · rename_i hboundary
      obtain ⟨q, hq, hle, ⟨hgt, hqb⟩, hleast⟩ := ih hts hlt' hu hus
      refine ⟨q, hq, hle, ⟨Nat.lt_of_succ_lt hgt, hqb⟩, ?_⟩
      rintro r ⟨hr, hrb⟩
      rcases Nat.lt_or_eq_of_le (Nat.succ_le_of_lt hr) with hlt | rfl
      · exact hleast ⟨hlt, hrb⟩
      · -- the place right behind is none, as the tokens around it show
        rcases (Row.boundary_succ_iff ht hu).1 hrb with heof | hat
        · exact absurd heof hune
        · exact absurd (by simpa using hat) hboundary

/-- After a failure at place `p` parsing goes on where it should. -/
theorem State.At.resync {row : Row} {p : Nat} {s : State} (h : s.At row p) :
    ∃ q, State.At row q { s with rest := resync s.rest } ∧ row.Resumes p q := by
  rcases h.le.lt_or_eq with hlt | rfl
  · have hcons := List.drop_eq_getElem_cons hlt
    obtain ⟨q, hq, hle, hleast⟩ := boundaryAfter_eq_drop hcons
    refine ⟨q, ⟨?_, h.stop, hle⟩, row.before[p], ?_, .inr ⟨?_, hleast⟩⟩
    · rw [h.rest, hcons]
      exact hq
    · rw [Row.getElem?_lt hlt, List.getElem?_eq_getElem hlt]
    · exact row.before_ne _ (List.getElem_mem hlt)
  · have hnil : s.rest = [] := by rw [h.rest, List.drop_length]
    refine ⟨row.before.length, ⟨?_, h.stop, Nat.le_refl _⟩, row.stop, row.getElem?_length,
      .inl ⟨row.stop_eof, rfl⟩⟩
    rw [hnil, List.drop_length]
    rfl

/-! ## Declarations and programs -/

/-- A parser that started at place `c` has a result at a place behind, or fails at the token of a
place. -/
def Row.Stays {α : Type} (row : Row) (c : Nat) : EStateM.Result ParseError State α → Prop
  | .ok _ s => ∃ c', c < c' ∧ s.At row c'
  | .error e s => ∃ p, c ≤ p ∧ s.At row p ∧ row.tokens[p]? = some e.token

theorem State.At.stays {α : Type} {row : Row} {c : Nat} {s : State} (h : s.At row c)
    {r : EStateM.Result ParseError State α} (hmoved : Moved 1 s r) : row.Stays c r := by
  cases r with
  | ok a s' =>
    obtain ⟨ts, hreads, hpos⟩ := hmoved
    exact ⟨c + ts.length, by omega, h.reads hreads⟩
  | error e s' =>
    obtain ⟨ts, hreads, htoken⟩ := hmoved
    have hat := h.reads hreads
    exact ⟨c + ts.length, Nat.le_add_right _ _, hat, htoken ▸ hat.next⟩

/-- From place `c` a declaration gets on to another place, with the loops and functions around it as
they were. If it yields nothing, a fault was found at a place from where parsing resumes. -/
def Row.Proceeds (row : Row) (n c : Nat) (s : State) : Prop :=
  ∃ a s' c', declaration n s = .ok a s' ∧ s'.At row c' ∧ (c < row.before.length → c < c') ∧
    s'.loopDepth = s.loopDepth ∧ s'.functionDepth = s.functionDepth ∧
    (a = none → ∃ e s₁ p, statement n true s = .error e s₁ ∧ s₁.At row p ∧ c ≤ p ∧
      row.tokens[p]? = some e.token ∧ s'.errors = s₁.errors.push e ∧ row.Resumes p c')

/-- Only at the end does parsing resume at the place it failed at. -/
theorem Row.Resumes.lt {row : Row} {c p q : Nat} (h : row.Resumes p q) (hp : c ≤ p)
    (hc : c < row.before.length) : c < q := by
  obtain ⟨t, ht, ⟨heof, rfl⟩ | ⟨-, hleast⟩⟩ := h
  · refine Nat.lt_of_le_of_ne hp ?_
    rintro rfl
    rw [Row.getElem?_lt hc] at ht
    exact row.before_ne t (List.mem_of_getElem? ht) heof
  · exact Nat.lt_of_le_of_lt hp hleast.1.1

theorem State.At.proceeds {row : Row} {n c : Nat} {s : State} (h : s.At row c)
    (hn : s.rest.length ≤ n) : row.Proceeds n c s := by
  obtain ⟨-, hmoved⟩ := statement_coincide hn hn true s h.stop_eof (Nat.le_refl _)
  unfold Row.Proceeds declaration recovering
  revert hmoved
  cases statement n true s with
  | ok a s' =>
    rintro ⟨ts, hreads, hpos⟩
    exact ⟨some a, s', c + ts.length, rfl, h.reads hreads, fun _ => by omega, hreads.loopDepth,
      hreads.functionDepth, fun hnone => by cases hnone⟩
  | error e s₁ =>
    rintro ⟨ts, hreads, htoken⟩
    have hat := h.reads hreads
    obtain ⟨q, hq, hresumes⟩ := hat.resync
    have hle : c ≤ c + ts.length := Nat.le_add_right _ _
    refine ⟨none, _, q, rfl, ⟨hq.rest, hq.stop, hq.le⟩, hresumes.lt hle, hreads.loopDepth,
      hreads.functionDepth, fun _ => ⟨e, s₁, c + ts.length, rfl, hat, hle, ?_, rfl, hresumes⟩⟩
    rw [htoken]
    exact hat.next

theorem State.ofTokens_rest_ne (tokens : List Token) :
    ∀ t ∈ (State.ofTokens tokens).rest, t.kind ≠ .eof := by
  intro t ht
  simpa using List.mem_takeWhile_imp ht

/-- The row that a token list is read as. -/
def Row.ofTokens (tokens : List Token) : Row where
  before := (State.ofTokens tokens).rest
  stop := (State.ofTokens tokens).stop
  before_ne := State.ofTokens_rest_ne tokens
  stop_eof := stop_ofTokens tokens

theorem Row.ofTokens_heads (tokens : List Token) : (Row.ofTokens tokens).Heads tokens := by
  unfold Row.Heads Row.tokens Row.ofTokens State.ofTokens
  dsimp only
  cases hfind : tokens.find? fun t => t.kind = .eof with
  | none =>
    refine .inr ⟨(List.takeWhile_eq_self_iff.2 fun t ht => ?_).symm, rfl⟩
    simpa using List.find?_eq_none.1 hfind t ht
  | some stop =>
    obtain ⟨hstop, before, after, rfl, hbefore⟩ := List.find?_eq_some_iff_append.1 hfind
    have hne : ∀ t ∈ before, decide (t.kind ≠ .eof) = true := by simpa using hbefore
    refine .inl ⟨after, ?_⟩
    rw [List.takeWhile_append_of_pos hne, List.takeWhile_cons_of_neg (by simpa using hstop)]
    simp

theorem State.ofTokens_at (tokens : List Token) :
    (State.ofTokens tokens).At (Row.ofTokens tokens) 0 :=
  ⟨rfl, rfl, Nat.zero_le _⟩

/-- The tokens behind the first end token are not read. -/
theorem State.ofTokens_row (tokens : List Token) :
    State.ofTokens (Row.ofTokens tokens).tokens = State.ofTokens tokens :=
  ofTokens_append (Row.ofTokens tokens).stop_eof (Row.ofTokens tokens).before_ne

/-- A program is read to its end, with any budget that covers its tokens. -/
theorem program_reads {n k : Nat} {s : State} (hs : s.stop.kind = .eof) (hn : s.rest.length ≤ n)
    (hk : s.rest.length ≤ k) :
    ∃ ss s', program s.rest.length s = .ok ss s' ∧ programFrom (declaration n) k s = .ok ss s' ∧
      Reads s s.rest s' := by
  have hsame := declaration_persist (Nat.le_refl s.rest.length) hn
  obtain ⟨heq, ss, s', hok, hreads⟩ :=
    programFrom_coincide hsame hs (Nat.le_refl _) (Nat.le_refl _) hk
  exact ⟨ss, s', hok, heq.trans hok, hreads⟩

/-- What is parsed is what a program yields in the end. -/
theorem parse_of_program {tokens : List Token} {ss : List Stmt} {s : State}
    (h : program (State.ofTokens tokens).rest.length (.ofTokens tokens) = .ok ss s) :
    parse tokens = ⟨ss, s.errors.toList⟩ := by
  unfold parse
  dsimp only
  rw [h]

end Parser

/-- **The parser always gets on and recovers at the next boundary.** A token list is read as the row
of its tokens up to the first end token. Every budget that covers the row leads to its end with the
same statements and faults. From every place of the row a declaration proceeds in one way. -/
theorem parse_recovers (tokens : List Token) :
    ∃ row : Parser.Row, row.Heads tokens ∧ parse tokens = parse row.tokens ∧
      (Parser.State.ofTokens tokens).At row 0 ∧
      (∀ n, row.before.length ≤ n → ∃ ss s,
        Parser.program n (.ofTokens tokens) = .ok ss s ∧ s.At row row.before.length ∧
        parse tokens = ⟨ss, s.errors.toList⟩) ∧
      ∀ c s, s.At row c →
        row.tokens[c]? = some (s.rest.headD s.stop) ∧
        ∀ n, s.rest.length ≤ n →
          row.Stays c (Parser.expression n s) ∧
          (∀ declares, row.Stays c (Parser.statement n declares s)) ∧
          Parser.declaration n s = Parser.declaration s.rest.length s ∧ row.Proceeds n c s := by
  have hstart := Parser.State.ofTokens_at tokens
  refine ⟨.ofTokens tokens, Parser.Row.ofTokens_heads tokens, ?_, hstart, fun n hn => ?_,
    fun c s hat => ⟨hat.next, fun n hn => ⟨hat.stays ?_, fun declares => hat.stays ?_, ?_,
      hat.proceeds hn⟩⟩⟩
  · unfold parse
    rw [Parser.State.ofTokens_row]
  · obtain ⟨ss, s, hok, hok', hreads⟩ := Parser.program_reads hstart.stop_eof hn hn
    refine ⟨ss, s, hok', ?_, Parser.parse_of_program hok⟩
    have hend := hstart.reads hreads
    rwa [Nat.zero_add] at hend
  · exact (Parser.expression_coincide hn hn s hat.stop_eof (Nat.le_refl _)).2
  · exact (Parser.statement_coincide hn hn declares s hat.stop_eof (Nat.le_refl _)).2
  · exact (Parser.declaration_persist (Nat.le_refl _) hn s hat.stop_eof (Nat.le_refl _)).1

end GradedScript
