import GradedScript.Program
import GradedScript.Proofs.Parser.Completeness
import GradedScript.Proofs.Scan.Seam
import Mathlib

/-!
# The parser is exact

On a token list that ends in its only end token, a parse without faults yields the trees that the
grammar derives from the tokens, and there are none but these (`parse_eq_iff_derives`).
-/

namespace GradedScript

open Grammar

namespace Parser

/-- A whole program leads to its trees, at the end of the tokens. -/
theorem programFrom_leads {p : Place} {ts : List Token} {ss : List Stmt} {n m : Nat} {s : State}
    (h : Declarations p ts ss) (hp : s.place = p) (hn : ts.length ≤ n) (hm : ts.length ≤ m) :
    Leads s [] (programFrom (recovering (statement n true)) m) ts (pure ss) := by
  match h with
  | .nil =>
    cases m with
    | zero => exact .refl
    | succ m => exact .refl
  | @Declarations.cons _ ts st us ss h hrest =>
    rw [List.length_append] at hn hm
    have hpos := h.length_pos
    have helse : Ends [.kwElse] (us ++ []) := by
      rcases hrest.starts with rfl | hus
      · exact .nil _
      · exact ends_of_starts hus (by decide) _
    cases m with
    | zero => omega
    | succ m =>
      have hfirst := recovering_leads (declaration_leads h n s (us ++ []) hp (by omega) helse)
      have hothers : Leads s [] (programFrom (recovering (statement n true)) m) us (pure ss) :=
        programFrom_leads hrest hp (by omega) (by omega)
      have hmore : Leads s (ts ++ us ++ []) atEnd [] (pure false) := by
        obtain ⟨t, vs, rfl, -⟩ := h.starts
        exact .refl
      exact Leads.look hmore (hfirst.next (hothers.last .refl))

end Parser

section

variable {ts : List Token} {stop : Token}

/-- The tokens before the only end token are all there is to read. -/
theorem Parser.ofTokens_append (hstop : stop.kind = .eof) (honly : ∀ t ∈ ts, t.kind ≠ .eof) :
    State.ofTokens (ts ++ [stop]) = { rest := ts, stop } := by
  unfold State.ofTokens
  congr 1
  · rw [List.takeWhile_append_of_pos fun t ht => decide_eq_true (honly t ht)]
    simp [hstop]
  · rw [List.find?_append, List.find?_eq_none.2 fun t ht => by simpa using honly t ht]
    simp [hstop]

/-- What the grammar derives is parsed without a fault. -/
theorem parse_of_declarations {ss : List Stmt} (hstop : stop.kind = .eof)
    (honly : ∀ t ∈ ts, t.kind ≠ .eof) (h : Declarations .top ts ss) :
    parse (ts ++ [stop]) = ⟨ss, []⟩ := by
  have hleads : Parser.Leads { rest := ts, stop } [] (Parser.program ts.length) ts (pure ss) :=
    Parser.programFrom_leads h rfl (Nat.le_refl _) (Nat.le_refl _)
  unfold Parser.Leads at hleads
  rw [List.append_nil] at hleads
  unfold parse
  rw [Parser.ofTokens_append hstop honly]
  dsimp only
  rw [hleads]
  rfl

end

/-- A source without static faults has trees that the grammar derives. -/
theorem Program.derived {source : String} (hvalid : (Program.ofSource source).errors = []) :
    Grammar.Declarations .top (Parser.State.ofTokens (scan source).tokens).rest
      (Program.ofSource source).statements := by
  obtain ⟨-, hparse⟩ := List.append_eq_nil_iff.1 hvalid
  exact (Parser.parse_obeys (scan source).tokens).2 (List.map_eq_nil_iff.1 hparse)

/-- The trees of a source without static faults are derived from its tokens before the end. -/
theorem Program.derived_before {source : String} (hvalid : (Program.ofSource source).errors = []) :
    Grammar.Declarations .top (tokensBefore source) (Program.ofSource source).statements := by
  have hderived := Program.derived hvalid
  rwa [scan_tokens, Parser.ofTokens_append rfl tokensBefore_ne_eof] at hderived

/-- **The parser accepts exactly the grammar, and builds the one tree.** For a token list that ends
in its only end token, the trees of a parse without faults are those the grammar derives, and the
grammar derives no others. -/
theorem parse_eq_iff_derives {ts : List Token} {stop : Token} (hstop : stop.kind = .eof)
    (honly : ∀ t ∈ ts, t.kind ≠ .eof) :
    (∀ ss, parse (ts ++ [stop]) = ⟨ss, []⟩ ↔ Derives (ts ++ [stop]) ss) ∧
      ∀ ss ss', Derives (ts ++ [stop]) ss → Derives (ts ++ [stop]) ss' → ss = ss' := by
  have hcomplete : ∀ ss, Derives (ts ++ [stop]) ss → parse (ts ++ [stop]) = ⟨ss, []⟩ := by
    intro ss h
    generalize htokens : ts ++ [stop] = tokens at h
    cases h with
    | mk h _ =>
      obtain ⟨rfl, hlast⟩ := List.append_inj' htokens rfl
      rw [← htokens]
      exact parse_of_declarations hstop honly h
  refine ⟨fun ss => ⟨fun hparse => ?_, hcomplete ss⟩, ?_⟩
  · have hsound := (Parser.parse_obeys (ts ++ [stop])).2
    rw [hparse, Parser.ofTokens_append hstop honly] at hsound
    exact .mk (hsound rfl) hstop
  · intro ss ss' h h'
    exact congrArg Parsed.statements ((hcomplete ss h).symm.trans (hcomplete ss' h'))

/-- A token on the first line. -/
def plainToken (kind : Kind) (lexeme : String) : Token :=
  ⟨kind, lexeme, none, 1, ⟨0, 0⟩⟩

/-- The tokens of `while (a) if (b) if (c) break; else a = b;`. -/
def danglingElse : List Token :=
  let name := plainToken .identifier
  let left := plainToken .leftParen "("
  let right := plainToken .rightParen ")"
  let semicolon := plainToken .semicolon ";"
  [plainToken .kwWhile "while", left, name "a", right, plainToken .kwIf "if", left, name "b", right,
    plainToken .kwIf "if", left, name "c", right, plainToken .kwBreak "break", semicolon,
    plainToken .kwElse "else", name "a", plainToken .equal "=", name "b", semicolon]

/-- The tree of those tokens. -/
def danglingElseTree : Stmt :=
  let name := fun lexeme => Expr.var (plainToken .identifier lexeme)
  .whileLoop (name "a")
    (.ifElse (name "b")
      (.ifElse (name "c") (.breakOut (plainToken .kwBreak "break"))
        (some (.expression (.assign (plainToken .identifier "a") (name "b")))))
      none)

/-- The `else` belongs to the inner `if`, and in no other way. -/
theorem parse_eq_iff_derives_danglingElse :
    (∀ t ∈ danglingElse, t.kind ≠ .eof) ∧
    ∀ ss, Derives (danglingElse ++ [plainToken .eof ""]) ss ↔ ss = [danglingElseTree] := by
  have honly : ∀ t ∈ danglingElse, t.kind ≠ .eof := by decide
  have hstop : (plainToken .eof "").kind = .eof := rfl
  have hparse : parse (danglingElse ++ [plainToken .eof ""]) = ⟨[danglingElseTree], []⟩ := by cbv
  obtain ⟨hexact, hunique⟩ := parse_eq_iff_derives hstop honly
  have hderived := (hexact [danglingElseTree]).1 hparse
  refine ⟨honly, fun ss => ⟨fun h => hunique ss _ h hderived, ?_⟩⟩
  rintro rfl
  exact hderived

end GradedScript
