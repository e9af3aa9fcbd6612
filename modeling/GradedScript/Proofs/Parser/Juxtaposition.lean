import GradedScript.Proofs.Parser.Recovery
import Mathlib

/-!
# Good code in front of other code

A parser that reads a declaration to its end does not look further than at whether an `else` follows.
So declarations without faults are read in the same way whatever comes behind them, and what comes
behind is read as if nothing stood before it (`parse_append`): the same statements, and the same
faults in the same order.
-/

namespace GradedScript

open Grammar

namespace Parser

theorem Leads.bind_both {α β : Type} {s : State} {rest ts : List Token} {p q : Parser α}
    (h : Leads s rest p ts q) (f : α → Parser β) : Leads s rest (p >>= f) ts (q >>= f) := by
  unfold Leads at *
  show EStateM.bind p f _ = EStateM.bind q f _
  rw [EStateM.bind, EStateM.bind, h]

/-- Declarations in front of other tokens lead to a program that begins behind them, and put their
trees in front of it. -/
theorem programFrom_leads_on {p : Place} {ts rest : List Token} {ss : List Stmt} {n m : Nat}
    {s : State} (h : Declarations p ts ss) (hp : s.place = p) (hn : ts.length ≤ n)
    (hm : ts.length + rest.length ≤ m) (hrest : Ends [.kwElse] rest) :
    ∃ k, rest.length ≤ k ∧ Leads s rest (programFrom (declaration n) m) ts
      ((ss ++ ·) <$> programFrom (declaration n) k) := by
  match h with
  | .nil =>
    refine ⟨m, by simpa using hm, ?_⟩
    simp only [List.nil_append, id_map']
    exact .refl
  | @Declarations.cons _ ts st us ss h hmore =>
    rw [List.length_append] at hn hm
    have hpos := h.length_pos
    have helse : Ends [.kwElse] (us ++ rest) := by
      rcases hmore.starts with rfl | hus
      · exact hrest
      · exact ends_of_starts hus (by decide) _
    obtain ⟨m, rfl⟩ := Nat.exists_eq_add_one_of_ne_zero (show m ≠ 0 by omega)
    obtain ⟨k, hk, hothers⟩ := programFrom_leads_on (n := n) (m := m) hmore hp (by omega) (by omega)
      hrest
    refine ⟨k, hk, ?_⟩
    have hfirst : Leads s (us ++ rest) (declaration n) ts (pure (some st)) :=
      recovering_leads (declaration_leads h n s (us ++ rest) hp (by omega) helse)
    have hnext : Leads s (ts ++ us ++ rest) atEnd [] (pure false) := by
      obtain ⟨t, vs, rfl, -⟩ := h.starts
      exact .refl
    have hlast := hothers.bind_both fun ss => pure (consOption (some st) ss)
    rw [bind_map_left, bind_pure_comp] at hlast
    exact Leads.look hnext (hfirst.next hlast)

/-- Tokens without an end token in front of others stand before all that is read of those. -/
theorem State.ofTokens_append_of_ne {before after : List Token}
    (hbefore : ∀ t ∈ before, t.kind ≠ .eof) (hafter : after ≠ []) :
    State.ofTokens (before ++ after) =
      { State.ofTokens after with rest := before ++ (State.ofTokens after).rest } := by
  have hlast : (before ++ after).getLast? = after.getLast? := by
    rw [List.getLast?_append_of_ne_nil _ hafter]
  have hnone : before.find? (fun t => decide (t.kind = .eof)) = none :=
    List.find?_eq_none.2 fun t ht => by simpa using hbefore t ht
  unfold State.ofTokens impliedEnd
  rw [List.takeWhile_append_of_pos fun t ht => decide_eq_true (hbefore t ht), List.find?_append,
    hnone, hlast, Option.none_or]

/-- What is read of a token list begins as the list does, or is nothing. -/
theorem State.ofTokens_rest_ends {kinds : List Kind} {tokens : List Token} (h : Ends kinds tokens) :
    Ends kinds (State.ofTokens tokens).rest := by
  unfold State.ofTokens
  cases tokens with
  | nil => exact .nil kinds
  | cons t ts =>
    dsimp only
    rw [List.takeWhile_cons]
    split
    · exact .cons (h t rfl)
    · exact .nil kinds

end Parser

/-- **Good code in front of bad code is not disturbed by it.** Tokens that parse without faults, and
others behind them that do not begin with an `else`, together yield the statements of both, and the
faults of the latter. -/
theorem parse_append {before after : List Token} (hbefore : ∀ t ∈ before, t.kind ≠ .eof)
    (hquiet : (parse before).errors = []) (helse : ∀ t ∈ after.head?, t.kind ≠ .kwElse) :
    parse (before ++ after) =
      ⟨(parse before).statements ++ (parse after).statements, (parse after).errors⟩ := by
  have hderived := (Parser.parse_obeys before).2 hquiet
  have hall : (Parser.State.ofTokens before).rest = before :=
    List.takeWhile_eq_self_iff.2 fun t ht => by simpa using hbefore t ht
  rw [hall] at hderived
  by_cases hafter : after = []
  · subst hafter
    have hempty : parse [] = ⟨[], []⟩ := by cbv
    rw [hempty, List.append_nil, List.append_nil, ← hquiet]
  have hends : Parser.Ends [.kwElse] (Parser.State.ofTokens after).rest :=
    Parser.State.ofTokens_rest_ends fun t ht hmem => helse t ht (List.mem_singleton.1 hmem)
  have hstart := Parser.State.ofTokens_append_of_ne hbefore hafter
  have hlength : (Parser.State.ofTokens (before ++ after)).rest.length =
      before.length + (Parser.State.ofTokens after).rest.length := by
    rw [hstart, List.length_append]
  -- the good code leads to what a parser of the other code alone starts from
  obtain ⟨k, hk, hleads⟩ := Parser.programFrom_leads_on (s := .ofTokens after) hderived rfl
    (hlength ▸ Nat.le_add_right _ _) hlength.ge hends
  obtain ⟨ss, s, hok, hok', -⟩ := Parser.program_reads (Parser.stop_ofTokens after)
    (hlength ▸ Nat.le_add_left _ _) hk
  have htogether : Parser.program (Parser.State.ofTokens (before ++ after)).rest.length
      (.ofTokens (before ++ after)) = .ok ((parse before).statements ++ ss) s := by
    unfold Parser.Leads at hleads
    rw [← hstart] at hleads
    refine hleads.trans ?_
    show EStateM.map _ _ (Parser.State.ofTokens after) = _
    rw [EStateM.map, hok']
  rw [Parser.parse_of_program htogether, Parser.parse_of_program hok]

/-- The tokens of `) a; var b; print`, with an end token. -/
def brokenCode : List Token :=
  [plainToken .rightParen ")", plainToken .identifier "a", plainToken .semicolon ";",
    plainToken .kwVar "var", plainToken .identifier "b", plainToken .semicolon ";",
    plainToken .kwPrint "print", plainToken .eof ""]

/-- A loop in front of broken code keeps its tree, and the two faults of that code are all. -/
theorem parse_append_brokenCode :
    (∀ t ∈ danglingElse, t.kind ≠ .eof) ∧ (parse danglingElse).errors = [] ∧
    (∀ t ∈ brokenCode.head?, t.kind ≠ .kwElse) ∧
    parse (danglingElse ++ brokenCode) =
      ⟨[danglingElseTree, .varDecl (plainToken .identifier "b") none],
        [⟨.expected .expression, plainToken .rightParen ")"⟩,
          ⟨.expected .expression, plainToken .eof ""⟩]⟩ := by
  have honly : ∀ t ∈ danglingElse, t.kind ≠ .eof := by decide
  have hloop : parse danglingElse = ⟨[danglingElseTree], []⟩ := by cbv
  have hquiet : (parse danglingElse).errors = [] := congrArg Parsed.errors hloop
  have helse : ∀ t ∈ brokenCode.head?, t.kind ≠ .kwElse := by decide
  have hbroken : parse brokenCode =
      ⟨[.varDecl (plainToken .identifier "b") none],
        [⟨.expected .expression, plainToken .rightParen ")"⟩,
          ⟨.expected .expression, plainToken .eof ""⟩]⟩ := by cbv
  refine ⟨honly, hquiet, helse, ?_⟩
  rw [parse_append honly hquiet helse, hloop, hbroken]
  rfl

end GradedScript
