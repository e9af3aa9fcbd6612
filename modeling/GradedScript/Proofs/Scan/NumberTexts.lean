import GradedScript.Proofs.Decimal.Numerals
import GradedScript.Proofs.Scan.Slices
import Mathlib

/-!
# Texts of numbers

The text of a finite number is one token, or a minus sign and one token, and the value of that token
is the number again, or its negative (`scan_numberText`).
-/

namespace GradedScript

section

variable {text : List Char} {d : Decimal}

/-- A numeral is the text of a token with the double that it is read as. -/
theorem Numeral.lexeme (h : Numeral text d) : Lexeme text .number (some (.number d.nearest)) := by
  cases h with
  | whole hne hcs =>
    obtain ⟨c, cs, rfl⟩ := List.exists_cons_of_ne_nil hne
    obtain ⟨hc, hcs⟩ := List.forall_mem_cons.1 hcs
    exact .whole hc hcs
  | fraction hne hcs hne' hds =>
    obtain ⟨c, cs, rfl⟩ := List.exists_cons_of_ne_nil hne
    obtain ⟨e, es, rfl⟩ := List.exists_cons_of_ne_nil hne'
    obtain ⟨hc, hcs⟩ := List.forall_mem_cons.1 hcs
    obtain ⟨he, hes⟩ := List.forall_mem_cons.1 hds
    exact .fraction hc hcs he hes

/-- A numeral is made of digits and points, and begins with a digit. -/
theorem Numeral.chars (h : Numeral text d) :
    (∃ c cs, text = c :: cs ∧ c.isDigit = true) ∧ ∀ c ∈ text, c.isDigit = true ∨ c = '.' := by
  cases h with
  | whole hne hcs =>
    obtain ⟨c, cs, rfl⟩ := List.exists_cons_of_ne_nil hne
    exact ⟨⟨c, cs, rfl, hcs c List.mem_cons_self⟩, fun c hc => .inl (hcs c hc)⟩
  | fraction hne hcs _ hds =>
    obtain ⟨c, cs, rfl⟩ := List.exists_cons_of_ne_nil hne
    refine ⟨⟨c, _, rfl, hcs c List.mem_cons_self⟩, List.forall_mem_append.2 ⟨?_, ?_⟩⟩
    · exact fun c hc => .inl (hcs c hc)
    · exact List.forall_mem_cons.2 ⟨.inr rfl, fun c hc => .inl (hds c hc)⟩

/-- A numeral by itself is one chunk. -/
theorem Numeral.chunks_eq (h : Numeral text d) :
    chunks text = [⟨.token .number (some (.number d.nearest)), text⟩] := by
  obtain ⟨⟨c, cs, rfl, hc⟩, -⟩ := h.chars
  have hslash : ∀ e, ¬ ['/', e] <+: c :: cs ++ [] := by
    intro e hfront
    rw [← (List.cons_prefix_cons.1 hfront).1] at hc
    exact absurd hc (by decide)
  have hcut : Cut (.token .number (some (.number d.nearest))) (c :: cs) [] := by
    refine .token h.lexeme (fun longer _ _ _ hfront => ?_) (hslash _) (hslash _)
    rw [List.append_nil] at hfront
    exact hfront.length_le
  have hchunks := hcut.chunks_append
  rwa [List.append_nil, chunks] at hchunks

theorem Numeral.newlines_eq (h : Numeral text d) : newlines text = 0 := by
  refine List.count_eq_zero.2 fun hmem => ?_
  rcases h.chars.2 _ hmem with hdigit | hpoint
  · exact absurd hdigit (by decide)
  · exact absurd hpoint (by decide)

end

/-! ## Numbers -/

section

variable {x : Float}

/-- The text of a finite number is its sign and a numeral that is read as the number without it. -/
theorem text_number (h : x.isFinite = true) : ∃ digits d,
    (Literal.number x).text.toList = (if signBit x then ['-'] else []) ++ digits ∧
      Numeral digits d ∧ d.nearest = if signBit x then -x else x := by
  obtain ⟨d, hnumeral, hbits⟩ := shortestDecimal_numeral (magnitudeBits_lt h)
  refine ⟨_, d, ?_, hnumeral, ?_⟩
  · show (numberText x).toList = _
    rw [numberText_eq h, String.toList_append, String.toList_ofList, signText]
    split <;> rfl
  · rw [Decimal.nearest, hbits, ofBits_magnitudeBits h]

/-- The end of a text without newlines. -/
theorem past_of_newlines_eq {text : String} (h : newlines text.toList = 0) :
    Cursor.past {} text.toList = ⟨text.utf8ByteSize, 1⟩ := by
  rw [Cursor.past, h, byteLength_toList, Nat.zero_add]

/-- **Numbers that are written scan back.** The text of a finite number is scanned without faults. If
the number has no sign, it is one token with all of the text and the number as its value. Otherwise
it is a minus sign, and one token with the rest of the text and the negative of the number as its
value. -/
theorem scan_numberText (h : x.isFinite = true) :
    (scan (Literal.number x).text).errors = [] ∧
    (signBit x = false → (scan (Literal.number x).text).tokens =
      [⟨.number, (Literal.number x).text, some (.number x), 1,
          ⟨0, (Literal.number x).text.utf8ByteSize⟩⟩,
        endToken ⟨(Literal.number x).text.utf8ByteSize, 1⟩]) ∧
    (signBit x = true → ∃ rest, (Literal.number x).text = "-" ++ rest ∧
      (scan (Literal.number x).text).tokens =
        [⟨.minus, "-", none, 1, ⟨0, 1⟩⟩,
          ⟨.number, rest, some (.number (-x)), 1, ⟨1, (Literal.number x).text.utf8ByteSize⟩⟩,
          endToken ⟨(Literal.number x).text.utf8ByteSize, 1⟩]) := by
  obtain ⟨digits, d, htext, hnumeral, hvalue⟩ := text_number h
  generalize (Literal.number x).text = text at htext ⊢
  have hlines := hnumeral.newlines_eq
  rw [scan_errors, scan_tokens, tokensBefore]
  cases hsign : signBit x with
  | false =>
    rw [hsign] at htext hvalue
    obtain rfl : text.toList = digits := htext
    have hpast := past_of_newlines_eq hlines
    rw [hnumeral.chunks_eq, hpast]
    refine ⟨rfl, fun _ => ?_, Bool.noConfusion⟩
    show [⟨.number, String.ofList text.toList, some (.number d.nearest),
      (Cursor.past {} text.toList).line, ⟨0, (Cursor.past {} text.toList).offset⟩⟩, endToken _] = _
    rw [hpast, String.ofList_toList, hvalue]
    rfl
  | true =>
    rw [hsign] at htext hvalue
    have htext : text.toList = ['-'] ++ digits := htext
    have hpast : Cursor.past {} text.toList = ⟨text.utf8ByteSize, 1⟩ := by
      refine past_of_newlines_eq ?_
      rw [htext]
      exact hlines
    have hpast' : (Cursor.past {} ['-']).past digits = ⟨text.utf8ByteSize, 1⟩ := by
      rw [← Cursor.past_append, ← htext, hpast]
    have hchunks : chunks text.toList = ⟨.token .minus none, ['-']⟩ :: chunks digits := by
      rw [htext]
      exact chunks_cons [] digits rfl rfl
    rw [hchunks, hnumeral.chunks_eq, hpast]
    refine ⟨rfl, Bool.noConfusion, fun _ => ⟨String.ofList digits, ?_, ?_⟩⟩
    · rw [← String.toList_inj, htext, String.toList_append]
      exact congrArg (['-'] ++ ·) String.toList_ofList.symm
    · show [⟨.minus, "-", none, 1, ⟨0, 1⟩⟩, ⟨.number, String.ofList digits, some (.number d.nearest),
        ((Cursor.past {} ['-']).past digits).line,
        ⟨1, ((Cursor.past {} ['-']).past digits).offset⟩⟩, endToken _] = _
      rw [hpast', hvalue]
      rfl

/-- The double nearest to minus one tenth. -/
def minusTenth : Float :=
  Float.ofBits 0xBFB999999999999A

/-- It is written with one digit, and read back. -/
theorem scan_numberText_minusTenth :
    minusTenth.isFinite = true ∧ signBit minusTenth = true ∧ (Literal.number minusTenth).text = "-0.1" ∧
      (scan "-0.1").tokens = [⟨.minus, "-", none, 1, ⟨0, 1⟩⟩,
        ⟨.number, "0.1", some (.number (-minusTenth)), 1, ⟨1, 4⟩⟩, endToken ⟨4, 1⟩] := by
  have hfinite : minusTenth.isFinite = true := by decide +kernel
  have hsign : signBit minusTenth = true := by decide +kernel
  have htext : (Literal.number minusTenth).text = "-0.1" := by decide +kernel
  obtain ⟨-, -, hset⟩ := scan_numberText hfinite
  obtain ⟨rest, hrest, htokens⟩ := hset hsign
  rw [htext] at hrest htokens
  have hchars : ['-'] ++ "0.1".toList = ['-'] ++ rest.toList := by
    rw [← String.toList_inj, String.toList_append] at hrest
    exact hrest
  obtain rfl : "0.1" = rest := String.toList_inj.1 (List.append_cancel_left hchars)
  exact ⟨hfinite, hsign, htext, htokens⟩

end

end GradedScript
