import GradedScript.Proofs.Decimal.Doubles
import GradedScript.Proofs.Decimal.Rounding
import Mathlib

/-!
# Numbers written and read

A decimal is written as a numeral, digits with at most one point between them, and read from it
again: as a decimal that may have fewer digits, but stands for the same number (`plain_numeral`).
The decimal with the fewest digits that is found for a finite double is nearest to that double
(`nearestBits_shortestDecimal`). So the text of a finite double reads back as the double.
-/

namespace GradedScript

/-! ## Values of digits -/

theorem digitsValue_eq (cs : List Char) : digitsValue cs = Nat.ofDigitChars 10 cs 0 :=
  Nat.ofDigitChars_eq_foldl.symm

/-- Zeros at the end multiply. -/
theorem digitsValue_append_zeros (cs : List Char) (k : ℕ) :
    digitsValue (cs ++ List.replicate k '0') = digitsValue cs * 10 ^ k := by
  rw [digitsValue_eq, Nat.ofDigitChars_append, Nat.ofDigitChars_replicate_zero, ← digitsValue_eq,
    Nat.mul_comm]

theorem digitsValue_toDigits (n : ℕ) : digitsValue (Nat.toDigits 10 n) = n := by
  rw [digitsValue_eq, Nat.ofDigitChars_ten_toDigits]

theorem digitsValue_paddedDigits (length n : ℕ) : digitsValue (paddedDigits length n) = n := by
  unfold paddedDigits
  rw [digitsValue_eq, Nat.ofDigitChars_append, Nat.ofDigitChars_replicate_zero, Nat.mul_zero,
    Nat.ofDigitChars_ten_toDigits]

theorem isDigit_of_mem_paddedDigits {length n : ℕ} {c : Char} (h : c ∈ paddedDigits length n) :
    c.isDigit = true := by
  rcases List.mem_append.1 h with h | h
  · rw [List.eq_of_mem_replicate h]
    rfl
  · exact Nat.isDigit_of_mem_toDigits (by decide) (by decide) h

theorem length_paddedDigits (length n : ℕ) : length ≤ (paddedDigits length n).length := by
  unfold paddedDigits
  rw [List.length_append, List.length_replicate]
  omega

/-- The whole part and the fraction are all the digits, and there is a whole part. -/
theorem splitPlaces_spec (places n : ℕ) :
    (splitPlaces places n).1 ++ (splitPlaces places n).2 = paddedDigits (places + 1) n ∧
      (splitPlaces places n).1 ≠ [] ∧ (splitPlaces places n).2.length = places := by
  have hlength := length_paddedDigits (places + 1) n
  have hsplit : splitPlaces places n =
      ((paddedDigits (places + 1) n).take ((paddedDigits (places + 1) n).length - places),
        (paddedDigits (places + 1) n).drop ((paddedDigits (places + 1) n).length - places)) :=
    List.splitAt_eq
  rw [hsplit]
  refine ⟨List.take_append_drop _ _, ?_, ?_⟩
  · rw [Ne, List.take_eq_nil_iff, not_or]
    refine ⟨by omega, fun hnil => ?_⟩
    rw [hnil, List.length_nil] at hlength
    omega
  · rw [List.length_drop]
    omega

/-- What is dropped are zeros. -/
theorem exists_dropTrailingZeros_append (cs : List Char) :
    ∃ k, cs = dropTrailingZeros cs ++ List.replicate k '0' := by
  refine ⟨(cs.reverse.takeWhile (· == '0')).length, ?_⟩
  have hzeros : cs.reverse.takeWhile (· == '0') =
      List.replicate (cs.reverse.takeWhile (· == '0')).length '0' := by
    refine List.eq_replicate_iff.2 ⟨rfl, fun c hc => ?_⟩
    have hzero : (c == '0') = true := List.mem_takeWhile_imp (p := (· == '0')) hc
    exact beq_iff_eq.1 hzero
  have happend := congrArg List.reverse
    (List.takeWhile_append_dropWhile (p := (· == '0')) (l := cs.reverse))
  rw [List.reverse_append, List.reverse_reverse, hzeros, List.reverse_replicate] at happend
  exact happend.symm

/-! ## Numerals -/

/-- Digits, and after a point further digits or none; with the decimal they are read as. -/
inductive Numeral : List Char → Decimal → Prop
  | whole {cs} (hne : cs ≠ []) (hcs : ∀ c ∈ cs, c.isDigit = true) : Numeral cs (.ofNumeral cs [])
  | fraction {cs ds} (hne : cs ≠ []) (hcs : ∀ c ∈ cs, c.isDigit = true) (hne' : ds ≠ [])
      (hds : ∀ d ∈ ds, d.isDigit = true) : Numeral (cs ++ '.' :: ds) (.ofNumeral cs ds)

/-- Zeros at the end of a fraction do not change the number. -/
theorem Decimal.value_ofNumeral_zeros (cs ds : List Char) (k : ℕ) :
    (Decimal.ofNumeral cs (ds ++ List.replicate k '0')).value = (Decimal.ofNumeral cs ds).value := by
  have hten : (10 : ℚ) ≠ 0 := by norm_num
  unfold Decimal.value Decimal.ofNumeral
  rw [← List.append_assoc, digitsValue_append_zeros, List.length_append, List.length_replicate]
  push_cast
  rw [neg_add, zpow_add₀ hten, zpow_neg, zpow_neg, zpow_natCast, zpow_natCast]
  field_simp

/-- **A decimal is written as a numeral of the same number.** -/
theorem Decimal.plain_numeral (d : Decimal) : ∃ d', Numeral d.plain d' ∧ d'.value = d.value := by
  unfold Decimal.plain
  split
  · rename_i hexponent
    refine ⟨_, .whole Nat.toDigits_ne_nil fun c hc =>
      Nat.isDigit_of_mem_toDigits (by decide) (by decide) hc, ?_⟩
    obtain ⟨k, hk⟩ := Int.eq_ofNat_of_zero_le hexponent
    unfold Decimal.value Decimal.ofNumeral
    rw [List.append_nil, digitsValue_toDigits, hk]
    simp
  · rename_i hexponent
    obtain ⟨happend, hwhole, hlength⟩ := splitPlaces_spec (-d.exponent).toNat d.digits
    generalize splitPlaces (-d.exponent).toNat d.digits = split at *
    obtain ⟨whole, fraction⟩ := split
    dsimp only at *
    have hdigits : ∀ c ∈ whole ++ fraction, c.isDigit = true := by
      rw [happend]
      exact fun c => isDigit_of_mem_paddedDigits
    obtain ⟨hcs, hfraction⟩ := List.forall_mem_append.1 hdigits
    have hvalue : (Decimal.ofNumeral whole fraction).value = d.value := by
      have hplaces : -((-d.exponent).toNat : ℤ) = d.exponent := by omega
      unfold Decimal.ofNumeral
      rw [happend, digitsValue_paddedDigits, hlength, hplaces]
    obtain ⟨k, hk⟩ := exists_dropTrailingZeros_append fraction
    rw [hk, Decimal.value_ofNumeral_zeros] at hvalue
    rw [hk] at hfraction
    have hds := (List.forall_mem_append.1 hfraction).1
    generalize dropTrailingZeros fraction = ds at *
    cases ds with
    | nil => exact ⟨_, .whole hwhole hcs, hvalue⟩
    | cons e es => exact ⟨_, .fraction hwhole hcs (List.cons_ne_nil e es) hds, hvalue⟩

/-! ## The fewest digits -/

/-- A neighbour that is found reads back. -/
theorem Ratio.nearestBits_of_gridNeighbour? {q : Ratio} {bits : ℕ} {exponent : ℤ} {d : Decimal}
    (h : q.gridNeighbour? bits exponent = some d) : d.nearestBits = bits := by
  unfold Ratio.gridNeighbour? at h
  dsimp only at h
  split at h
  · rename_i hlow hhigh
    split at h
    · obtain rfl := Option.some.inj h
      exact beq_iff_eq.1 hlow
    · obtain rfl := Option.some.inj h
      exact beq_iff_eq.1 hhigh
  · rename_i hlow _
    obtain rfl := Option.some.inj h
    exact beq_iff_eq.1 hlow
  · rename_i _ hhigh
    obtain rfl := Option.some.inj h
    exact beq_iff_eq.1 hhigh
  · cases h

/-- A binary is written in decimal without loss. -/
theorem Binary.value_toDecimal (b : Binary) : b.toDecimal.value = b.value := by
  unfold Binary.toDecimal Binary.value
  split
  · rename_i hexponent
    obtain ⟨k, hk⟩ := Int.eq_ofNat_of_zero_le hexponent
    unfold Decimal.value
    rw [hk]
    simp
  · rename_i hexponent
    obtain ⟨k, hk⟩ : ∃ k : ℕ, b.exponent = -(k : ℤ) := ⟨(-b.exponent).toNat, by omega⟩
    unfold Decimal.value
    have hten : (10 : ℚ) ^ k = 5 ^ k * 2 ^ k := by
      rw [← mul_pow]
      norm_num
    rw [hk, neg_neg, Int.toNat_natCast, Nat.cast_mul, Nat.pow_eq, Nat.cast_pow, Nat.cast_ofNat,
      zpow_neg, zpow_neg, zpow_natCast, zpow_natCast, hten]
    field_simp

/-- **The decimal of a finite double reads back.** -/
theorem nearestBits_shortestDecimal {bits : ℕ} (h : bits < infinityBits) :
    (shortestDecimal bits).nearestBits = bits := by
  have hexact : ∀ d : Decimal, d.value = (Binary.ofBits bits).value → d.nearestBits = bits :=
    fun d hd => Ratio.nearestBits_exact d.den_toRatio_pos h (d.value_toRatio.trans hd)
  unfold shortestDecimal
  dsimp only
  split
  · rename_i hzero
    refine hexact _ ?_
    unfold Decimal.value Binary.value
    rw [hzero, Nat.cast_zero, zero_mul, zero_mul]
  · cases hfind : List.findSome? _ _ with
    | none => exact hexact _ (Binary.value_toDecimal _)
    | some d =>
      obtain ⟨exponent, -, hd⟩ := List.exists_of_findSome?_eq_some hfind
      exact Ratio.nearestBits_of_gridNeighbour? hd

/-- **The text of a finite double is a numeral that reads back**, after the sign. -/
theorem shortestDecimal_numeral {bits : ℕ} (h : bits < infinityBits) :
    ∃ d, Numeral (shortestDecimal bits).plain d ∧ d.nearestBits = bits := by
  obtain ⟨d, hd, hvalue⟩ := (shortestDecimal bits).plain_numeral
  refine ⟨d, hd, ?_⟩
  rw [← nearestBits_shortestDecimal h]
  refine Ratio.nearestBits_congr d.den_toRatio_pos (Decimal.den_toRatio_pos _) ?_
  rw [Decimal.value_toRatio, Decimal.value_toRatio, hvalue]

theorem numberText_eq {x : Float} (h : x.isFinite = true) :
    numberText x = signText x ++ String.ofList (shortestDecimal (magnitudeBits x)).plain := by
  have hlt := magnitudeBits_lt h
  unfold numberText numberTextWith
  dsimp only
  rw [if_neg hlt.not_gt, if_neg hlt.ne]

end GradedScript
