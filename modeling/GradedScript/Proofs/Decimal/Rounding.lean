import GradedScript.Decimal.Shortest
import Mathlib

/-!
# Rounding to doubles

Decimals, binaries and ratios of naturals all stand for rational numbers. The double nearest to a
ratio depends only on the number that it stands for (`Ratio.nearestBits_congr`), and the double
nearest to the number that a finite double stands for is that double (`Ratio.nearestBits_exact`).
-/

namespace GradedScript

/-! ## Numbers -/

/-- The number that a ratio stands for. -/
def Ratio.value (q : Ratio) : ℚ :=
  q.num / q.den

/-- The number that a decimal stands for. -/
def Decimal.value (d : Decimal) : ℚ :=
  d.digits * 10 ^ d.exponent

/-- The number that a binary stands for. -/
def Binary.value (b : Binary) : ℚ :=
  b.significand * 2 ^ b.exponent

/-- An exponent is the difference of two naturals, one of which is zero. -/
theorem pow_toNat_div {base : ℕ} (hbase : base ≠ 0) (e : ℤ) :
    ((base.pow e.toNat : ℕ) : ℚ) / (base.pow (-e).toNat : ℕ) = (base : ℚ) ^ e := by
  have hbase' : (base : ℚ) ≠ 0 := Nat.cast_ne_zero.2 hbase
  rw [Nat.pow_eq, Nat.pow_eq, Nat.cast_pow, Nat.cast_pow, ← zpow_natCast, ← zpow_natCast,
    ← zpow_sub₀ hbase']
  congr 1
  omega

theorem Decimal.value_toRatio (d : Decimal) : d.toRatio.value = d.value := by
  have hpow := pow_toNat_div (show 10 ≠ 0 by decide) d.exponent
  rw [Ratio.value, Decimal.toRatio, Nat.cast_mul, mul_div_assoc, hpow]
  rfl

theorem Decimal.den_toRatio_pos (d : Decimal) : 0 < d.toRatio.den :=
  Nat.pow_pos (by decide)

section

variable {q r : Ratio} {base : ℕ} {e : ℤ}

theorem Ratio.value_scale (hbase : base ≠ 0) : (q.scale base e).value = q.value * base ^ e := by
  rw [Ratio.value, Ratio.scale, Nat.cast_mul, Nat.cast_mul, mul_div_mul_comm, pow_toNat_div hbase]
  rfl

theorem Ratio.den_scale_pos (hden : 0 < q.den) (hbase : base ≠ 0) : 0 < (q.scale base e).den :=
  Nat.mul_pos hden (Nat.pow_pos (Nat.pos_of_ne_zero hbase))

/-- Ratios stand for one number if they agree after multiplication by both denominators. -/
theorem Ratio.value_eq_iff (hq : 0 < q.den) (hr : 0 < r.den) :
    q.value = r.value ↔ q.num * r.den = r.num * q.den := by
  have hq' : (q.den : ℚ) ≠ 0 := Nat.cast_ne_zero.2 hq.ne'
  have hr' : (r.den : ℚ) ≠ 0 := Nat.cast_ne_zero.2 hr.ne'
  rw [Ratio.value, Ratio.value, div_eq_div_iff hq' hr']
  exact_mod_cast Iff.rfl

theorem Ratio.value_lt_one_iff (hden : 0 < q.den) : q.value < 1 ↔ q.num < q.den := by
  rw [Ratio.value, div_lt_one (Nat.cast_pos.2 hden), Nat.cast_lt]

theorem Ratio.value_pos (hden : 0 < q.den) (hnum : q.num ≠ 0) : 0 < q.value :=
  div_pos (Nat.cast_pos.2 (Nat.pos_of_ne_zero hnum)) (Nat.cast_pos.2 hden)

/-! ## Rounding -/

/-- Multiplying both parts of a ratio changes nothing for rounding. -/
theorem Ratio.round_expand {k : ℕ} (hk : 0 < k) : Ratio.round ⟨q.num * k, q.den * k⟩ = q.round := by
  have hcompare : compare (2 * (q.num % q.den * k)) (q.den * k) =
      compare (2 * (q.num % q.den)) q.den := by
    rw [← Nat.mul_assoc]
    rcases lt_trichotomy (2 * (q.num % q.den)) q.den with hlt | heq | hgt
    · rw [compare_lt_iff_lt.2 hlt, compare_lt_iff_lt.2 (Nat.mul_lt_mul_of_pos_right hlt hk)]
    · rw [heq, compare_eq_iff_eq.2 rfl, compare_eq_iff_eq.2 rfl]
    · rw [compare_gt_iff_gt.2 hgt, compare_gt_iff_gt.2 (Nat.mul_lt_mul_of_pos_right hgt hk)]
  unfold Ratio.round
  dsimp only
  rw [Nat.mul_div_mul_right _ _ hk, Nat.mul_mod_mul_right, hcompare]

/-- Rounding depends only on the number. -/
theorem Ratio.round_congr (hq : 0 < q.den) (hr : 0 < r.den) (h : q.value = r.value) :
    q.round = r.round := by
  rw [Ratio.value_eq_iff hq hr] at h
  calc q.round = Ratio.round ⟨q.num * r.den, q.den * r.den⟩ := (Ratio.round_expand hr).symm
    _ = Ratio.round ⟨r.num * q.den, r.den * q.den⟩ := by rw [h, Nat.mul_comm q.den]
    _ = r.round := Ratio.round_expand hq

/-- A natural is its own rounding. -/
theorem Ratio.round_natural {n : ℕ} (hden : 0 < q.den) (h : q.value = n) : q.round = n := by
  have hround : Ratio.round ⟨n, 1⟩ = n := by
    unfold Ratio.round
    simp only [Nat.div_one, Nat.mod_one]
    rfl
  rw [← hround]
  exact Ratio.round_congr hden Nat.one_pos (h.trans (by simp [Ratio.value]))

/-! ## The greatest power of two below -/

/-- The logarithms of both parts bound the number. -/
theorem Ratio.value_between (hden : 0 < q.den) (hnum : q.num ≠ 0) :
    (2 : ℚ) ^ ((q.num.log2 : ℤ) - q.den.log2 - 1) < q.value ∧
      q.value < 2 ^ ((q.num.log2 : ℤ) - q.den.log2 + 1) := by
  have hnum_ge : (2 : ℚ) ^ q.num.log2 ≤ q.num := by exact_mod_cast Nat.log2_self_le hnum
  have hnum_lt : (q.num : ℚ) < 2 ^ (q.num.log2 + 1) := by exact_mod_cast Nat.lt_log2_self
  have hden_ge : (2 : ℚ) ^ q.den.log2 ≤ q.den := by exact_mod_cast Nat.log2_self_le hden.ne'
  have hden_lt : (q.den : ℚ) < 2 ^ (q.den.log2 + 1) := by exact_mod_cast Nat.lt_log2_self
  have htwo : (2 : ℚ) ≠ 0 := two_ne_zero
  have hpos : (0 : ℚ) < q.den := Nat.cast_pos.2 hden
  have hlow : (2 : ℚ) ^ ((q.num.log2 : ℤ) - q.den.log2 - 1) = 2 ^ q.num.log2 / 2 ^ (q.den.log2 + 1) := by
    rw [← zpow_natCast, ← zpow_natCast, ← zpow_sub₀ htwo]
    congr 1
    push_cast
    ring
  have hhigh : (2 : ℚ) ^ ((q.num.log2 : ℤ) - q.den.log2 + 1) = 2 ^ (q.num.log2 + 1) / 2 ^ q.den.log2 := by
    rw [← zpow_natCast, ← zpow_natCast, ← zpow_sub₀ htwo]
    congr 1
    push_cast
    ring
  rw [hlow, hhigh, Ratio.value]
  constructor
  · calc (2 : ℚ) ^ q.num.log2 / 2 ^ (q.den.log2 + 1) < 2 ^ q.num.log2 / q.den := by gcongr
      _ ≤ q.num / q.den := by gcongr
  · calc (q.num : ℚ) / q.den < 2 ^ (q.num.log2 + 1) / q.den := by gcongr
      _ ≤ 2 ^ (q.num.log2 + 1) / 2 ^ q.den.log2 := by gcongr

theorem Ratio.log2_eq (hden : 0 < q.den) (hnum : q.num ≠ 0) : q.log2 = Int.log 2 q.value := by
  set guess : ℤ := (q.num.log2 : ℤ) - q.den.log2 with hguess
  obtain ⟨hlow, hhigh⟩ := Ratio.value_between hden hnum
  rw [← hguess] at hlow hhigh
  -- the scaled ratio is below one exactly if the number is below the guessed power
  have htest : (q.scale 2 (-guess)).num < (q.scale 2 (-guess)).den ↔ q.value < 2 ^ guess := by
    rw [← Ratio.value_lt_one_iff (Ratio.den_scale_pos hden two_ne_zero),
      Ratio.value_scale two_ne_zero, zpow_neg, ← div_eq_mul_inv, div_lt_one (by positivity)]
    rfl
  have hlog : ∀ n : ℤ, (2 : ℚ) ^ n ≤ q.value → q.value < 2 ^ (n + 1) → n = Int.log 2 q.value := by
    intro n hle hlt
    have hpos := Ratio.value_pos hden hnum
    have hle' := (Int.zpow_le_iff_le_log Nat.one_lt_two hpos).1 hle
    have hlt' := (Int.lt_zpow_iff_log_lt Nat.one_lt_two hpos).1 hlt
    omega
  show (if _ < _ then guess - 1 else guess) = _
  split
  · rename_i hbelow
    exact hlog _ hlow.le (by rw [sub_add_cancel]; exact htest.1 hbelow)
  · rename_i habove
    exact hlog _ (not_lt.1 (mt htest.2 habove)) hhigh

/-! ## The nearest double -/

/-- **The nearest double depends only on the number.** -/
theorem Ratio.nearestBits_congr (hq : 0 < q.den) (hr : 0 < r.den) (h : q.value = r.value) :
    q.nearestBits = r.nearestBits := by
  have hzero : q.num = 0 ↔ r.num = 0 := by
    rw [Ratio.value_eq_iff hq hr] at h
    constructor <;> intro hnum <;> rw [hnum, Nat.zero_mul] at h
    · exact (Nat.mul_eq_zero.1 h.symm).resolve_right hq.ne'
    · exact (Nat.mul_eq_zero.1 h).resolve_right hr.ne'
  unfold Ratio.nearestBits
  by_cases hnum : q.num = 0
  · rw [if_pos hnum, if_pos (hzero.1 hnum)]
  · rw [if_neg hnum, if_neg (mt hzero.2 hnum)]
    have hlog : q.log2 = r.log2 := by
      rw [Ratio.log2_eq hq hnum, Ratio.log2_eq hr (mt hzero.2 hnum), h]
    have hround : ∀ e, (q.scale 2 e).round = (r.scale 2 e).round := by
      intro e
      refine Ratio.round_congr (Ratio.den_scale_pos hq two_ne_zero)
        (Ratio.den_scale_pos hr two_ne_zero) ?_
      rw [Ratio.value_scale two_ne_zero, Ratio.value_scale two_ne_zero, h]
    rw [hlog]
    dsimp only
    rw [hround]

/-- The parts of the number of a finite double: at most 53 bits, all of them used unless the exponent
is the least, and the bits of the double from both parts. -/
theorem Binary.ofBits_parts (bits : ℕ) :
    (Binary.ofBits bits).significand < 2 ^ 53 ∧ leastExponent ≤ (Binary.ofBits bits).exponent ∧
      ((Binary.ofBits bits).exponent = leastExponent ∨ 2 ^ 52 ≤ (Binary.ofBits bits).significand) ∧
      ((Binary.ofBits bits).exponent - leastExponent).toNat * 2 ^ 52 +
        (Binary.ofBits bits).significand = bits := by
  have hfraction : bits % 2 ^ 52 < 2 ^ 52 := Nat.mod_lt _ (by positivity)
  have hsplit : bits / 2 ^ 52 * 2 ^ 52 + bits % 2 ^ 52 = bits := Nat.div_add_mod' bits (2 ^ 52)
  by_cases hfield : bits / 2 ^ 52 = 0
  · have hparts : Binary.ofBits bits = ⟨bits % 2 ^ 52, leastExponent⟩ := if_pos hfield
    rw [hparts]
    dsimp only
    refine ⟨by omega, le_rfl, .inl rfl, ?_⟩
    rw [sub_self, Int.toNat_zero, Nat.zero_mul, Nat.zero_add]
    omega
  · have hparts : Binary.ofBits bits =
        ⟨2 ^ 52 + bits % 2 ^ 52, ((bits / 2 ^ 52 : ℕ) : ℤ) - 1 + leastExponent⟩ := if_neg hfield
    rw [hparts]
    dsimp only
    refine ⟨by omega, by omega, .inr (Nat.le_add_right _ _), ?_⟩
    have hfield' : (((bits / 2 ^ 52 : ℕ) : ℤ) - 1 + leastExponent - leastExponent).toNat + 1 =
        bits / 2 ^ 52 := by omega
    rw [← Nat.add_assoc, ← Nat.succ_mul, Nat.succ_eq_add_one, hfield', hsplit]

/-- The number of a finite double is rounded at the exponent it has. -/
theorem Binary.exponent_ofBits {bits : ℕ} (h : (Binary.ofBits bits).significand ≠ 0) :
    max (Int.log 2 (Binary.ofBits bits).value - 52) leastExponent =
      (Binary.ofBits bits).exponent := by
  obtain ⟨hlt, hleast, hfull, -⟩ := Binary.ofBits_parts bits
  generalize Binary.ofBits bits = b at *
  have htwo : (2 : ℚ) ≠ 0 := two_ne_zero
  have hpos : 0 < b.value :=
    mul_pos (Nat.cast_pos.2 (Nat.pos_of_ne_zero h)) (zpow_pos two_pos _)
  have hbelow : ∀ n : ℕ, b.significand < 2 ^ n → Int.log 2 b.value < n + b.exponent := by
    intro n hn
    rw [← Int.lt_zpow_iff_log_lt Nat.one_lt_two hpos, Nat.cast_two, zpow_add₀ htwo, zpow_natCast]
    refine mul_lt_mul_of_pos_right ?_ (zpow_pos two_pos _)
    exact_mod_cast hn
  by_cases hge : 2 ^ 52 ≤ b.significand
  · have hlog := hbelow 53 hlt
    have hlog' : 52 + b.exponent ≤ Int.log 2 b.value := by
      rw [← Int.zpow_le_iff_le_log Nat.one_lt_two hpos, Nat.cast_two, zpow_add₀ htwo]
      refine mul_le_mul_of_nonneg_right ?_ (zpow_pos two_pos _).le
      exact_mod_cast hge
    omega
  · have hlog := hbelow 52 (not_le.1 hge)
    have hexponent := hfull.resolve_right hge
    omega

/-- **A finite double is nearest to its number.** -/
theorem Ratio.nearestBits_exact {bits : ℕ} (hden : 0 < q.den) (hbits : bits < infinityBits)
    (h : q.value = (Binary.ofBits bits).value) : q.nearestBits = bits := by
  obtain ⟨-, -, hfull, hparts⟩ := Binary.ofBits_parts bits
  have hnum : q.num = 0 ↔ (Binary.ofBits bits).significand = 0 := by
    have hvalue : q.value = 0 ↔ (Binary.ofBits bits).value = 0 := by rw [h]
    simpa [Ratio.value, Binary.value, hden.ne', zpow_ne_zero] using hvalue
  unfold Ratio.nearestBits
  by_cases hzero : q.num = 0
  · rw [if_pos hzero]
    have hleast := hfull.resolve_right (by rw [hnum.1 hzero]; decide)
    rw [hleast, hnum.1 hzero, sub_self] at hparts
    exact hparts
  · rw [if_neg hzero, Ratio.log2_eq hden hzero, h, Binary.exponent_ofBits (mt hnum.2 hzero)]
    have hround : (q.scale 2 (-(Binary.ofBits bits).exponent)).round =
        (Binary.ofBits bits).significand := by
      refine Ratio.round_natural (Ratio.den_scale_pos hden two_ne_zero) ?_
      rw [Ratio.value_scale two_ne_zero, h, Binary.value, mul_assoc, Nat.cast_two,
        ← zpow_add₀ two_ne_zero, add_neg_cancel, zpow_zero, mul_one]
    dsimp only
    rw [hround]
    show min infinityBits (_ * 2 ^ 52 + _) = bits
    rw [hparts]
    exact min_eq_right hbits.le

end

end GradedScript
