import GradedScript.Decimal.Text
import Mathlib

/-!
# Doubles as words

A finite double is a word of a sign, eleven bits of exponent and fifty-two of mantissa. Packing
gives back the fields that unpacking found, and negation changes the sign alone. So the bits of a
finite double without its sign are those of the double itself, or of its negative
(`ofBits_magnitudeBits`). A double that is read from a decimal has no sign (`signBit_nearest`).
-/

namespace GradedScript

open Float.Model Float.Model.UnpackedFloat

/-! ## Fields of a word -/

section

variable {b : BitVec Format.binary64.numBits} {s : Sign} {e : BitVec 11} {m : BitVec 52}

theorem toNat_packComponents : (packComponents .binary64 s e m).toNat =
    s.toBitVec.toNat * 2 ^ 63 + e.toNat * 2 ^ 52 + m.toNat := by
  show (s.toBitVec ++ e ++ m).toNat = _
  rw [BitVec.toNat_append, ← Nat.shiftLeft_add_eq_or_of_lt m.isLt, BitVec.toNat_append,
    ← Nat.shiftLeft_add_eq_or_of_lt e.isLt, Nat.shiftLeft_eq, Nat.shiftLeft_eq]
  ring

/-- The fields of a word, as numbers. -/
theorem toNat_fields (b : BitVec Format.binary64.numBits) :
    (unpackSign b).toNat = b.toNat / 2 ^ 63 % 2 ∧
      (unpackExponent b).toNat = b.toNat / 2 ^ 52 % 2 ^ 11 ∧
      (unpackMantissa b).toNat = b.toNat % 2 ^ 52 := by
  refine ⟨?_, ?_, ?_⟩
  · simp [unpackSign, BitVec.extractLsb, Nat.shiftRight_eq_div_pow]
  · simp [unpackExponent, BitVec.extractLsb, Nat.shiftRight_eq_div_pow]
  · simp [unpackMantissa, BitVec.extractLsb]

/-- A word is made of its fields. -/
theorem packComponents_fields (b : BitVec Format.binary64.numBits) :
    packComponents .binary64 (.ofBitVec (unpackSign b)) (unpackExponent b) (unpackMantissa b) = b := by
  have hsign : ∀ v : BitVec 1, (Sign.ofBitVec v).toBitVec = v := by decide
  have hlt : b.toNat < 2 ^ 64 := b.isLt
  obtain ⟨hs, he, hm⟩ := toNat_fields b
  refine BitVec.eq_of_toNat_eq ?_
  rw [toNat_packComponents, hsign, hs, he, hm]
  omega

/-- A word of a finite double, unpacked, is a sign with a number that does not depend on it. Packed
with any sign it has the same other fields. -/
theorem exists_unpacked (h : unpackExponent b ≠ -1#11) :
    ∃ u : Sign → UnpackedFloat, unpack .binary64 b = u (.ofBitVec (unpackSign b)) ∧
      ∀ s, (u s).neg = u (-s) ∧
        pack .binary64 (u s) = packComponents .binary64 s (unpackExponent b) (unpackMantissa b) := by
  have hbias : ((Format.binary64.exponentBias : Nat) : Int) = 1023 := rfl
  have hbits : Format.binary64.mantissaBits = 53 := rfl
  have hm : (unpackMantissa b).toNat < 2 ^ 52 := (unpackMantissa b).isLt
  by_cases hexponent : unpackExponent b = 0#11
  · by_cases hmantissa : unpackMantissa b = 0#52
    · refine ⟨.zero, ?_, fun s => ⟨rfl, ?_⟩⟩
      · unfold UnpackedFloat.unpack
        simp [hexponent, hmantissa]
      · rw [hexponent, hmantissa]
        rfl
    · have hpos : 0 < (unpackMantissa b).toNat := by
        rw [Nat.pos_iff_ne_zero]
        exact fun hzero => hmantissa (BitVec.eq_of_toNat_eq hzero)
      refine ⟨fun s => .finite s (unpackMantissa b).toNat (-1074) hpos, ?_, fun s => ⟨rfl, ?_⟩⟩
      · unfold UnpackedFloat.unpack
        simp [hexponent, hmantissa, hbias]
      · have hlog : (unpackMantissa b).toNat.log2 < 52 := (Nat.log2_lt hpos.ne').2 hm
        unfold UnpackedFloat.pack
        rw [hexponent]
        simp [hbias, hbits, hlog.ne]
  · have hfield : (unpackExponent b).toNat < 2047 := by
      have hlt : (unpackExponent b).toNat < 2048 := (unpackExponent b).isLt
      have hne : (unpackExponent b).toNat ≠ 2047 := fun hones => h (BitVec.eq_of_toNat_eq hones)
      omega
    have hone : (1#1 ++ unpackMantissa b).toNat = 2 ^ 52 + (unpackMantissa b).toNat := by
      rw [BitVec.toNat_append, ← Nat.shiftLeft_add_eq_or_of_lt (unpackMantissa b).isLt]
      rfl
    have hpos : 0 < (1#1 ++ unpackMantissa b).toNat := by omega
    refine ⟨fun s => .finite s (1#1 ++ unpackMantissa b).toNat
      ((unpackExponent b).toNat - 1075) hpos, ?_, fun s => ⟨rfl, ?_⟩⟩
    · unfold UnpackedFloat.unpack
      dsimp only
      rw [if_neg h, if_neg hexponent]
      rfl
    · have hlog : (1#1 ++ unpackMantissa b).toNat.log2 + 1 = 53 := by
        have hle : 52 ≤ (1#1 ++ unpackMantissa b).toNat.log2 := (Nat.le_log2 hpos.ne').2 (by omega)
        have hlt : (1#1 ++ unpackMantissa b).toNat.log2 < 53 := (Nat.log2_lt hpos.ne').2 (by omega)
        omega
      have hbiased : (((unpackExponent b).toNat : Int) - 1075 + 1023 + 52).toNat =
          (unpackExponent b).toNat := by omega
      have hmantissa : BitVec.ofNat 52 (1#1 ++ unpackMantissa b).toNat = unpackMantissa b := by
        refine BitVec.eq_of_toNat_eq ?_
        rw [BitVec.toNat_ofNat, hone, Nat.add_mod_left, Nat.mod_eq_of_lt hm]
      have hexponent : BitVec.ofNat 11 (unpackExponent b).toNat = unpackExponent b := by
        rw [BitVec.ofNat_toNat, BitVec.setWidth_eq]
      show (if 2 ^ 11 ≤ (((unpackExponent b).toNat : Int) - 1075 + 1023 + 52).toNat + 1 then _
        else if (1#1 ++ unpackMantissa b).toNat.log2 + 1 = 53 then _ else _) = _
      rw [if_neg (by omega), if_pos hlog]
      show packComponents .binary64 s
        (BitVec.ofNat 11 (((unpackExponent b).toNat : Int) - 1075 + 1023 + 52).toNat)
        (BitVec.ofNat 52 (1#1 ++ unpackMantissa b).toNat) = _
      rw [hbiased, hmantissa, hexponent]

/-- Words below that of infinity have an exponent below the greatest. -/
theorem unpackExponent_of_lt (h : b.toNat < infinityBits) : unpackExponent b ≠ -1#11 := by
  intro hones
  obtain ⟨-, he, -⟩ := toNat_fields b
  rw [hones] at he
  have h : b.toNat < 2047 * 2 ^ 52 := h
  have he : 2047 = b.toNat / 2 ^ 52 % 2 ^ 11 := he
  omega

/-- Packing undoes unpacking. -/
theorem pack_unpack (h : unpackExponent b ≠ -1#11) : pack .binary64 (unpack .binary64 b) = b := by
  obtain ⟨u, hunpack, hu⟩ := exists_unpacked h
  rw [hunpack, (hu _).2, packComponents_fields]

end

/-! ## Bits of a double -/

/-- The word that a double is. -/
def bitWord (x : Float) : BitVec Format.binary64.numBits :=
  x.toBits.toBitVec

section

variable {x y : Float}

/-- Doubles of one word are equal. -/
theorem eq_of_bitWord_eq (h : bitWord x = bitWord y) : x = y := by
  obtain ⟨⟨⟨b⟩, _⟩⟩ := x
  obtain ⟨⟨⟨b'⟩, _⟩⟩ := y
  obtain rfl : b = b' := h
  rfl

/-- A finite double has an exponent below the greatest. -/
theorem unpackExponent_of_isFinite (h : x.isFinite = true) : unpackExponent (bitWord x) ≠ -1#11 := by
  intro hones
  have hfinite : (unpack .binary64 (bitWord x)).isFinite = true := h
  unfold UnpackedFloat.unpack at hfinite
  dsimp only at hfinite
  rw [if_pos hones] at hfinite
  split at hfinite <;> cases hfinite

theorem magnitudeBits_lt (h : x.isFinite = true) : magnitudeBits x < infinityBits := by
  obtain ⟨-, he, -⟩ := toNat_fields (bitWord x)
  have hne : (bitWord x).toNat / 2 ^ 52 % 2 ^ 11 ≠ 2047 := fun hones =>
    unpackExponent_of_isFinite h (BitVec.eq_of_toNat_eq (he.trans hones))
  show (bitWord x).toNat % 2 ^ 63 < 2047 * 2 ^ 52
  omega

theorem sign_bitWord (x : Float) :
    Sign.ofBitVec (unpackSign (bitWord x)) = if signBit x then .negative else .positive := by
  obtain ⟨hs, -, -⟩ := toNat_fields (bitWord x)
  have hlt : (bitWord x).toNat < 2 ^ 64 := (bitWord x).isLt
  have hsign : signBit x = decide (2 ^ 63 ≤ (bitWord x).toNat) := rfl
  by_cases hset : 2 ^ 63 ≤ (bitWord x).toNat
  · have hone : (bitWord x).toNat / 2 ^ 63 % 2 = 1 := by omega
    rw [show unpackSign (bitWord x) = 1#1 from BitVec.eq_of_toNat_eq (hs.trans hone), hsign,
      decide_eq_true hset]
    rfl
  · have hzero : (bitWord x).toNat / 2 ^ 63 % 2 = 0 := by omega
    rw [show unpackSign (bitWord x) = 0#1 from BitVec.eq_of_toNat_eq (hs.trans hzero), hsign,
      decide_eq_false hset]
    rfl

/-- The bits of a double without its sign, as a word. -/
theorem toBitVec_magnitudeBits (x : Float) : (UInt64.ofNat (magnitudeBits x)).toBitVec =
    packComponents .binary64 .positive (unpackExponent (bitWord x)) (unpackMantissa (bitWord x)) := by
  obtain ⟨-, he, hm⟩ := toNat_fields (bitWord x)
  refine BitVec.eq_of_toNat_eq ?_
  rw [toNat_packComponents, he, hm]
  show (bitWord x).toNat % 2 ^ 63 % 2 ^ 64 =
    0 * 2 ^ 63 + (bitWord x).toNat / 2 ^ 52 % 2 ^ 11 * 2 ^ 52 + (bitWord x).toNat % 2 ^ 52
  omega

/-- **The bits of a finite double without its sign** are those of the double, or of its negative if
it has a sign. -/
theorem ofBits_magnitudeBits (h : x.isFinite = true) :
    Float.ofBits (UInt64.ofNat (magnitudeBits x)) = if signBit x then -x else x := by
  have hexponent := unpackExponent_of_isFinite h
  refine eq_of_bitWord_eq ?_
  have hofBits : bitWord (Float.ofBits (UInt64.ofNat (magnitudeBits x))) =
      packComponents .binary64 .positive (unpackExponent (bitWord x))
        (unpackMantissa (bitWord x)) := by
    show pack .binary64 (unpack .binary64 (UInt64.ofNat (magnitudeBits x)).toBitVec) = _
    rw [toBitVec_magnitudeBits]
    refine pack_unpack ?_
    rwa [unpackExponent_packComponents]
  have hsign := sign_bitWord x
  rw [hofBits]
  split
  · rename_i hset
    rw [if_pos hset] at hsign
    obtain ⟨u, hunpack, hu⟩ := exists_unpacked hexponent
    show _ = pack .binary64 (unpack .binary64 (bitWord x)).neg
    rw [hunpack, hsign, (hu _).1, (hu _).2]
    rfl
  · rename_i hclear
    rw [if_neg hclear] at hsign
    rw [← hsign, packComponents_fields]

end

/-- Bits up to those of infinity are those of a double without sign. -/
theorem signBit_ofBits {bits : Nat} (h : bits ≤ infinityBits) :
    signBit (Float.ofBits (UInt64.ofNat bits)) = false := by
  rcases h.eq_or_lt with rfl | hlt
  · decide +kernel
  · have hbits : (UInt64.ofNat bits).toBitVec.toNat = bits := by
      have hlt : bits < 2047 * 2 ^ 52 := hlt
      show bits % 2 ^ 64 = bits
      omega
    have hword : bitWord (Float.ofBits (UInt64.ofNat bits)) = (UInt64.ofNat bits).toBitVec :=
      pack_unpack (unpackExponent_of_lt (hbits.trans_lt hlt))
    have hsign : signBit (Float.ofBits (UInt64.ofNat bits)) =
      decide (2 ^ 63 ≤ (bitWord (Float.ofBits (UInt64.ofNat bits))).toNat) := rfl
    rw [hsign, hword, hbits]
    have hlt : bits < 2047 * 2 ^ 52 := hlt
    exact decide_eq_false (by omega)

/-- The double nearest to a decimal has no sign. -/
theorem signBit_nearest (d : Decimal) : signBit d.nearest = false := by
  refine signBit_ofBits ?_
  unfold Decimal.nearestBits Ratio.nearestBits
  split
  · exact Nat.zero_le _
  · exact Nat.min_le_left _ _

end GradedScript
