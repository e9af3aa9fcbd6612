/-!
# Decimals and the doubles nearest to them

A `Decimal` is a natural number of digits scaled by a power of ten; a `Binary` is a natural
significand scaled by a power of two, which is what a finite double stands for. `Decimal.nearest`
reads a decimal as the double nearest to it: the exact ratio is rounded once, a tie goes to the
even significand, and what lies beyond the greatest double becomes infinity.

Everything is computed on naturals, from and to the 64 bits of a `Float`; no floating-point
operation takes part.
-/

namespace GradedScript

/-- The number `digits * 10 ^ exponent`. -/
structure Decimal where
  digits : Nat
  exponent : Int
deriving DecidableEq, Inhabited

/-- The number `significand * 2 ^ exponent`. -/
structure Binary where
  significand : Nat
  exponent : Int
deriving DecidableEq, Inhabited

/-! ### Ratios -/

/-- A ratio of naturals. The denominator is never zero where one is built. -/
structure Ratio where
  num : Nat
  den : Nat

/-- The exact value of a decimal as a ratio. -/
def Decimal.toRatio (d : Decimal) : Ratio :=
  ⟨d.digits * Nat.pow 10 d.exponent.toNat, Nat.pow 10 (-d.exponent).toNat⟩

/-- The exact value of a binary as a ratio. -/
def Binary.toRatio (b : Binary) : Ratio :=
  ⟨b.significand * Nat.pow 2 b.exponent.toNat, Nat.pow 2 (-b.exponent).toNat⟩

/-- The ratio multiplied by `base ^ exponent`. -/
def Ratio.scale (q : Ratio) (base : Nat) (exponent : Int) : Ratio :=
  ⟨q.num * base.pow exponent.toNat, q.den * base.pow (-exponent).toNat⟩

/-- The ratio rounded down. -/
def Ratio.floor (q : Ratio) : Nat :=
  q.num / q.den

/-- The nearest natural, a tie going to the even one. -/
def Ratio.round (q : Ratio) : Nat :=
  let low := q.num / q.den
  match compare (2 * (q.num % q.den)) q.den with
  | .lt => low
  | .gt => low + 1
  | .eq => low + low % 2

/-- The exponent of the greatest power of two that is at most the ratio. -/
def Ratio.log2 (q : Ratio) : Int :=
  let guess : Int := (Nat.log2 q.num : Int) - Nat.log2 q.den
  let scaled := q.scale 2 (-guess)
  if scaled.num < scaled.den then guess - 1 else guess

/-! ### The bits of a double -/

/-- The exponent of the least positive double. -/
def leastExponent : Int := -1074

/-- The bits of positive infinity, one more than those of the greatest double. -/
def infinityBits : Nat := 0x7FF * Nat.pow 2 52

/-- The bits of the double nearest to a positive ratio, ties to even. A significand that rounds
up to `2 ^ 53` carries into the exponent, which is the right double again. -/
def Ratio.nearestBits (q : Ratio) : Nat :=
  if q.num = 0 then 0
  else
    let exponent := max (q.log2 - 52) leastExponent
    let significand := (q.scale 2 (-exponent)).round
    min infinityBits ((exponent - leastExponent).toNat * Nat.pow 2 52 + significand)

/-- The bits of the double nearest to a decimal. -/
def Decimal.nearestBits (d : Decimal) : Nat :=
  d.toRatio.nearestBits

/-- The double nearest to a decimal. -/
def Decimal.nearest (d : Decimal) : Float :=
  Float.ofBits (UInt64.ofNat d.nearestBits)

/-- The sign bit of a double; negative zero has one too. -/
def signBit (x : Float) : Bool :=
  Nat.pow 2 63 ≤ x.toBits.toNat

/-- The bits of a double without its sign. -/
def magnitudeBits (x : Float) : Nat :=
  x.toBits.toNat % Nat.pow 2 63

/-- The exact value of the finite double with these bits. -/
def Binary.ofBits (bits : Nat) : Binary :=
  let field : Nat := bits / Nat.pow 2 52
  let fraction : Nat := bits % Nat.pow 2 52
  if field = 0 then ⟨fraction, leastExponent⟩
  else ⟨Nat.pow 2 52 + fraction, (field : Int) - 1 + leastExponent⟩

/-! ### Reading numerals -/

/-- The value of a string of decimal digits. -/
def digitsValue (digits : List Char) : Nat :=
  digits.foldl (fun value digit => 10 * value + (digit.toNat - '0'.toNat)) 0

/-- The decimal written as `whole`, or as `whole.fraction`. -/
def Decimal.ofNumeral (whole fraction : List Char) : Decimal :=
  ⟨digitsValue (whole ++ fraction), -(fraction.length : Int)⟩

end GradedScript
