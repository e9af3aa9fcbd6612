import GradedScript.Decimal.Shortest

/-!
# Numbers as text

Two ways to write a double. `numberText` writes the fewest digits that read back, always
positionally: no exponent, no point in an integral number, a sign for negative zero. `fixedText`
writes a set number of places of the exact value, a tie going to the even digit.
-/

namespace GradedScript

/-- The digits of a natural with leading zeros up to the given length. -/
def paddedDigits (length n : Nat) : List Char :=
  let digits := Nat.toDigits 10 n
  List.replicate (length - digits.length) '0' ++ digits

/-- The whole part and the fraction digits of `n / 10 ^ places`. -/
def splitPlaces (places n : Nat) : List Char × List Char :=
  let digits := paddedDigits (places + 1) n
  digits.splitAt (digits.length - places)

/-- A list without the zeros at its end. -/
def dropTrailingZeros (digits : List Char) : List Char :=
  (digits.reverse.dropWhile (· == '0')).reverse

/-- A decimal written out positionally, without zeros at the end of its fraction. -/
def Decimal.plain (d : Decimal) : List Char :=
  if 0 ≤ d.exponent then Nat.toDigits 10 (d.digits * Nat.pow 10 d.exponent.toNat)
  else
    let (whole, fraction) := splitPlaces (-d.exponent).toNat d.digits
    match dropTrailingZeros fraction with
    | [] => whole
    | fraction => whole ++ '.' :: fraction

/-- The sign that stands in front of a number. -/
def signText (x : Float) : String :=
  if signBit x then "-" else ""

/-- The shortest text of a double, with the given name for infinity. -/
def numberTextWith (infinity : String) (x : Float) : String :=
  let bits := magnitudeBits x
  if infinityBits < bits then "NaN"
  else if bits = infinityBits then signText x ++ infinity
  else signText x ++ String.ofList (shortestDecimal bits).plain

/-- The shortest text of a double, as literals and reports show it. -/
def numberText (x : Float) : String :=
  numberTextWith "inf" x

/-- The exact value of a finite double rounded to a number of places. -/
def fixedText (places : Nat) (x : Float) : String :=
  let exact := (Binary.ofBits (magnitudeBits x)).toRatio
  let (whole, fraction) := splitPlaces places (exact.scale 10 places).round
  signText x ++ String.ofList (if places = 0 then whole else whole ++ '.' :: fraction)

end GradedScript
