import GradedScript.Decimal.Nearest

/-!
# The fewest digits that read back

`Binary.shortest` finds the decimal with the fewest digits whose nearest double is a given one. For
`n = 1, 2, …` it looks at the two neighbours of the value on the grid of `n`-digit decimals; the
first grid on which one of them reads back wins. Of two neighbours that read back the nearer one
is taken, and a tie goes to the greater.
-/

namespace GradedScript

/-- The number of decimal digits of a natural; zero has one. -/
def decimalLength (n : Nat) : Nat :=
  (Nat.toDigits 10 n).length

/-- The least `k` for which a positive ratio is below `10 ^ k`. -/
def Ratio.decimalScale (q : Ratio) : Int :=
  if q.den ≤ q.num then decimalLength (q.num / q.den)
  else 1 - (decimalLength ((q.den - 1) / q.num) : Int)

/-- The neighbour of a ratio on the grid of step `10 ^ exponent` that reads back as the double
with the given bits, if one does. -/
def Ratio.gridNeighbour? (q : Ratio) (bits : Nat) (exponent : Int) : Option Decimal :=
  let scaled := q.scale 10 (-exponent)
  let low : Decimal := ⟨scaled.floor, exponent⟩
  let high : Decimal := ⟨scaled.floor + 1, exponent⟩
  match low.nearestBits == bits, high.nearestBits == bits with
  | true, true => if 2 * scaled.num < (2 * scaled.floor + 1) * scaled.den then low else high
  | true, false => low
  | false, true => high
  | false, false => none

/-- The exact value of a binary, written in decimal. -/
def Binary.toDecimal (b : Binary) : Decimal :=
  if 0 ≤ b.exponent then ⟨b.significand * Nat.pow 2 b.exponent.toNat, 0⟩
  else ⟨b.significand * Nat.pow 5 (-b.exponent).toNat, b.exponent⟩

/-- Seventeen digits tell any two doubles apart. -/
def enoughDigits : Nat := 17

/-- The decimal with the fewest digits that reads back as the finite double with these bits. Should
no grid have one, the exact value stands in for it. -/
def shortestDecimal (bits : Nat) : Decimal :=
  let exact := Binary.ofBits bits
  if exact.significand = 0 then ⟨0, 0⟩
  else
    let q := exact.toRatio
    let scale := q.decimalScale
    let grids := (List.range enoughDigits).map fun (n : Nat) => scale - (n + 1 : Nat)
    (grids.findSome? (q.gridNeighbour? bits)).getD exact.toDecimal

end GradedScript
