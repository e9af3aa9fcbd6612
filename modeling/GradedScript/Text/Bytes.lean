/-!
# Texts counted in bytes

Places in a source are counted in bytes of UTF-8. Here are the length of a text in bytes, and the
way from a byte offset to a number of characters.
-/

namespace GradedScript

/-- The length of a text in bytes of UTF-8. -/
def byteLength (text : List Char) : Nat :=
  text.foldr (fun c length => c.utf8Size + length) 0

/-- The number of characters in the first bytes of a text; none if the offset is inside a character
or past the end. -/
def charsBefore? : (text : List Char) → (offset : Nat) → Option Nat
  | _, 0 => some 0
  | [], _ + 1 => none
  | c :: cs, offset =>
    if c.utf8Size ≤ offset then (charsBefore? cs (offset - c.utf8Size)).map (· + 1) else none

end GradedScript
