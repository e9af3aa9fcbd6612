import GradedScript.Diagnostic
import GradedScript.Text.Bytes

/-!
# Places in a shown source

A diagnostic is shown with the line and column it starts at, counted in characters. `charSpan` turns
its bytes into characters, and `place?` finds the line and column. A shown source breaks into lines
at more separators than a script does: `isLineEnd` lists them, and a carriage return with a newline
after it is one separator.
-/

namespace GradedScript

/-- A stretch of text, in characters. -/
structure CharSpan where
  start : Nat
  stop : Nat
deriving DecidableEq, Inhabited

/-- The characters before a byte offset; an offset inside a character stands for itself. -/
def charOffset (text : List Char) (offset : Nat) : Nat :=
  (charsBefore? text offset).getD offset

/-- A stretch of bytes as one of characters. The bytes are cut to the text and put in order; the
characters may be out of order, as an end inside a character stands for itself. -/
def charSpan (source : String) (span : Span) : CharSpan :=
  let text := source.toList
  let stop := min span.stop (byteLength text)
  let start := min span.start stop
  ⟨charOffset text start, charOffset text stop⟩

/-- The characters that end a line: carriage return, newline, vertical tab, form feed, next line,
line separator and paragraph separator. -/
def isLineEnd (c : Char) : Bool :=
  c == '\r' || c == '\n' || c == '\x0b' || c == '\x0c' || c == '\u0085' || c == '\u2028' ||
    c == '\u2029'

/-- The lengths of lines, with their separators; `length` characters of the first are read
already. -/
def lineLengthsFrom (length : Nat) : List Char → List Nat
  | [] => if length = 0 then [] else [length]
  | '\r' :: '\n' :: cs => (length + 2) :: lineLengthsFrom 0 cs
  | c :: cs =>
    if isLineEnd c then (length + 1) :: lineLengthsFrom 0 cs else lineLengthsFrom (length + 1) cs

/-- The lengths of the lines of a text. What follows the last separator is a line only if it is not
empty, but an empty text has one line. -/
def lineLengths (text : List Char) : List Nat :=
  match lineLengthsFrom 0 text with
  | [] => [0]
  | lengths => lengths

/-- The line and column, both from one on, of a place among lines; the end belongs to the last
line, and there is nothing beyond it. -/
def placeFrom? (line : Nat) : (lengths : List Nat) → (offset : Nat) → Option (Nat × Nat)
  | [], _ => none
  | [length], offset => if offset ≤ length then some (line, offset + 1) else none
  | length :: lengths, offset =>
    if offset < length then some (line, offset + 1)
    else placeFrom? (line + 1) lengths (offset - length)

/-- The line and column of a place in a text. -/
def place? (text : List Char) (offset : Nat) : Option (Nat × Nat) :=
  placeFrom? 1 (lineLengths text) offset

end GradedScript
