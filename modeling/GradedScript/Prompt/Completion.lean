import GradedScript.Text.Bytes
import GradedScript.Text.Names
import GradedScript.Token.Chunk

/-!
# Completing words

The word that ends at the cursor is completed to the keywords and known names that begin with it,
in ascending order. An empty word has no completions.
-/

namespace GradedScript

/-- The characters of a text that lie in its first bytes. -/
def takeBytes : (text : List Char) → (bytes : Nat) → List Char
  | [], _ => []
  | c :: cs, bytes => if c.utf8Size ≤ bytes then c :: takeBytes cs (bytes - c.utf8Size) else []

/-- The word that a text ends with. -/
def lastWord (text : List Char) : List Char :=
  (text.reverse.takeWhile isWordChar).reverse

/-- Completions: where the completed word starts, in bytes, and what it may become. -/
structure Completions where
  start : Nat
  candidates : List String
deriving DecidableEq, Inhabited

/-- A completion as it is offered: how it is shown, and the text that takes the place of the word. -/
structure Offer where
  shown : String
  replacement : String
deriving DecidableEq, Inhabited

/-- The offers of completions. -/
def Completions.offers (c : Completions) : List Offer :=
  c.candidates.map fun name => ⟨name, name⟩

/-- The keywords and names that begin with a word, each once, in ascending order. -/
def candidates (names : List String) (word : List Char) : List String :=
  if word.isEmpty then []
  else
    let fitting := (keywords.map Prod.fst ++ names).filter fun name =>
      word.isPrefixOf name.toList
    sortNames (fitting.foldl (fun found name => addName name found) [])

/-- Completes the word before the cursor, which stands after `position` bytes of the line. -/
def complete (names : List String) (line : String) (position : Nat) : Completions :=
  let word := lastWord (takeBytes line.toList position)
  ⟨position - byteLength word, candidates names word⟩

end GradedScript
