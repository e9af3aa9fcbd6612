import GradedScript.Scan

/-!
# Entries typed at the prompt

An `Entry` collects lines until every brace is closed; then the whole text is handed over. Braces
are counted on tokens, so those in strings and comments do not count.
-/

namespace GradedScript

/-- The depth of braces after one more token; a closing brace too many is passed over. -/
def braceStep (depth : Nat) (token : Token) : Nat :=
  match token.kind with
  | .leftBrace => depth + 1
  | .rightBrace => depth - 1
  | _ => depth

/-- The number of braces left open at the end of a text. -/
def openBraces (source : String) : Nat :=
  (scan source).tokens.foldl braceStep 0

/-- An entry in progress: the lines typed so far, and the braces open after them. -/
structure Entry where
  pending : String := ""
  depth : Nat := 0
deriving DecidableEq, Inhabited

namespace Entry

/-- What the user is prompted with: the number of open braces, if there are any. -/
def prompt (e : Entry) : String :=
  if e.depth = 0 then "> " else ".." ++ toString e.depth ++ " "

/-- Adds a line; yields the whole entry, and starts anew, once no brace is open. -/
def feed (e : Entry) (line : String) : Entry × Option String :=
  let pending := e.pending ++ line ++ "\n"
  match openBraces pending with
  | 0 => ({}, some pending)
  | depth => ({ pending, depth }, none)

/-- Drops what was typed. -/
def cancel (_ : Entry) : Entry := {}

/-- Whether nothing is pending. -/
def idle (e : Entry) : Bool :=
  e.pending.isEmpty

end Entry

end GradedScript
