import GradedScript.Diagnostic.Place

/-!
# Notices

A diagnostic as the user gets to see it: a headline with the place in the source it points to, or
plain lines if it points nowhere.
-/

namespace GradedScript

/-- The colour a place is marked with. -/
inductive Colour where
  | red
  | yellow
deriving DecidableEq, Inhabited

/-- The name of a colour. -/
def Colour.name : Colour → String
  | .red => "red"
  | .yellow => "yellow"

/-- One thing shown to the user. -/
inductive Notice where
  | plain (line : String)
  | located (header place : String) (colour : Colour)
deriving DecidableEq, Inhabited

/-- A notice as lines of text. -/
def Notice.text : Notice → String
  | .plain line => line
  | .located header place _ => header ++ "\n  at " ++ place

/-- Plain notices, one for each line of a text. -/
def plainNotices (text : String) : List Notice :=
  (text.splitOn "\n").map .plain

/-- The place of a stretch of a named source. -/
def placeText (name source : String) (span : CharSpan) : String :=
  match place? source.toList span.start with
  | some (line, column) => name ++ ":" ++ toString line ++ ":" ++ toString column
  | none => name ++ ":?:?"

/-- The name of a source that is no file. -/
def promptName : String := "<repl>"

/-- A program that failed while it ran is marked yellow, one that did not run red. -/
def Diagnostic.colour (d : Diagnostic) : Colour :=
  if d.isRuntime then .yellow else .red

/-- What is shown for a diagnostic about a source. -/
def Diagnostic.notices (d : Diagnostic) (source : String) (name : Option String) : List Notice :=
  match d.span? with
  | none => plainNotices d.text
  | some span =>
    [.located ("Error: " ++ d.text)
      (placeText (name.getD promptName) source (charSpan source span)) d.colour]

end GradedScript
