import GradedScript.Prompt.Completion
import GradedScript.Prompt.Echo
import GradedScript.Prompt.Entry
import GradedScript.Session

/-!
# Dialogues

A dialogue is a session at the prompt: lines are collected into entries, each finished entry is run,
and the names it leaves can be completed from then on.
-/

namespace GradedScript

/-- A dialogue: its session, the entry in progress, and the names to complete. -/
structure Dialogue where
  session : Session
  entry : Entry := {}
  known : List String := []
deriving Inhabited

namespace Dialogue

/-- A dialogue in which nothing was typed yet. -/
def fresh : Dialogue :=
  { session := .fresh }

/-- What became of a finished entry: its text, the source that was run, and its run. -/
structure Reply where
  entry : String
  source : String
  run : Session.Run
deriving Inhabited

/-- Adds a line, and runs the entry if that finishes it. -/
def feed (d : Dialogue) (host : Host) (budget : Nat) (line : String) : Dialogue × Option Reply :=
  match d.entry.feed line with
  | (next, none) => ({ d with entry := next }, none)
  | (next, some text) =>
    let source := echo text
    let run := d.session.run host budget none source
    ({ session := run.session, entry := next, known := run.session.names },
      some ⟨text, source, run⟩)

/-- Drops the entry in progress. -/
def cancel (d : Dialogue) : Dialogue :=
  { d with entry := d.entry.cancel }

/-- Completes the word before the cursor. -/
def complete (d : Dialogue) (line : String) (position : Nat) : Completions :=
  GradedScript.complete d.known line position

end Dialogue

end GradedScript
