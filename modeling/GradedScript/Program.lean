import GradedScript.Parser
import GradedScript.Scan

/-!
# Programs

A source text read as a program: its statements, its line counts and all static faults, the lexical
ones first.
-/

namespace GradedScript

/-- A program as read from its source. -/
structure Program where
  statements : List Stmt
  comments : Comments
  errors : List Diagnostic
deriving Inhabited

/-- Reads a source text. -/
def Program.ofSource (source : String) : Program :=
  let scanned := scan source
  let parsed := parse scanned.tokens
  { statements := parsed.statements
    comments := scanned.comments
    errors := scanned.errors.map ScanError.diagnostic ++ parsed.errors.map ParseError.diagnostic }

end GradedScript
