import GradedScript.CommandLine.Arguments
import GradedScript.CommandLine.Files
import GradedScript.Diagnostic.Notice
import GradedScript.Prompt.Dialogue
import GradedScript.Style.Report

/-!
# Launching

What the program does on a request: it shows help, runs a script, graded before if that is asked
for, or holds a dialogue with the lines of its input. The `Outcome` tells what is printed, what is
shown to the user, and the exit code.
-/

namespace GradedScript

/-- What the program did: its exit code, what it printed, and what it showed the user. -/
structure Outcome where
  code : Nat := 0
  output : ByteArray := .empty
  notices : List Notice := []
deriving Inhabited

namespace Outcome

/-- The exit code for wrong arguments. -/
def usageCode : Nat := 2

/-- The exit code for unreadable input at the prompt. -/
def inputCode : Nat := 1

/-- The exit code for scripts that are unreadable or have static faults. -/
def staticCode : Nat := 65

/-- The exit code for scripts that fail while they run. -/
def runtimeCode : Nat := 70

/-- The exit code for what is told about a script. -/
def codeFor (diagnostics : List Diagnostic) : Nat :=
  if diagnostics.any Diagnostic.isStatic then staticCode
  else if diagnostics.isEmpty then 0
  else runtimeCode

/-- Prints and shows one thing before what comes later. -/
def before (output : ByteArray) (notices : List Notice) (later : Outcome) : Outcome :=
  { later with output := output ++ later.output, notices := notices ++ later.notices }

end Outcome

/-- What is shown for diagnostics about one source. -/
def showAll (diagnostics : List Diagnostic) (source : String) (name : Option String) :
    List Notice :=
  diagnostics.flatMap fun d => d.notices source name

/-! ### Scripts -/

/-- Runs the text of a script. -/
def runText (host : Host) (path source : String) : Outcome :=
  let run := Session.fresh.run host Session.ampleBudget none source
  { code := Outcome.codeFor run.diagnostics
    output := run.written
    notices := showAll run.diagnostics source (some path) }

/-- The name of a written report. -/
def reportName : String := "grade.md"

/-- Reads a script. -/
def readScript {m : Type → Type} [Monad m] (files : Files m) (path : String) :
    m (Except FileError String) := do
  match ← files.read path with
  | .error e => return .error e
  | .ok content =>
    match String.fromUTF8? content with
    | some source => return .ok source
    | none => return .error .notText

/-- Grades a script, and writes the report to a directory; yields the line to print. -/
def writeGrade {m : Type → Type} [Monad m] (files : Files m) (dir source : String) :
    m (Except (List Diagnostic) String) := do
  match Report.ofSource source with
  | .error diagnostics => return .error diagnostics
  | .ok report =>
    let path := joinPath dir reportName
    match ← files.makeDirs dir with
    | .error e => return .error [.io e.message]
    | .ok () =>
      match ← files.write path report.render.toUTF8 with
      | .error e => return .error [.io e.message]
      | .ok () => return .ok ("Grade written to " ++ path ++ ". " ++ report.summary ++ "\n")

/-- Runs a script, after grading it if there is a directory for the report. -/
def runScript {m : Type → Type} [Monad m] (files : Files m) (host : Host) (path : String)
    (reportDir : Option String) : m Outcome := do
  match ← readScript files path with
  | .error e =>
    return { code := Outcome.staticCode, notices := plainNotices (Diagnostic.io e.message).text }
  | .ok source =>
    match reportDir with
    | none => return runText host path source
    | some dir =>
      match ← writeGrade files dir source with
      | .error diagnostics =>
        return { code := Outcome.staticCode
                 notices := showAll diagnostics source (some path) }
      | .ok line => return .before line.toUTF8 [] (runText host path source)

/-! ### Dialogues -/

/-- A line without the newline at its end, and without a carriage return before that. -/
def trimLineEnd (line : String) : String :=
  match line.toList.reverse with
  | '\n' :: '\r' :: cs => String.ofList cs.reverse
  | '\n' :: cs => String.ofList cs.reverse
  | _ => line

/-- The text of a line of input; none if it is no text. -/
def lineText? (line : ByteArray) : Option String :=
  (String.fromUTF8? line).map trimLineEnd

/-- Cuts bytes after each newline. -/
def byteLines : List UInt8 → List (List UInt8)
  | [] => []
  | b :: bs =>
    if b = 10 then [b] :: byteLines bs
    else
      match byteLines bs with
      | [] => [[b]]
      | line :: lines => (b :: line) :: lines

/-- What is shown for an entry at the prompt. -/
def Dialogue.Reply.notices (r : Dialogue.Reply) : List Notice :=
  showAll r.run.diagnostics r.source none

/-- The end of a dialogue whose input is no text. -/
def unreadableInput : Outcome :=
  { code := Outcome.inputCode
    notices := plainNotices ("REPL error: " ++ FileError.notText.message) }

/-- Holds a dialogue with lines of input. An entry that is not finished at the end is dropped. -/
def converse (host : Host) : Dialogue → List (List UInt8) → Outcome
  | _, [] => {}
  | d, line :: lines =>
    match lineText? ⟨line.toArray⟩ with
    | none => unreadableInput
    | some text =>
      match d.feed host Session.ampleBudget text with
      | (next, none) => converse host next lines
      | (next, some reply) => .before reply.run.written reply.notices (converse host next lines)

/-! ### Requests -/

/-- Does what is asked for. -/
def Request.answer {m : Type → Type} [Monad m] (files : Files m) (host : Host)
    (input : ByteArray) : Request → m Outcome
  | .help => return { output := helpText.toUTF8 }
  | .version => return { output := versionText.toUTF8 }
  | .prompt => return converse host .fresh (byteLines input.toList)
  | .script path reportDir => runScript files host path reportDir

/-- Does what the arguments ask for. -/
def launch {m : Type → Type} [Monad m] (files : Files m) (host : Host) (arguments : List String)
    (input : ByteArray) : m Outcome :=
  match Request.ofArguments arguments with
  | .error e =>
    return { code := Outcome.usageCode, notices := plainNotices ("error: " ++ e.message) }
  | .ok request => request.answer files host input

end GradedScript
