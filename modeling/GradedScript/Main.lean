import GradedScript.CommandLine.Launch
import Std.Time.DateTime.Timestamp

/-!
# The command line

Connects the program to real files, the clock, and the standard streams. What it does is decided by
`Request.ofArguments` and `Request.answer`; a dialogue is held line by line, so that each answer is
seen before the next line is typed.
-/

namespace GradedScript

/-- A failed access to a file. -/
def fileError : IO.Error → FileError
  | .noFileOrDirectory .. => .notFound
  | .alreadyExists .. => .alreadyExists
  | .inappropriateType _ code _ => if code = 21 then .isDirectory else .notDirectory
  | error => .other error.toString

/-- Tries to use a file. -/
def attempt {α : Type} (action : IO α) : IO (Except FileError α) := do
  match ← action.toBaseIO with
  | .ok result => return .ok result
  | .error error => return .error (fileError error)

/-- Access to the files of the system. -/
def systemFiles : Files IO where
  read path := attempt (IO.FS.readBinFile path)
  write path content := attempt (IO.FS.writeBinFile path content)
  makeDir path := attempt (IO.FS.createDir path)
  isDirectory path := return (← attempt (IO.FS.readBinFile path)) matches .error .isDirectory

/-- Surroundings that tell the time: each reading is a microsecond after the one before. -/
def systemHost : IO Host := do
  let now ← Std.Time.Timestamp.now
  let seconds := Float.ofInt now.toNanosecondsSinceUnixEpoch.toInt / 1000000000
  return { clock := fun reads => seconds + reads.toFloat / 1000000, action := fun _ _ => .yield .nil }

/-- Prints output, and shows notices. -/
def emit (output : ByteArray) (notices : List Notice) : IO Unit := do
  let stdout ← IO.getStdout
  stdout.write output
  stdout.flush
  for notice in notices do
    IO.eprintln notice.text

/-- Prints and shows an outcome, and yields its exit code. -/
def emitOutcome (outcome : Outcome) : IO UInt32 := do
  emit outcome.output outcome.notices
  return outcome.code.toUInt32

/-- Reads on to the end of a line, which belongs to it. -/
partial def readLine (input : IO.FS.Stream) (line : ByteArray) : IO ByteArray := do
  let next ← input.read 1
  if next.isEmpty then return line
  else if next.toList = [10] then return line ++ next
  else readLine input (line ++ next)

/-- Holds a dialogue on the standard streams. -/
partial def converseOnStreams (dialogue : Dialogue) : IO UInt32 := do
  let line ← readLine (← IO.getStdin) .empty
  if line.isEmpty then return 0
  match lineText? line with
  | none => emitOutcome unreadableInput
  | some text =>
    let (next, reply) := dialogue.feed (← systemHost) Session.ampleBudget text
    if let some reply := reply then
      emit reply.run.written reply.notices
    converseOnStreams next

end GradedScript

open GradedScript in
/-- Does what the arguments ask for. -/
def main (arguments : List String) : IO UInt32 := do
  match Request.ofArguments arguments with
  | .ok .prompt => converseOnStreams .fresh
  | _ => emitOutcome (← launch systemFiles (← systemHost) arguments .empty)
