/-!
# Command-line arguments

`Request.ofArguments` reads the arguments from left to right. The first thing that settles the
matter wins: a request for help or for the version, or a fault. Options may stand before and after
the script, and a double dash ends them.
-/

namespace GradedScript

/-! ### Single arguments -/

/-- What an argument looks like. -/
inductive Argument where
  /-- a double dash -/
  | endOfOptions
  /-- a word after a double dash, with what follows an equals sign -/
  | long (name : String) (value : Option String)
  /-- a letter after a single dash; letters after the first are never reached -/
  | short (letter : Char)
  /-- anything else, a single dash among it -/
  | plain
deriving DecidableEq, Inhabited

/-- Splits a text at its first equals sign, if it has one. -/
def splitValue (text : List Char) : Argument :=
  let name := String.ofList (text.takeWhile (· != '='))
  match text.dropWhile (· != '=') with
  | _ :: value => .long name (some (String.ofList value))
  | [] => .long name none

/-- Tells what an argument looks like. -/
def Argument.ofString (text : String) : Argument :=
  match text.toList with
  | ['-', '-'] => .endOfOptions
  | '-' :: '-' :: rest => splitValue rest
  | '-' :: letter :: _ => .short letter
  | _ => .plain

/-! ### Requests -/

/-- What is wrong with the arguments. -/
inductive UsageError where
  | unexpectedArgument (text : String)
  | repeatedOption (option : String)
  | unexpectedValue (option : String)
  | missingValue (argument : String)
  | missingScript
deriving DecidableEq, Inhabited

/-- The wording of a fault in the arguments. -/
def UsageError.message : UsageError → String
  | .unexpectedArgument text => "unexpected argument '" ++ text ++ "' found"
  | .repeatedOption option => "the argument '" ++ option ++ "' cannot be used multiple times"
  | .unexpectedValue option => "unexpected value for '" ++ option ++ "' found"
  | .missingValue argument => "a value is required for '" ++ argument ++ "' but none was supplied"
  | .missingScript => "the following required arguments were not provided: <SCRIPT>"

/-- The options gathered so far. -/
structure Options where
  script : Option String := none
  grade : Bool := false
  reportDir : Option String := none
deriving DecidableEq, Inhabited

/-- What the user asks for. -/
inductive Request where
  | help
  | version
  /-- a dialogue at the prompt -/
  | prompt
  /-- to run a script, graded before that if there is a directory for the report -/
  | script (path : String) (reportDir : Option String)
deriving DecidableEq, Inhabited

namespace Options

/-- Where reports go if no directory is named. -/
def defaultReportDir : String := "CodeReview"

/-- Takes an argument for the script. -/
def setScript (o : Options) (path : String) : Except UsageError Options :=
  if o.script.isSome then .error (.unexpectedArgument path)
  else if path.isEmpty then .error (.missingValue "[SCRIPT]")
  else .ok { o with script := some path }

/-- Asks for a grade. -/
def setGrade (o : Options) : Except UsageError Options :=
  if o.grade then .error (.repeatedOption "--grade") else .ok { o with grade := true }

/-- Names the directory for the report. -/
def setReportDir (o : Options) (dir : String) : Except UsageError Options :=
  if o.reportDir.isSome then .error (.repeatedOption "--report-dir")
  else if dir.isEmpty then .error (.missingValue "--report-dir")
  else .ok { o with reportDir := some dir }

/-- The request that the options make; a grade needs a script. -/
def request (o : Options) : Except UsageError Request :=
  match o.script with
  | some path =>
    .ok (.script path (if o.grade then some (o.reportDir.getD defaultReportDir) else none))
  | none => if o.grade then .error .missingScript else .ok .prompt

/-- Takes all arguments for scripts. -/
def readPlain (o : Options) (arguments : List String) : Except UsageError Options :=
  arguments.foldlM setScript o

/-- Reads arguments with the options gathered before them. -/
def read (o : Options) : List String → Except UsageError Request
  | [] => o.request
  | text :: rest =>
    match Argument.ofString text with
    | .plain => do (← o.setScript text).read rest
    | .endOfOptions => do (← o.readPlain rest).request
    | .short 'h' | .long "help" none => .ok .help
    | .short 'V' | .long "version" none => .ok .version
    | .long "grade" none => do (← o.setGrade).read rest
    | .long "report-dir" (some dir) => do (← o.setReportDir dir).read rest
    | .long "report-dir" none =>
      match rest with
      | [] => .error (.missingValue "--report-dir")
      | dir :: rest =>
        if Argument.ofString dir = .plain then do (← o.setReportDir dir).read rest
        else .error (.missingValue "--report-dir")
    | .long "help" (some _) | .long "version" (some _) | .long "grade" (some _) =>
      .error (.unexpectedValue text)
    | .short _ | .long _ _ => .error (.unexpectedArgument text)

end Options

/-- The request that arguments make. -/
def Request.ofArguments (arguments : List String) : Except UsageError Request :=
  ({} : Options).read arguments

/-! ### Texts -/

/-- What is printed on request for the version. -/
def versionText : String := "evala 0.1.0\n"

/-- What is printed on request for help. -/
def helpText : String :=
  "Interpreter for the Evala scripting language\n\n" ++
  "Usage: evala [OPTIONS] [SCRIPT]\n\n" ++
  "Arguments:\n" ++
  "  [SCRIPT]  Script to run; starts the REPL when omitted\n\n" ++
  "Options:\n" ++
  "      --grade                    Grade the script's style before running it\n" ++
  "      --report-dir <REPORT_DIR>  Directory the grade report is written to " ++
  "[default: CodeReview]\n" ++
  "  -h, --help                     Print help\n" ++
  "  -V, --version                  Print version\n"

end GradedScript
