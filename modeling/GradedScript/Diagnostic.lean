import GradedScript.Token

/-!
# Diagnostics

What is told about a fault: which stage found it, the message, and the place it points to. Faults
found before a program runs are *static*. `Diagnostic.text` is the wording shown to the user.
-/

namespace GradedScript

/-- A fault as it is reported. -/
inductive Diagnostic where
  /-- reading a script or writing output failed -/
  | io (message : String)
  /-- the text is no token -/
  | scan (message : String) (line : Nat) (span : Span)
  /-- the tokens are no program; `location` names the token at fault -/
  | parse (message location : String) (line : Nat) (span : Span)
  /-- the program failed while it ran -/
  | runtime (message : String) (line : Nat) (span : Span)
deriving DecidableEq, Inhabited

/-- How a report names a token: by its text, or as the end. -/
def Token.location (t : Token) : String :=
  if t.kind = .eof then " at end" else " at '" ++ t.lexeme ++ "'"

/-- A parse fault at a token. -/
def Diagnostic.parseAt (token : Token) (message : String) : Diagnostic :=
  .parse message token.location token.line token.span

/-- A runtime fault at a token. -/
def Diagnostic.runtimeAt (token : Token) (message : String) : Diagnostic :=
  .runtime message token.line token.span

/-- The message alone. -/
def Diagnostic.message : Diagnostic → String
  | .io message => message
  | .scan message _ _ => message
  | .parse message _ _ _ => message
  | .runtime message _ _ => message

/-- The line of the fault. -/
def Diagnostic.line? : Diagnostic → Option Nat
  | .io _ => none
  | .scan _ line _ => some line
  | .parse _ _ line _ => some line
  | .runtime _ line _ => some line

/-- The stretch of source at fault. -/
def Diagnostic.span? : Diagnostic → Option Span
  | .io _ => none
  | .scan _ _ span => some span
  | .parse _ _ _ span => some span
  | .runtime _ _ span => some span

/-- The name of the token at fault. -/
def Diagnostic.location? : Diagnostic → Option String
  | .parse _ location _ _ => some location
  | _ => none

/-- Whether the fault was found before anything ran. -/
def Diagnostic.isStatic : Diagnostic → Bool
  | .scan .. => true
  | .parse .. => true
  | _ => false

/-- Whether the fault arose while the program ran. -/
def Diagnostic.isRuntime : Diagnostic → Bool
  | .runtime .. => true
  | _ => false

/-- The mark of a line in a report. -/
def lineMark (line : Nat) : String :=
  "[line " ++ toString line ++ "]"

/-- The whole wording. -/
def Diagnostic.text : Diagnostic → String
  | .io message => "Could not read script: " ++ message
  | .scan message line _ => lineMark line ++ " Error: " ++ message
  | .parse message location line _ => lineMark line ++ " Error" ++ location ++ ": " ++ message
  | .runtime message line _ => message ++ "\n" ++ lineMark line

end GradedScript
