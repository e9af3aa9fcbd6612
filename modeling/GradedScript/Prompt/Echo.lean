import GradedScript.Token.Chunk

/-!
# Echoing expressions

A bare expression typed at the prompt is printed: `a + 1` is run as `print a + 1;`. An entry counts
as one if it has no lexical fault, does not start like a statement, and does not end like one.
-/

namespace GradedScript

/-- Whether a chunk is a blank or a comment. -/
def Chunk.isTrivia (c : Chunk) : Bool :=
  match c.form with
  | .blank | .lineComment | .blockComment => true
  | _ => false

/-- Whether a chunk is text at fault. -/
def Chunk.isFault (c : Chunk) : Bool :=
  match c.form with
  | .fault _ => true
  | _ => false

/-- The kind of the token that a chunk is. -/
def Chunk.kind? (c : Chunk) : Option Kind :=
  match c.form with
  | .token kind _ => some kind
  | _ => none

/-- The chunks from the first token to the last. -/
def trimChunks (cs : List Chunk) : List Chunk :=
  ((cs.dropWhile Chunk.isTrivia).reverse.dropWhile Chunk.isTrivia).reverse

/-- Kinds that a statement other than an expression starts with. -/
def startsStatement : Kind → Bool
  | .kwVar | .kwFun | .kwClass | .kwIf | .kwWhile | .kwFor | .kwPrint | .kwReturn | .kwBreak
  | .leftBrace => true
  | _ => false

/-- Kinds that a statement ends with. -/
def endsStatement : Kind → Bool
  | .semicolon | .rightBrace => true
  | _ => false

/-- Whether tokens with these first and last kinds are taken for an expression. -/
def isBareExpression (first last : Kind) : Bool :=
  !startsStatement first && !endsStatement last

/-- The source to run for an entry: a bare expression is printed, all else stays as it is. -/
def echo (entry : String) : String :=
  let cs := chunks entry.toList
  if cs.any Chunk.isFault then entry
  else
    let trimmed := trimChunks cs
    match trimmed.head?.bind Chunk.kind?, trimmed.getLast?.bind Chunk.kind? with
    | some first, some last =>
      if isBareExpression first last then
        "print " ++ String.ofList (trimmed.flatMap Chunk.text) ++ ";"
      else entry
    | _, _ => entry

end GradedScript
