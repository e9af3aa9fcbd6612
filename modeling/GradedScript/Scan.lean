import GradedScript.Diagnostic
import GradedScript.Text.Bytes
import GradedScript.Token.Chunk

/-!
# Scanning

`scan` reads a source text into positioned items, tokens and lexical faults, with an end token
last, and counts its lines of code and comment for the style grades. It walks over the chunks of
the text with a cursor that knows the byte offset and the line.
-/

namespace GradedScript

/-- A place in the source: the bytes before it, and the line it is on. -/
structure Cursor where
  offset : Nat := 0
  line : Nat := 1
deriving DecidableEq, Inhabited

/-- The number of newlines in a text. -/
def newlines (text : List Char) : Nat :=
  text.count '\n'

/-- The place just past a text that starts here. -/
def Cursor.past (cursor : Cursor) (text : List Char) : Cursor :=
  ⟨cursor.offset + byteLength text, cursor.line + newlines text⟩

/-- A lexical fault, with the line it ends on and the text at fault. -/
structure ScanError where
  fault : ScanFault
  line : Nat
  span : Span
deriving Inhabited

/-- What is told about a lexical fault. -/
def ScanError.diagnostic (e : ScanError) : Diagnostic :=
  .scan e.fault.message e.line e.span

/-- What scanning yields: a token or a fault. -/
inductive Item where
  | token (token : Token)
  | fault (error : ScanError)
deriving Inhabited

/-- The token of an item. -/
def Item.token? : Item → Option Token
  | .token t => some t
  | .fault _ => none

/-- The fault of an item. -/
def Item.fault? : Item → Option ScanError
  | .token _ => none
  | .fault e => some e

/-- Line counts of a source text. -/
structure Comments where
  /-- the number of line comments -/
  singleLine : Nat := 0
  /-- the lines that block comments touch, each comment counted by itself -/
  blockLines : Nat := 0
  /-- the lines that tokens end on -/
  codeLines : Nat := 0
  /-- all lines -/
  totalLines : Nat := 0
deriving DecidableEq, Inhabited

/-- The lines of comment, of both sorts. -/
def Comments.commentLines (c : Comments) : Nat :=
  c.singleLine + c.blockLines

/-- How far a scan has come. -/
structure Progress where
  cursor : Cursor := {}
  items : Array Item := #[]
  comments : Comments := {}
  /-- the line that the last token ended on -/
  lastCodeLine : Option Nat := none

/-- Goes over one chunk. -/
def Progress.step (p : Progress) (chunk : Chunk) : Progress :=
  let next := p.cursor.past chunk.text
  let span : Span := ⟨p.cursor.offset, next.offset⟩
  let p := { p with cursor := next }
  match chunk.form with
  | .blank => p
  | .lineComment =>
    { p with comments.singleLine := p.comments.singleLine + 1 }
  | .blockComment =>
    { p with comments.blockLines := p.comments.blockLines + newlines chunk.text + 1 }
  | .token kind literal =>
    let token : Token := ⟨kind, String.ofList chunk.text, literal, next.line, span⟩
    let p := { p with items := p.items.push (.token token) }
    if p.lastCodeLine = some next.line then p
    else
      { p with
        comments.codeLines := p.comments.codeLines + 1
        lastCodeLine := some next.line }
  | .fault fault =>
    { p with items := p.items.push (.fault ⟨fault, next.line, span⟩) }

/-- The end token at a place. -/
def endToken (cursor : Cursor) : Token :=
  ⟨.eof, "", none, cursor.line, ⟨cursor.offset, cursor.offset⟩⟩

/-- What a whole scan yields. -/
structure Scanned where
  items : List Item
  comments : Comments
deriving Inhabited

/-- Closes a scan with the end token. -/
def Progress.finish (p : Progress) : Scanned where
  items := (p.items.push (.token (endToken p.cursor))).toList
  comments := { p.comments with totalLines := p.cursor.line }

/-- Scans a source text. -/
def scan (source : String) : Scanned :=
  ((chunks source.toList).foldl Progress.step {}).finish

/-- The tokens of a scan, the end token last. -/
def Scanned.tokens (s : Scanned) : List Token :=
  s.items.filterMap Item.token?

/-- The faults of a scan. -/
def Scanned.errors (s : Scanned) : List ScanError :=
  s.items.filterMap Item.fault?

end GradedScript
