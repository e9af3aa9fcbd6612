import GradedScript.Token

/-!
# Chunks of source text

Any text falls into chunks, one after the other: blanks, comments, tokens, and text that is no
token. `munch` takes the first chunk off a text and carries the proof that nothing is lost, so
`chunks` cuts a text up completely.

Every chunk is the longest one of its class: a word takes all identifier characters, a numeral all
digits with at most one point that digits follow, a string all up to the next quote, a line comment
all up to the end of the line, a block comment all up to the first close. A string without its
closing quote is a fault; a block comment without its close is still a comment.
-/

namespace GradedScript

/-! ### Character classes

All of them hold ASCII characters only. -/

/-- Characters between tokens that mean nothing. -/
def isBlank (c : Char) : Bool :=
  c == ' ' || c == '\t' || c == '\r' || c == '\n'

/-- Characters that start a word: ASCII letters and the underscore. -/
def isWordStart (c : Char) : Bool :=
  c.isAlpha || c == '_'

/-- Characters that go on with a word: ASCII letters, digits and the underscore. -/
def isWordChar (c : Char) : Bool :=
  c.isAlphanum || c == '_'

/-- Characters that are a token by themselves whatever follows. -/
def punctuation? : Char → Option Kind
  | '(' => some .leftParen
  | ')' => some .rightParen
  | '\x7b' => some .leftBrace
  | '\x7d' => some .rightBrace
  | ',' => some .comma
  | '.' => some .dot
  | '-' => some .minus
  | '+' => some .plus
  | ';' => some .semicolon
  | '*' => some .star
  | _ => none

/-- Operators that an equals sign may follow: the kind without it and the kind with it. -/
def comparison? : Char → Option (Kind × Kind)
  | '!' => some (.bang, .bangEqual)
  | '=' => some (.equal, .equalEqual)
  | '<' => some (.less, .lessEqual)
  | '>' => some (.greater, .greaterEqual)
  | _ => none

/-! ### Chunks -/

/-- What is wrong with text that is no token. -/
inductive ScanFault where
  | unterminatedString
  | unexpectedCharacter (c : Char)
deriving DecidableEq, Inhabited

/-- The wording of a lexical fault. -/
def ScanFault.message : ScanFault → String
  | .unterminatedString => "Unterminated string."
  | .unexpectedCharacter c => "Unexpected character '" ++ c.toString ++ "'."

/-- What a chunk of text is. -/
inductive Form where
  | blank
  | lineComment
  | blockComment
  | token (kind : Kind) (literal : Option Literal)
  | fault (fault : ScanFault)
deriving Inhabited

/-- A chunk: a stretch of text and what it is. -/
structure Chunk where
  form : Form
  text : List Char
deriving Inhabited

/-- A form, the text after the chunk's first character that belongs to it, and what is left.
Nothing of `cs` is lost. -/
structure Munch (cs : List Char) where
  form : Form
  taken : List Char
  rest : List Char
  split : taken ++ rest = cs

/-- What is left is no longer than what there was. -/
theorem Munch.length_rest_le {cs : List Char} (m : Munch cs) : m.rest.length ≤ cs.length := by
  have h := congrArg List.length m.split
  simp only [List.length_append] at h
  omega

/-- Takes nothing more than the first character. -/
def munchNone (form : Form) (cs : List Char) : Munch cs :=
  ⟨form, [], cs, rfl⟩

/-- Takes all characters in front that satisfy `p`. -/
def munchWhile (p : Char → Bool) (form : List Char → Form) (cs : List Char) : Munch cs :=
  ⟨form (cs.takeWhile p), cs.takeWhile p, cs.dropWhile p, List.takeWhile_append_dropWhile⟩

/-- The text up to and over the first `*/`, and what follows; all of it if there is none. -/
def splitClose : List Char → List Char × List Char
  | [] => ([], [])
  | '*' :: '/' :: cs => (['*', '/'], cs)
  | c :: cs =>
    let (inside, rest) := splitClose cs
    (c :: inside, rest)

/-- Cutting at the close loses nothing. -/
theorem splitClose_append (cs : List Char) : (splitClose cs).1 ++ (splitClose cs).2 = cs := by
  fun_induction splitClose cs <;> simp_all

/-- A token of one of two kinds: the second if an equals sign follows, which it takes. -/
def munchComparison (single double : Kind) : (cs : List Char) → Munch cs
  | '=' :: cs => ⟨.token double none, ['='], cs, rfl⟩
  | cs => munchNone (.token single none) cs

/-- A slash starts a line comment, a block comment, or is a token. -/
def munchSlash : (cs : List Char) → Munch cs
  | '/' :: cs => ⟨.lineComment, '/' :: cs.takeWhile (· != '\n'), cs.dropWhile (· != '\n'), by
      simp⟩
  | '*' :: cs => ⟨.blockComment, '*' :: (splitClose cs).1, (splitClose cs).2, by
      simp [splitClose_append]⟩
  | cs => munchNone (.token .slash none) cs

/-- A string goes on to the next quote, which it takes; without one, all that is left is a
fault. -/
def munchString (cs : List Char) : Munch cs :=
  match h : cs.dropWhile (· != '"') with
  | quote :: rest =>
    let value := cs.takeWhile (· != '"')
    ⟨.token .string (some (.string (String.ofList value))), value ++ [quote], rest, by
      rw [List.append_assoc, List.singleton_append, ← h]
      exact List.takeWhile_append_dropWhile⟩
  | [] => ⟨.fault .unterminatedString, cs, [], List.append_nil cs⟩

/-- The token of a numeral. -/
def numeral (whole fraction : List Char) : Form :=
  .token .number (some (.number (Decimal.ofNumeral whole fraction).nearest))

/-- A numeral goes on over digits, and over a point with digits after it. -/
def munchNumber (c : Char) (cs : List Char) : Munch cs :=
  let whole := cs.takeWhile Char.isDigit
  match h : cs.dropWhile Char.isDigit with
  | '.' :: d :: rest =>
    if d.isDigit then
      let fraction := (d :: rest).takeWhile Char.isDigit
      ⟨numeral (c :: whole) fraction, whole ++ '.' :: fraction, (d :: rest).dropWhile Char.isDigit, by
        rw [List.append_assoc, List.cons_append, List.takeWhile_append_dropWhile, ← h]
        exact List.takeWhile_append_dropWhile⟩
    else munchWhile Char.isDigit (fun whole => numeral (c :: whole) []) cs
  | _ => munchWhile Char.isDigit (fun whole => numeral (c :: whole) []) cs

/-- The token of a word. -/
def word (text : List Char) : Form :=
  .token (Kind.ofWord (String.ofList text)) none

/-- Takes the first chunk off the text `c :: cs`. -/
def munch (c : Char) (cs : List Char) : Munch cs :=
  if isBlank c then munchNone .blank cs
  else if c == '/' then munchSlash cs
  else if c == '"' then munchString cs
  else if c.isDigit then munchNumber c cs
  else if isWordStart c then munchWhile isWordChar (fun tail => word (c :: tail)) cs
  else match punctuation? c, comparison? c with
    | some kind, _ => munchNone (.token kind none) cs
    | none, some (single, double) => munchComparison single double cs
    | none, none => munchNone (.fault (.unexpectedCharacter c)) cs

/-- The chunks of a text, in order. -/
def chunks : List Char → List Chunk
  | [] => []
  | c :: cs =>
    let m := munch c cs
    ⟨m.form, c :: m.taken⟩ :: chunks m.rest
termination_by cs => cs.length
decreasing_by
  have := (munch c cs).length_rest_le
  simp only [List.length_cons]
  omega

end GradedScript
