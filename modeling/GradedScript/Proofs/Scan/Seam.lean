import GradedScript.Scan
import Mathlib.Data.List.Basic

/-!
# Scanning across a newline

A newline ends every chunk but strings and block comments. So a text that leaves neither of the two
open can be put in front of another, with a newline between, and both are scanned as they are alone
(`scan_join`); only the places in the second text move on, by what is before it.
-/

namespace GradedScript

/-! ## Chunks across a newline -/

/-- A block comment that goes on to the end of the text for want of its close. -/
def Chunk.isUnclosed (c : Chunk) : Bool :=
  match c.form with
  | .blockComment => !List.isSuffixOf ['*', '/'] (c.text.drop 2)
  | _ => false

/-- A chunk that goes on to the end of the text for want of its end. -/
def Chunk.IsOpen (c : Chunk) : Prop :=
  c.form = .fault .unterminatedString ∨ c.isUnclosed = true

/-- The text ends inside a block comment: one of its comments has no close, and so takes all that is
left. -/
def endsInComment (text : List Char) : Bool :=
  (chunks text).any Chunk.isUnclosed

/-- A chunk leaves out what follows. -/
structure Munch.Extends {cs cs' : List Char} (m : Munch cs) (u : List Char) (m' : Munch cs') :
    Prop where
  form : m'.form = m.form
  taken : m'.taken = m.taken
  rest : m'.rest = m.rest ++ u

section

variable {p : Char → Bool} {c : Char} {cs t : List Char}

theorem takeWhile_newline (hp : p '\n' = false) :
    (cs ++ '\n' :: t).takeWhile p = cs.takeWhile p := by
  induction cs with
  | nil => simp [hp]
  | cons c cs ih => simp [List.takeWhile_cons, ih]

theorem dropWhile_newline (hp : p '\n' = false) :
    (cs ++ '\n' :: t).dropWhile p = cs.dropWhile p ++ '\n' :: t := by
  induction cs with
  | nil => simp [hp]
  | cons c cs ih =>
    rw [List.cons_append, List.dropWhile_cons, List.dropWhile_cons, ih]
    split <;> rfl

theorem munchNone_extends (form : Form) (u : List Char) :
    (munchNone form cs).Extends u (munchNone form (cs ++ u)) :=
  ⟨rfl, rfl, rfl⟩

theorem munchWhile_extends (hp : p '\n' = false) (form : List Char → Form) :
    (munchWhile p form cs).Extends ('\n' :: t) (munchWhile p form (cs ++ '\n' :: t)) where
  form := congrArg form (takeWhile_newline hp)
  taken := takeWhile_newline hp
  rest := dropWhile_newline hp

theorem munchComparison_of_ne {single double : Kind} (h : ∀ r, cs ≠ '=' :: r) :
    munchComparison single double cs = munchNone (.token single none) cs := by
  unfold munchComparison
  split
  · exact absurd rfl (h _)
  · rfl

theorem munchComparison_extends (single double : Kind) :
    (munchComparison single double cs).Extends ('\n' :: t)
      (munchComparison single double (cs ++ '\n' :: t)) := by
  cases cs with
  | nil => exact ⟨rfl, rfl, rfl⟩
  | cons c cs =>
    by_cases hc : c = '='
    · subst hc
      exact ⟨rfl, rfl, rfl⟩
    · have hne : ∀ rest r : List Char, c :: rest ≠ '=' :: r :=
        fun rest r heq => hc (List.cons.inj heq).1
      rw [munchComparison_of_ne (hne cs)]
      show Munch.Extends _ _ (munchComparison single double (c :: (cs ++ '\n' :: t)))
      rw [munchComparison_of_ne (hne _)]
      exact munchNone_extends _ _

/-- A close that is found is found whatever follows. -/
theorem splitClose_append_of_closed (u : List Char) (h : ['*', '/'] <:+ (splitClose cs).1) :
    splitClose (cs ++ u) = ((splitClose cs).1, (splitClose cs).2 ++ u) := by
  fun_induction splitClose cs with
  | case1 => simp at h
  | case2 cs => rfl
  | case3 c cs hopen inside rest hsplit ih =>
    have hcs : inside ++ rest = cs := by
      have happend := splitClose_append cs
      rwa [hsplit] at happend
    rw [hsplit] at ih
    -- the close does not begin with `c`, so it is all in what follows `c`
    rcases List.suffix_cons_iff.1 h with heq | hinside
    · obtain ⟨rfl, rfl⟩ := List.cons.inj heq
      exact (hopen rest rfl hcs.symm).elim
    · have hopen' : ∀ r, c = '*' → cs ++ u = '/' :: r → False := by
        intro r hc hr
        cases cs with
        | nil =>
          obtain ⟨rfl, -⟩ := List.append_eq_nil_iff.1 hcs
          simp at hinside
        | cons d cs => exact hopen cs hc (by rw [(List.cons.inj hr).1])
      rw [List.cons_append, splitClose.eq_3 _ _ hopen', ih hinside]

theorem munchSlash_of_ne (h : ∀ r, cs ≠ '/' :: r) (h' : ∀ r, cs ≠ '*' :: r) :
    munchSlash cs = munchNone (.token .slash none) cs := by
  unfold munchSlash
  split
  · exact absurd rfl (h _)
  · exact absurd rfl (h' _)
  · rfl

theorem munchSlash_extends (h : ¬ Chunk.IsOpen ⟨(munchSlash cs).form, '/' :: (munchSlash cs).taken⟩) :
    (munchSlash cs).Extends ('\n' :: t) (munchSlash (cs ++ '\n' :: t)) := by
  cases cs with
  | nil => exact ⟨rfl, rfl, rfl⟩
  | cons c cs =>
    by_cases hslash : c = '/'
    · subst hslash
      have hp : ('\n' != '\n') = false := rfl
      exact ⟨rfl, congrArg ('/' :: ·) (takeWhile_newline hp), dropWhile_newline hp⟩
    by_cases hstar : c = '*'
    · subst hstar
      have hclosed : ['*', '/'] <:+ (splitClose cs).1 := by
        by_contra hclosed
        refine h (.inr ?_)
        show (!List.isSuffixOf ['*', '/'] (splitClose cs).1) = true
        rw [Bool.not_eq_true', Bool.eq_false_iff]
        exact fun hsuffix => hclosed (List.isSuffixOf_iff_suffix.1 hsuffix)
      have hsplit := splitClose_append_of_closed ('\n' :: t) hclosed
      have hinside : (splitClose (cs ++ '\n' :: t)).1 = (splitClose cs).1 := by rw [hsplit]
      have hrest : (splitClose (cs ++ '\n' :: t)).2 = (splitClose cs).2 ++ '\n' :: t := by
        rw [hsplit]
      exact ⟨rfl, congrArg ('*' :: ·) hinside, hrest⟩
    · have hne : ∀ d, c ≠ d → ∀ rest r : List Char, c :: rest ≠ d :: r :=
        fun d hd rest r heq => hd (List.cons.inj heq).1
      rw [munchSlash_of_ne (hne _ hslash cs) (hne _ hstar cs)]
      show Munch.Extends _ _ (munchSlash (c :: (cs ++ '\n' :: t)))
      rw [munchSlash_of_ne (hne _ hslash _) (hne _ hstar _)]
      exact munchNone_extends _ _

/-- A string that is closed: what it is, what it takes and what is left. -/
theorem munchString_of_quote {quote : Char} {rest : List Char}
    (h : cs.dropWhile (· != '"') = quote :: rest) :
    (munchString cs).form =
        .token .string (some (.string (String.ofList (cs.takeWhile (· != '"'))))) ∧
      (munchString cs).taken = cs.takeWhile (· != '"') ++ [quote] ∧
      (munchString cs).rest = rest := by
  unfold munchString
  split
  · rename_i quote' rest' h'
    obtain ⟨rfl, rfl⟩ := List.cons.inj (h'.symm.trans h)
    exact ⟨rfl, rfl, rfl⟩
  · rename_i h'
    rw [h'] at h
    cases h

theorem munchString_extends (u : List Char)
    (h : (munchString cs).form ≠ .fault .unterminatedString) :
    (munchString cs).Extends u (munchString (cs ++ u)) := by
  cases hdrop : cs.dropWhile (· != '"') with
  | nil =>
    refine absurd ?_ h
    unfold munchString
    split
    · rename_i h'
      rw [hdrop] at h'
      cases h'
    · rfl
  | cons quote rest =>
    have hlength : (cs.takeWhile (· != '"')).length ≠ cs.length := by
      have happend := congrArg List.length (List.takeWhile_append_dropWhile (p := (· != '"')) (l := cs))
      rw [hdrop, List.length_append, List.length_cons] at happend
      omega
    have htake : (cs ++ u).takeWhile (· != '"') = cs.takeWhile (· != '"') := by
      rw [List.takeWhile_append, if_neg hlength]
    have hdrop' : (cs ++ u).dropWhile (· != '"') = quote :: (rest ++ u) := by
      rw [List.dropWhile_append, hdrop]
      rfl
    obtain ⟨hform, htaken, hrest⟩ := munchString_of_quote hdrop
    obtain ⟨hform', htaken', hrest'⟩ := munchString_of_quote hdrop'
    rw [htake] at hform' htaken'
    exact ⟨hform'.trans hform.symm, htaken'.trans htaken.symm, by rw [hrest', hrest]⟩

/-- A numeral with a fraction: what it is, what it takes and what is left. -/
theorem munchNumber_of_fraction {d : Char} {rest : List Char}
    (h : cs.dropWhile Char.isDigit = '.' :: d :: rest) (hd : d.isDigit = true) :
    (munchNumber c cs).form =
        numeral (c :: cs.takeWhile Char.isDigit) ((d :: rest).takeWhile Char.isDigit) ∧
      (munchNumber c cs).taken =
        cs.takeWhile Char.isDigit ++ '.' :: (d :: rest).takeWhile Char.isDigit ∧
      (munchNumber c cs).rest = (d :: rest).dropWhile Char.isDigit := by
  unfold munchNumber
  dsimp only
  split
  · rename_i d' rest' h'
    obtain ⟨-, hrest⟩ := List.cons.inj (h'.symm.trans h)
    obtain ⟨rfl, rfl⟩ := List.cons.inj hrest
    rw [if_pos hd]
    exact ⟨rfl, rfl, rfl⟩
  · rename_i hne
    exact (hne d rest h).elim

/-- A numeral without a fraction takes digits only. -/
theorem munchNumber_of_whole
    (h : ∀ d rest, cs.dropWhile Char.isDigit = '.' :: d :: rest → d.isDigit = false) :
    munchNumber c cs = munchWhile Char.isDigit (fun whole => numeral (c :: whole) []) cs := by
  unfold munchNumber
  dsimp only
  split
  · rename_i d rest hdrop
    rw [if_neg (by rw [h d rest hdrop]; exact Bool.false_ne_true)]
  · rfl

theorem munchNumber_extends :
    (munchNumber c cs).Extends ('\n' :: t) (munchNumber c (cs ++ '\n' :: t)) := by
  have hp : Char.isDigit '\n' = false := rfl
  by_cases hfraction : ∃ d rest, cs.dropWhile Char.isDigit = '.' :: d :: rest ∧ d.isDigit = true
  · obtain ⟨d, rest, hdrop, hd⟩ := hfraction
    have hdrop' : (cs ++ '\n' :: t).dropWhile Char.isDigit = '.' :: d :: (rest ++ '\n' :: t) := by
      rw [dropWhile_newline hp, hdrop]
      rfl
    obtain ⟨hform, htaken, hrest⟩ := munchNumber_of_fraction (c := c) hdrop hd
    obtain ⟨hform', htaken', hrest'⟩ := munchNumber_of_fraction (c := c) hdrop' hd
    rw [← List.cons_append, takeWhile_newline hp, takeWhile_newline hp] at hform' htaken'
    rw [← List.cons_append, dropWhile_newline hp] at hrest'
    exact ⟨hform'.trans hform.symm, htaken'.trans htaken.symm, by rw [hrest', hrest]⟩
  · have hwhole : ∀ d rest, cs.dropWhile Char.isDigit = '.' :: d :: rest → d.isDigit = false := by
      intro d rest hdrop
      by_contra hd
      exact hfraction ⟨d, rest, hdrop, by simpa using hd⟩
    have hwhole' : ∀ d rest, (cs ++ '\n' :: t).dropWhile Char.isDigit = '.' :: d :: rest →
        d.isDigit = false := by
      intro d rest hdrop
      rw [dropWhile_newline hp] at hdrop
      -- the point may be the last character, and then the newline follows it
      match hcs : cs.dropWhile Char.isDigit with
      | [] => rw [hcs] at hdrop; simp at hdrop
      | [point] =>
        rw [hcs] at hdrop
        obtain ⟨-, hrest⟩ := List.cons.inj hdrop
        obtain ⟨rfl, -⟩ := List.cons.inj hrest
        rfl
      | point :: d' :: rest' =>
        rw [hcs] at hdrop
        obtain ⟨rfl, hrest⟩ := List.cons.inj hdrop
        obtain ⟨rfl, -⟩ := List.cons.inj hrest
        exact hwhole _ _ hcs
    rw [munchNumber_of_whole hwhole, munchNumber_of_whole hwhole']
    exact munchWhile_extends hp _

/-- **A newline ends a chunk** that is not open. -/
theorem munch_extends (h : ¬ Chunk.IsOpen ⟨(munch c cs).form, c :: (munch c cs).taken⟩) :
    (munch c cs).Extends ('\n' :: t) (munch c (cs ++ '\n' :: t)) := by
  unfold munch at h ⊢
  by_cases hblank : isBlank c
  · simp only [if_pos hblank]
    exact munchNone_extends _ _
  simp only [if_neg hblank] at h ⊢
  by_cases hslash : c == '/'
  · simp only [if_pos hslash] at h ⊢
    rw [beq_iff_eq.1 hslash] at h
    exact munchSlash_extends h
  simp only [if_neg hslash] at h ⊢
  by_cases hquote : c == '"'
  · simp only [if_pos hquote] at h ⊢
    exact munchString_extends _ fun hfault => h (.inl hfault)
  simp only [if_neg hquote]
  by_cases hdigit : c.isDigit
  · simp only [if_pos hdigit]
    exact munchNumber_extends
  simp only [if_neg hdigit]
  by_cases hword : isWordStart c
  · simp only [if_pos hword]
    exact munchWhile_extends rfl _
  simp only [if_neg hword]
  split
  · exact munchNone_extends _ _
  · exact munchComparison_extends _ _
  · exact munchNone_extends _ _

/-- Texts joined by a newline fall into the chunks of both, if the first leaves none open. -/
theorem chunks_join (h : ∀ c ∈ chunks cs, ¬ c.IsOpen) :
    chunks (cs ++ '\n' :: t) = chunks cs ++ ⟨.blank, ['\n']⟩ :: chunks t := by
  fun_induction chunks cs with
  | case1 => rw [List.nil_append, List.nil_append, chunks]; rfl
  | case2 c cs m ih =>
    have hextends := munch_extends (t := t) (h _ List.mem_cons_self)
    rw [List.cons_append, chunks, hextends.form, hextends.taken, hextends.rest,
      ih fun c hc => h c (List.mem_cons_of_mem _ hc)]
    rfl

/-- Cutting a text into chunks loses nothing. -/
theorem flatMap_text_chunks : (chunks cs).flatMap Chunk.text = cs := by
  fun_induction chunks cs with
  | case1 => rfl
  | case2 c cs m ih => rw [List.flatMap_cons, ih, List.cons_append, m.split]

end

/-! ## Places that move on -/

/-- How far places move on: by bytes and by lines. -/
structure Shift where
  bytes : Nat
  lines : Nat

/-- How far a text and a newline after it move on what follows. -/
def Shift.past (text : List Char) : Shift :=
  ⟨byteLength text + 1, newlines text + 1⟩

def Cursor.shift (d : Shift) (cursor : Cursor) : Cursor :=
  ⟨cursor.offset + d.bytes, cursor.line + d.lines⟩

def Span.shift (d : Shift) (span : Span) : Span :=
  ⟨span.start + d.bytes, span.stop + d.bytes⟩

/-- The same token further on. -/
def Token.shift (d : Shift) (t : Token) : Token :=
  { t with line := t.line + d.lines, span := t.span.shift d }

def ScanError.shift (d : Shift) (e : ScanError) : ScanError :=
  { e with line := e.line + d.lines, span := e.span.shift d }

def Item.shift (d : Shift) : Item → Item
  | .token t => .token (t.shift d)
  | .fault e => .fault (e.shift d)

section

variable {d : Shift} {cursor : Cursor}

theorem byteLength_append (s t : List Char) :
    byteLength (s ++ t) = byteLength s + byteLength t := by
  induction s with
  | nil => exact (Nat.zero_add _).symm
  | cons c s ih =>
    show c.utf8Size + byteLength (s ++ t) = c.utf8Size + byteLength s + byteLength t
    rw [ih, Nat.add_assoc]

theorem Cursor.past_append (s t : List Char) :
    cursor.past (s ++ t) = (cursor.past s).past t := by
  simp only [Cursor.past, newlines, byteLength_append, List.count_append, Nat.add_assoc]

theorem Cursor.past_shift (text : List Char) :
    (cursor.shift d).past text = (cursor.past text).shift d := by
  simp only [Cursor.past, Cursor.shift, Nat.add_right_comm]

/-- A text and a newline move the start on. -/
theorem Cursor.past_newline (text : List Char) :
    (Cursor.past {} text).past ['\n'] = Cursor.shift (.past text) {} := by
  simp [Cursor.past, Cursor.shift, Shift.past, newlines, byteLength, Char.utf8Size]
  omega

/-! ## Items -/

/-- What a chunk yields at a place. -/
def Chunk.item? (cursor : Cursor) (chunk : Chunk) : Option Item :=
  let next := cursor.past chunk.text
  let span : Span := ⟨cursor.offset, next.offset⟩
  match chunk.form with
  | .token kind literal => some (.token ⟨kind, String.ofList chunk.text, literal, next.line, span⟩)
  | .fault fault => some (.fault ⟨fault, next.line, span⟩)
  | .blank | .lineComment | .blockComment => none

/-- What chunks yield from a place on. -/
def itemsFrom (cursor : Cursor) : List Chunk → List Item
  | [] => []
  | chunk :: chunks => (chunk.item? cursor).toList ++ itemsFrom (cursor.past chunk.text) chunks

theorem Progress.step_spec (p : Progress) (chunk : Chunk) :
    (p.step chunk).cursor = p.cursor.past chunk.text ∧
      (p.step chunk).items.toList = p.items.toList ++ (chunk.item? p.cursor).toList := by
  obtain ⟨form, text⟩ := chunk
  cases form with
  | blank => exact ⟨rfl, (List.append_nil _).symm⟩
  | lineComment => exact ⟨rfl, (List.append_nil _).symm⟩
  | blockComment => exact ⟨rfl, (List.append_nil _).symm⟩
  | fault fault => exact ⟨rfl, Array.toList_push⟩
  | token kind literal =>
    unfold Progress.step
    dsimp only
    split
    · exact ⟨rfl, Array.toList_push⟩
    · exact ⟨rfl, Array.toList_push⟩

theorem Progress.foldl_step_spec (chunks : List Chunk) (p : Progress) :
    (chunks.foldl step p).cursor = p.cursor.past (chunks.flatMap Chunk.text) ∧
      (chunks.foldl step p).items.toList = p.items.toList ++ itemsFrom p.cursor chunks := by
  induction chunks generalizing p with
  | nil => exact ⟨rfl, (List.append_nil _).symm⟩
  | cons chunk chunks ih =>
    obtain ⟨hcursor, hitems⟩ := p.step_spec chunk
    obtain ⟨hcursor', hitems'⟩ := ih (p.step chunk)
    rw [hcursor] at hcursor' hitems'
    rw [hitems] at hitems'
    refine ⟨?_, ?_⟩
    · rw [List.flatMap_cons, Cursor.past_append]
      exact hcursor'
    · rw [itemsFrom, ← List.append_assoc]
      exact hitems'

/-- A scan yields what the chunks of its text yield, and an end token. -/
theorem scan_items (source : String) : (scan source).items =
    itemsFrom {} (chunks source.toList) ++ [.token (endToken (Cursor.past {} source.toList))] := by
  obtain ⟨hcursor, hitems⟩ := Progress.foldl_step_spec (chunks source.toList) {}
  unfold scan Progress.finish
  dsimp only
  rw [Array.toList_push, hitems, hcursor, flatMap_text_chunks]
  rfl

theorem itemsFrom_append (xs ys : List Chunk) : itemsFrom cursor (xs ++ ys) =
    itemsFrom cursor xs ++ itemsFrom (cursor.past (xs.flatMap Chunk.text)) ys := by
  induction xs generalizing cursor with
  | nil => rfl
  | cons x xs ih =>
    rw [List.cons_append, itemsFrom, itemsFrom, ih, List.append_assoc, List.flatMap_cons,
      Cursor.past_append]

theorem Chunk.item?_shift (chunk : Chunk) :
    chunk.item? (cursor.shift d) = (chunk.item? cursor).map (Item.shift d) := by
  obtain ⟨form, text⟩ := chunk
  have hpast : (cursor.shift d).past text = (cursor.past text).shift d := Cursor.past_shift text
  unfold Chunk.item?
  rw [hpast]
  cases form <;> rfl

theorem itemsFrom_shift (xs : List Chunk) :
    itemsFrom (cursor.shift d) xs = (itemsFrom cursor xs).map (Item.shift d) := by
  induction xs generalizing cursor with
  | nil => rfl
  | cons x xs ih =>
    rw [itemsFrom, itemsFrom, Cursor.past_shift, ih, Chunk.item?_shift, List.map_append,
      Option.toList_map]

/-- **Sources joined by a newline are scanned as they are alone**, the second one further on, if the
first leaves nothing open. -/
theorem scan_join {source next : String} (h : ∀ c ∈ chunks source.toList, ¬ c.IsOpen) :
    (scan (source ++ "\n" ++ next)).items =
      (scan source).items.dropLast ++
        (scan next).items.map (Item.shift (.past source.toList)) := by
  have htext : (source ++ "\n" ++ next).toList = source.toList ++ '\n' :: next.toList := by
    simp
  rw [scan_items, scan_items source, scan_items next, htext, chunks_join h, List.dropLast_concat,
    itemsFrom_append, flatMap_text_chunks, List.append_assoc, List.map_append]
  congr 1
  have hcursor : Cursor.past {} (source.toList ++ '\n' :: next.toList) =
      (Cursor.past {} next.toList).shift (.past source.toList) := by
    rw [← Cursor.past_shift, ← Cursor.past_newline, ← Cursor.past_append, ← Cursor.past_append]
    rfl
  rw [itemsFrom, Cursor.past_newline, itemsFrom_shift, hcursor]
  rfl

/-! ## Tokens -/

/-- No word is an end. -/
theorem Kind.ofWord_ne_eof (word : String) : Kind.ofWord word ≠ .eof := by
  unfold Kind.ofWord
  cases hlookup : keywords.lookup word with
  | none => exact Kind.noConfusion
  | some kind =>
    obtain ⟨before, after, heq, -⟩ := List.lookup_eq_some_iff.1 hlookup
    have hmem : (word, kind) ∈ keywords := heq ▸ List.mem_append_right _ List.mem_cons_self
    have hall : ∀ entry ∈ keywords, entry.2 ≠ .eof := by decide
    exact hall _ hmem

theorem punctuation?_ne_eof (c : Char) : punctuation? c ≠ some .eof := by
  unfold punctuation?
  split <;> simp

theorem comparison?_ne_eof {c : Char} {single double : Kind}
    (h : comparison? c = some (single, double)) : single ≠ .eof ∧ double ≠ .eof := by
  unfold comparison? at h
  split at h <;> simp at h <;> simp [← h]

/-- No chunk is an end token. -/
theorem munch_ne_eof (c : Char) (cs : List Char) (literal : Option Literal) :
    (munch c cs).form ≠ .token .eof literal := by
  unfold munch
  split
  · exact Form.noConfusion
  split
  · unfold munchSlash
    split <;> simp [munchNone]
  split
  · unfold munchString
    split <;> simp
  split
  · unfold munchNumber
    dsimp only
    split
    · split <;> simp [munchWhile, numeral]
    · simp [munchWhile, numeral]
  split
  · intro hform
    exact Kind.ofWord_ne_eof _ (Form.token.inj hform).1
  split
  · rename_i kind hkind
    intro hform
    rw [(Form.token.inj hform).1] at hkind
    exact punctuation?_ne_eof c hkind
  · rename_i single double hkinds
    obtain ⟨hsingle, hdouble⟩ := comparison?_ne_eof hkinds
    unfold munchComparison
    split
    · exact fun hform => hdouble (Form.token.inj hform).1
    · exact fun hform => hsingle (Form.token.inj hform).1
  · exact Form.noConfusion

theorem chunks_ne_eof {cs : List Char} :
    ∀ c ∈ chunks cs, ∀ literal, c.form ≠ .token .eof literal := by
  fun_induction chunks cs with
  | case1 => simp
  | case2 c cs m ih =>
    intro chunk hchunk
    rcases List.mem_cons.1 hchunk with rfl | hchunk
    · exact munch_ne_eof c cs
    · exact ih chunk hchunk

/-- The tokens of a source before its end token. -/
def tokensBefore (source : String) : List Token :=
  (itemsFrom {} (chunks source.toList)).filterMap Item.token?

theorem scan_tokens (source : String) : (scan source).tokens =
    tokensBefore source ++ [endToken (Cursor.past {} source.toList)] := by
  unfold Scanned.tokens tokensBefore
  rw [scan_items, List.filterMap_append]
  rfl

theorem itemsFrom_ne_eof {xs : List Chunk} (h : ∀ c ∈ xs, ∀ literal, c.form ≠ .token .eof literal)
    {t : Token} (ht : .token t ∈ itemsFrom cursor xs) : t.kind ≠ .eof := by
  induction xs generalizing cursor with
  | nil => cases ht
  | cons x xs ih =>
    rcases List.mem_append.1 ht with ht | ht
    · have hx := h x List.mem_cons_self
      obtain ⟨form, text⟩ := x
      cases form with
      | token kind literal =>
        obtain rfl := Item.token.inj (List.mem_singleton.1 ht)
        exact fun hkind => hx literal (by rw [← hkind])
      | fault fault => cases List.mem_singleton.1 ht
      | blank => cases ht
      | lineComment => cases ht
      | blockComment => cases ht
    · exact ih (fun c hc => h c (List.mem_cons_of_mem _ hc)) ht

/-- A source has one end token, its last. -/
theorem tokensBefore_ne_eof {source : String} : ∀ t ∈ tokensBefore source, t.kind ≠ .eof := by
  intro t ht
  obtain ⟨item, hitem, htoken⟩ := List.mem_filterMap.1 ht
  cases item with
  | token t' =>
    obtain rfl := Option.some.inj htoken
    exact itemsFrom_ne_eof chunks_ne_eof hitem
  | fault e => cases htoken

/-- The tokens of a scan without the end token. -/
def Scanned.proper (s : Scanned) : List Token :=
  s.tokens.filter fun t => t.kind ≠ .eof

theorem proper_eq (source : String) : (scan source).proper = tokensBefore source := by
  unfold Scanned.proper
  rw [scan_tokens, List.filter_append, List.filter_eq_self.2]
  · exact List.append_nil _
  · exact fun t ht => decide_eq_true (tokensBefore_ne_eof t ht)

/-- Picking from items that moved on. -/
theorem filterMap_shift {β : Type} {f : Item → Option β} {g : β → β}
    (hf : ∀ item : Item, f (item.shift d) = (f item).map g) (items : List Item) :
    (items.map (Item.shift d)).filterMap f = (items.filterMap f).map g := by
  rw [List.filterMap_map, List.map_filterMap]
  congr 1
  funext item
  exact hf item

/-- The tokens of joined sources. -/
theorem scan_join_tokens {source next : String} (h : ∀ c ∈ chunks source.toList, ¬ c.IsOpen) :
    (scan (source ++ "\n" ++ next)).tokens =
      tokensBefore source ++ (scan next).tokens.map (Token.shift (.past source.toList)) := by
  unfold Scanned.tokens tokensBefore
  rw [scan_join h, List.filterMap_append, filterMap_shift fun item => by cases item <;> rfl,
    scan_items source, List.dropLast_concat]

theorem scan_errors (source : String) :
    (scan source).errors = (itemsFrom {} (chunks source.toList)).filterMap Item.fault? := by
  unfold Scanned.errors
  rw [scan_items, List.filterMap_append]
  exact List.append_nil _

/-- The lexical faults of joined sources. -/
theorem scan_join_errors {source next : String} (h : ∀ c ∈ chunks source.toList, ¬ c.IsOpen) :
    (scan (source ++ "\n" ++ next)).errors =
      (scan source).errors ++ (scan next).errors.map (ScanError.shift (.past source.toList)) := by
  rw [scan_errors source]
  unfold Scanned.errors
  rw [scan_join h, List.filterMap_append, filterMap_shift fun item => by cases item <;> rfl,
    scan_items source, List.dropLast_concat]

/-- A chunk at fault yields its fault. -/
theorem exists_fault_of_mem {xs : List Chunk} {x : Chunk} {fault : ScanFault} (hx : x ∈ xs)
    (hfault : x.form = .fault fault) : ∃ e, e.fault = fault ∧ .fault e ∈ itemsFrom cursor xs := by
  induction xs generalizing cursor with
  | nil => cases hx
  | cons y ys ih =>
    rcases List.mem_cons.1 hx with rfl | hx
    · obtain ⟨form, text⟩ := x
      obtain rfl : form = .fault fault := hfault
      exact ⟨_, rfl, List.mem_append_left _ List.mem_cons_self⟩
    · obtain ⟨e, hfault, he⟩ := ih hx
      exact ⟨e, hfault, List.mem_append_right _ he⟩

/-- A source that ends neither inside a string nor inside a comment leaves nothing open. -/
theorem not_isOpen_of_closed {source : String}
    (hstring : ∀ e ∈ (scan source).errors, e.fault ≠ .unterminatedString)
    (hcomment : endsInComment source.toList = false) : ∀ c ∈ chunks source.toList, ¬ c.IsOpen := by
  intro c hc hopen
  rcases hopen with hfault | hopen
  · obtain ⟨e, hfault, he⟩ : ∃ e : ScanError, e.fault = .unterminatedString ∧
        .fault e ∈ itemsFrom {} (chunks source.toList) := exists_fault_of_mem hc hfault
    refine hstring e ?_ hfault
    rw [scan_errors]
    exact List.mem_filterMap.2 ⟨_, he, rfl⟩
  · rw [endsInComment, List.any_eq_false] at hcomment
    exact hcomment c hc hopen

/-- A source without lexical faults that does not end inside a comment leaves nothing open. -/
theorem not_isOpen_of_errors {source : String} (h : (scan source).errors = [])
    (hclosed : endsInComment source.toList = false) : ∀ c ∈ chunks source.toList, ¬ c.IsOpen := by
  refine not_isOpen_of_closed ?_ hclosed
  rw [h]
  exact List.forall_mem_nil _

end

end GradedScript
