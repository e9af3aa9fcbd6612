import GradedScript.Proofs.Scan.Partition

/-!
# Scanning undoes printing

The tokens of a source can be printed again with other blanks and comments between them. As long as
a blank comes right after each token, they are scanned as they were (`scan_printed`): whitespace
ends every lexeme, so that no token runs into what follows, and a separator that is complete in
itself leaves nothing open for the next token to fall into.
-/

namespace GradedScript

/-! ## Separators -/

/-- Texts that separate tokens: blanks, line comments up to and with their newline, and block
comments up to and with their close, in any order. -/
inductive Separator : List Char → Prop
  | nil : Separator []
  | blank {c rest} (hc : c ∈ blanks) (hrest : Separator rest) : Separator (c :: rest)
  | lineComment {body rest} (hbody : '\n' ∉ body) (hrest : Separator rest) :
      Separator ('/' :: '/' :: (body ++ '\n' :: rest))
  | blockComment {body rest} (hfirst : ¬ ['*', '/'] <:+: body ++ ['*']) (hrest : Separator rest) :
      Separator ('/' :: '*' :: (body ++ '*' :: '/' :: rest))

section

variable {p : Char → Bool} {b c : Char} {cs ds rest text : List Char} {kind : Kind}
  {literal : Option Literal} {form : Form}

/-- The first chunk of a text, if it is known what is taken off its front. -/
theorem chunks_cons (ds rest : List Char) (hform : (munch c (ds ++ rest)).form = form)
    (htaken : (munch c (ds ++ rest)).taken = ds) :
    chunks (c :: (ds ++ rest)) = ⟨form, c :: ds⟩ :: chunks rest := by
  have hsplit := (munch c (ds ++ rest)).split
  rw [htaken] at hsplit
  rw [chunks, hform, htaken, List.append_cancel_left hsplit]

theorem chunks_blank (hc : c ∈ blanks) : chunks (c :: rest) = ⟨.blank, [c]⟩ :: chunks rest := by
  have hmunch : munch c rest = munchNone .blank rest := if_pos (mem_blanks_iff.1 hc)
  refine chunks_cons [] rest ?_ ?_
  · exact congrArg Munch.form hmunch
  · exact congrArg Munch.taken hmunch

/-- A run of characters of a class ends where one of another class follows. -/
theorem takeWhile_stop (hall : ∀ d ∈ ds, p d = true) (hb : p b = false) :
    (ds ++ b :: rest).takeWhile p = ds := by
  rw [List.takeWhile_append_of_pos hall, List.takeWhile_cons_of_neg (by simp [hb]), List.append_nil]

theorem dropWhile_stop (hall : ∀ d ∈ ds, p d = true) (hb : p b = false) :
    (ds ++ b :: rest).dropWhile p = b :: rest := by
  rw [List.dropWhile_append_of_pos hall, List.dropWhile_cons_of_neg (by simp [hb])]

theorem chunks_lineComment (hbody : '\n' ∉ ds) :
    chunks ('/' :: '/' :: (ds ++ '\n' :: rest)) =
      ⟨.lineComment, '/' :: '/' :: ds⟩ :: ⟨.blank, ['\n']⟩ :: chunks rest := by
  have hall : ∀ d ∈ ds, (d != '\n') = true := fun d hd => bne_iff_ne.2 fun heq => hbody (heq ▸ hd)
  have htaken : (munch '/' ('/' :: ds ++ '\n' :: rest)).taken = '/' :: ds :=
    congrArg ('/' :: ·) (takeWhile_stop hall rfl)
  rw [← chunks_blank (c := '\n') (by decide)]
  exact chunks_cons _ _ rfl htaken

/-- The first close of a text is the one that none comes before. -/
theorem splitClose_first (hfirst : ¬ ['*', '/'] <:+: ds ++ ['*']) :
    splitClose (ds ++ '*' :: '/' :: rest) = (ds ++ ['*', '/'], rest) := by
  induction ds with
  | nil => rfl
  | cons d ds ih =>
    rw [List.cons_append, List.infix_cons_iff, not_or] at hfirst
    obtain ⟨hfront, hinside⟩ := hfirst
    have hopen : ∀ r, d = '*' → ds ++ '*' :: '/' :: rest = '/' :: r → False := by
      rintro r rfl hr
      cases ds with
      | nil => exact absurd (List.cons.inj hr).1 (by decide)
      | cons e ds =>
        obtain rfl : e = '/' := (List.cons.inj hr).1
        exact hfront ⟨ds ++ ['*'], rfl⟩
    rw [List.cons_append, splitClose.eq_3 _ _ hopen, ih hinside]
    rfl

theorem chunks_blockComment (hfirst : ¬ ['*', '/'] <:+: ds ++ ['*']) :
    chunks ('/' :: '*' :: (ds ++ '*' :: '/' :: rest)) =
      ⟨.blockComment, '/' :: '*' :: (ds ++ ['*', '/'])⟩ :: chunks rest := by
  have htext : '*' :: (ds ++ '*' :: '/' :: rest) = '*' :: (ds ++ ['*', '/']) ++ rest := by simp
  have hinside : (splitClose (ds ++ ['*', '/'] ++ rest)).1 = ds ++ ['*', '/'] := by
    rw [List.append_assoc]
    exact congrArg Prod.fst (splitClose_first hfirst)
  rw [htext]
  exact chunks_cons _ _ rfl (congrArg ('*' :: ·) hinside)

/-- A separator falls into chunks that yield no item, whatever comes after it. -/
theorem Separator.chunks_append (h : Separator text) (rest : List Char) :
    ∃ gap, chunks (text ++ rest) = gap ++ chunks rest ∧
      ∀ chunk ∈ gap, ∀ cursor, chunk.item? cursor = none := by
  induction h with
  | nil => exact ⟨[], rfl, by simp⟩
  | @blank c text hc _ ih =>
    obtain ⟨gap, hgap, hsilent⟩ := ih
    refine ⟨⟨.blank, [c]⟩ :: gap, ?_, List.forall_mem_cons.2 ⟨fun _ => rfl, hsilent⟩⟩
    rw [List.cons_append, chunks_blank hc, hgap]
    rfl
  | @lineComment body text hbody _ ih =>
    obtain ⟨gap, hgap, hsilent⟩ := ih
    refine ⟨⟨.lineComment, '/' :: '/' :: body⟩ :: ⟨.blank, ['\n']⟩ :: gap, ?_, ?_⟩
    · rw [List.cons_append, List.cons_append, List.append_assoc, List.cons_append,
        chunks_lineComment hbody, hgap]
      rfl
    · exact List.forall_mem_cons.2 ⟨fun _ => rfl, List.forall_mem_cons.2 ⟨fun _ => rfl, hsilent⟩⟩
  | @blockComment body text hfirst _ ih =>
    obtain ⟨gap, hgap, hsilent⟩ := ih
    refine ⟨⟨.blockComment, '/' :: '*' :: (body ++ ['*', '/'])⟩ :: gap, ?_,
      List.forall_mem_cons.2 ⟨fun _ => rfl, hsilent⟩⟩
    rw [List.cons_append, List.cons_append, List.append_assoc, List.cons_append, List.cons_append,
      chunks_blockComment hfirst, hgap]
    rfl

/-! ## Lexemes before a blank -/

/-- A blank goes on with no lexeme. -/
theorem of_mem_blanks (hb : b ∈ blanks) : b.isDigit = false ∧ isWordChar b = false ∧ b ≠ '.' ∧
    b ≠ '=' ∧ b ≠ '/' ∧ b ≠ '*' := by
  simp only [blanks, List.mem_cons, List.not_mem_nil, or_false] at hb
  rcases hb with rfl | rfl | rfl | rfl <;> decide

theorem cons_ne_of_mem_blanks (hb : b ∈ blanks) (rest : List Char) :
    (∀ r, b :: rest ≠ '=' :: r) ∧ (∀ r, b :: rest ≠ '/' :: r) ∧ ∀ r, b :: rest ≠ '*' :: r := by
  obtain ⟨-, -, -, hequals, hslash, hstar⟩ := of_mem_blanks hb
  refine ⟨?_, ?_, ?_⟩
  · exact fun r heq => hequals (List.cons.inj heq).1
  · exact fun r heq => hslash (List.cons.inj heq).1
  · exact fun r heq => hstar (List.cons.inj heq).1

theorem munch_of_digit (hc : c.isDigit = true) : munch c cs = munchNumber c cs := by
  have hblank : isBlank c = false := by
    rw [Bool.eq_false_iff]
    intro hblank
    rw [(of_mem_blanks (mem_blanks_iff.2 hblank)).1] at hc
    cases hc
  have hother : ∀ d, d.isDigit = false → (c == d) = false :=
    fun d hd => beq_false_of_ne fun heq => absurd (heq ▸ hc) (by simp [hd])
  simp only [munch, hblank, hother '/' rfl, hother '"' rfl, hc, Bool.false_eq_true, ↓reduceIte]

theorem munch_of_wordStart (hc : isWordStart c = true) :
    munch c cs = munchWhile isWordChar (fun tail => word (c :: tail)) cs := by
  have hother : ∀ d, isWordStart d = false → (c == d) = false :=
    fun d hd => beq_false_of_ne fun heq => absurd (heq ▸ hc) (by simp [hd])
  have hblank : isBlank c = false := by
    simp only [isBlank, hother ' ' rfl, hother '\t' rfl, hother '\r' rfl, hother '\n' rfl,
      Bool.or_self]
  have hdigit : c.isDigit = false := by
    rw [Bool.eq_false_iff]
    intro hdigit
    rw [isWordStart_of_isDigit hdigit] at hc
    cases hc
  simp only [munch, hblank, hother '/' rfl, hother '"' rfl, hdigit, hc, Bool.false_eq_true,
    ↓reduceIte]

theorem munch_of_punctuation (hc : punctuation? c = some kind) :
    munch c cs = munchNone (.token kind none) cs := by
  unfold punctuation? at hc
  split at hc <;> cases hc <;> rfl

theorem munch_of_comparison {single double : Kind} (hc : comparison? c = some (single, double)) :
    munch c cs = munchComparison single double cs := by
  unfold comparison? at hc
  split at hc <;> cases hc <;> rfl

/-- What the scanner takes for a symbol of one character. -/
theorem single_cases (hc : (c, kind) ∈ singles) : (c = '/' ∧ kind = .slash) ∨
    punctuation? c = some kind ∨ ∃ double, comparison? c = some (kind, double) := by
  have hall : ∀ entry ∈ singles, (entry.1 = '/' ∧ entry.2 = .slash) ∨
      punctuation? entry.1 = some entry.2 ∨
      (comparison? entry.1).map Prod.fst = some entry.2 := by decide
  rcases hall _ hc with hslash | hpunctuation | hcomparison
  · exact .inl hslash
  · exact .inr (.inl hpunctuation)
  · obtain ⟨⟨single, double⟩, hpair, rfl⟩ := Option.map_eq_some_iff.1 hcomparison
    exact .inr (.inr ⟨double, hpair⟩)

theorem double_cases (hc : (c, kind) ∈ doubles) :
    ∃ single, comparison? c = some (single, kind) := by
  have hall : ∀ entry ∈ doubles, (comparison? entry.1).map Prod.snd = some entry.2 := by decide
  obtain ⟨⟨single, double⟩, hpair, rfl⟩ := Option.map_eq_some_iff.1 (hall _ hc)
  exact ⟨single, hpair⟩

/-- The kind of a word, from the table of keywords. -/
theorem Kind.ofWord_of_mem {word : String} (h : (word, kind) ∈ keywords) :
    Kind.ofWord word = kind := by
  have hall : ∀ entry ∈ keywords, keywords.lookup entry.1 = some entry.2 := by decide
  rw [Kind.ofWord, hall _ h]
  rfl

theorem Kind.ofWord_of_notMem {word : String} (h : ∀ kind, (word, kind) ∉ keywords) :
    Kind.ofWord word = .identifier := by
  have hnone : keywords.lookup word = none := by
    rw [List.lookup_eq_none_iff]
    intro entry hentry
    refine bne_iff_ne.2 ?_
    rintro rfl
    exact h entry.2 hentry
  rw [Kind.ofWord, hnone]
  rfl

/-- A word before a blank is taken whole. -/
theorem munch_word (hc : isWordStart c = true) (hcs : ∀ d ∈ cs, isWordChar d = true)
    (hb : b ∈ blanks) (rest : List Char) :
    (munch c (cs ++ b :: rest)).form = word (c :: cs) ∧
      (munch c (cs ++ b :: rest)).taken = cs := by
  have htake : (cs ++ b :: rest).takeWhile isWordChar = cs :=
    takeWhile_stop hcs (of_mem_blanks hb).2.1
  rw [munch_of_wordStart hc]
  exact ⟨congrArg (fun tail => word (c :: tail)) htake, htake⟩

/-- **A lexeme before a blank is taken whole**, as the token it is. -/
theorem Lexeme.munch_append (h : Lexeme (c :: cs) kind literal) (hb : b ∈ blanks)
    (rest : List Char) : (munch c (cs ++ b :: rest)).form = .token kind literal ∧
      (munch c (cs ++ b :: rest)).taken = cs := by
  obtain ⟨hequals, hslash, hstar⟩ := cons_ne_of_mem_blanks hb rest
  obtain ⟨hdigit, -, hpoint, -⟩ := of_mem_blanks hb
  cases h with
  | single hc =>
    rw [List.nil_append]
    rcases single_cases hc with ⟨rfl, rfl⟩ | hpunctuation | ⟨double, hcomparison⟩
    · have hmunch : munch '/' (b :: rest) = munchNone (.token .slash none) (b :: rest) :=
        munchSlash_of_ne hslash hstar
      rw [hmunch]
      exact ⟨rfl, rfl⟩
    · rw [munch_of_punctuation hpunctuation]
      exact ⟨rfl, rfl⟩
    · rw [munch_of_comparison hcomparison, munchComparison_of_ne hequals]
      exact ⟨rfl, rfl⟩
  | double hc =>
    obtain ⟨single, hcomparison⟩ := double_cases hc
    rw [munch_of_comparison hcomparison]
    exact ⟨rfl, rfl⟩
  | keyword hc hcs hword =>
    obtain ⟨hform, htaken⟩ := munch_word hc hcs hb rest
    rw [word, Kind.ofWord_of_mem hword] at hform
    exact ⟨hform, htaken⟩
  | name hc hcs hword =>
    obtain ⟨hform, htaken⟩ := munch_word hc hcs hb rest
    rw [word, Kind.ofWord_of_notMem hword] at hform
    exact ⟨hform, htaken⟩
  | whole hc hcs =>
    have htake : (cs ++ b :: rest).takeWhile Char.isDigit = cs := takeWhile_stop hcs hdigit
    have hnone : ∀ d r, (cs ++ b :: rest).dropWhile Char.isDigit = '.' :: d :: r →
        d.isDigit = false := by
      intro d r hdrop
      rw [dropWhile_stop hcs hdigit] at hdrop
      exact absurd (List.cons.inj hdrop).1 hpoint
    rw [munch_of_digit hc, munchNumber_of_whole hnone]
    exact ⟨congrArg (fun whole => numeral (c :: whole) []) htake, htake⟩
  | @fraction _ whole d ds hc hwhole hd hds =>
    have htake : (whole ++ '.' :: (d :: ds ++ b :: rest)).takeWhile Char.isDigit = whole :=
      takeWhile_stop hwhole rfl
    have hdrop : (whole ++ '.' :: (d :: ds ++ b :: rest)).dropWhile Char.isDigit =
        '.' :: d :: (ds ++ b :: rest) := dropWhile_stop hwhole rfl
    have hfraction : (d :: (ds ++ b :: rest)).takeWhile Char.isDigit = d :: ds :=
      takeWhile_stop (List.forall_mem_cons.2 ⟨hd, hds⟩) hdigit
    obtain ⟨hform, htaken, -⟩ := munchNumber_of_fraction (c := c) hdrop hd
    rw [htake, hfraction] at hform htaken
    rw [munch_of_digit hc, List.append_assoc]
    exact ⟨hform, htaken⟩
  | @string body hbody =>
    have hall : ∀ d ∈ body, (d != '"') = true :=
      fun d hd => bne_iff_ne.2 fun heq => hbody (heq ▸ hd)
    have htake : (body ++ '"' :: b :: rest).takeWhile (· != '"') = body := takeWhile_stop hall rfl
    have hdrop : (body ++ '"' :: b :: rest).dropWhile (· != '"') = '"' :: b :: rest :=
      dropWhile_stop hall rfl
    obtain ⟨hform, htaken, -⟩ := munchString_of_quote hdrop
    rw [htake] at hform htaken
    rw [List.append_assoc]
    exact ⟨hform, htaken⟩

theorem Lexeme.chunks_append (h : Lexeme text kind literal) (hb : b ∈ blanks) :
    chunks (text ++ b :: rest) = ⟨.token kind literal, text⟩ :: chunks (b :: rest) := by
  cases text with
  | nil => exact absurd rfl h.ne_nil
  | cons c cs =>
    obtain ⟨hform, htaken⟩ := h.munch_append hb rest
    exact chunks_cons cs _ hform htaken

/-! ## Printed tokens -/

/-- All of a token but its place. -/
def Token.content (t : Token) : Kind × String × Option Literal :=
  (t.kind, t.lexeme, t.literal)

/-- The texts of tokens, each with a separator after it. -/
def printed (tokens : List Token) (gaps : List (List Char)) : List Char :=
  (List.zipWith (fun t gap => t.lexeme.toList ++ gap) tokens gaps).flatten

theorem itemsFrom_of_silent {cursor : Cursor} {gap : List Chunk}
    (h : ∀ chunk ∈ gap, ∀ cursor, chunk.item? cursor = none) : itemsFrom cursor gap = [] := by
  induction gap generalizing cursor with
  | nil => rfl
  | cons chunk gap ih =>
    rw [List.forall_mem_cons] at h
    rw [itemsFrom, h.1, ih h.2]
    rfl

/-- The chunks of printed tokens yield these tokens at other places, and nothing else. -/
theorem itemsFrom_printed {tokens : List Token} {gaps : List (List Char)}
    (htokens : ∀ t ∈ tokens, Lexeme t.lexeme.toList t.kind t.literal)
    (hlength : gaps.length = tokens.length)
    (hgaps : ∀ gap ∈ gaps, Separator gap ∧ ∃ c ∈ gap.head?, c ∈ blanks) (cursor : Cursor) :
    ∃ again : List Token, itemsFrom cursor (chunks (printed tokens gaps)) = again.map Item.token ∧
      again.map Token.content = tokens.map Token.content := by
  induction tokens generalizing gaps cursor with
  | nil => exact ⟨[], by rw [printed, List.zipWith_nil_left, List.flatten_nil, chunks]; rfl, rfl⟩
  | cons t tokens ih =>
    cases gaps with
    | nil => cases hlength
    | cons gap gaps =>
      rw [List.forall_mem_cons] at htokens hgaps
      obtain ⟨⟨hgap, b, hhead, hb⟩, hgaps⟩ := hgaps
      obtain ⟨silent, hsilent, hnone⟩ := hgap.chunks_append (printed tokens gaps)
      obtain ⟨tail, rfl⟩ := List.head?_eq_some_iff.1 hhead
      have hchunks : chunks (printed (t :: tokens) ((b :: tail) :: gaps)) =
          ⟨.token t.kind t.literal, t.lexeme.toList⟩ ::
            (silent ++ chunks (printed tokens gaps)) := by
        rw [← hsilent]
        show chunks (t.lexeme.toList ++ b :: tail ++ printed tokens gaps) = _
        rw [List.append_assoc]
        exact htokens.1.chunks_append hb
      rw [hchunks, itemsFrom, itemsFrom_append, itemsFrom_of_silent hnone, List.nil_append]
      obtain ⟨again, hagain, hcontent⟩ := ih htokens.2 (Nat.succ.inj hlength) hgaps _
      rw [hagain]
      refine ⟨_ :: again, rfl, ?_⟩
      rw [List.map_cons, List.map_cons, hcontent]
      simp [Token.content]

end

/-! ## Scans -/

/-- Every token of a partition but the end is a lexeme. -/
theorem Partitioned.lexeme {before text : List Char} {items : List Item}
    (h : Partitioned before text items) :
    ∀ t, .token t ∈ items → t.kind ≠ .eof → Lexeme t.lexeme.toList t.kind t.literal := by
  induction h with
  | last =>
    intro t ht hkind
    cases List.mem_singleton.1 ht
    exact absurd rfl hkind
  | item _ hcut hitem _ ih =>
    intro t ht hkind
    rcases List.mem_cons.1 ht with rfl | ht
    · cases hitem
      cases hcut with
      | token hlexeme =>
        show Lexeme (String.ofList _).toList _ _
        rw [String.toList_ofList]
        exact hlexeme
    · exact ih t ht hkind

/-- **Scanning undoes printing.** Let the tokens of any source, but for the end token and what is at
fault, be printed with separators: one in front, and after each token one that begins with a blank.
Scanning the result reports no fault and gives tokens of the same kinds, texts and values in the
same order, and then the end token. -/
theorem scan_printed (source : String) {first : List Char} {gaps : List (List Char)}
    (hfirst : Separator first)
    (hlength : gaps.length = ((scan source).tokens.filter (·.kind ≠ .eof)).length)
    (hgaps : ∀ gap ∈ gaps, Separator gap ∧ ∃ c ∈ gap.head?, c ∈ blanks) :
    let tokens := (scan source).tokens.filter (·.kind ≠ .eof)
    let again := scan (String.ofList (first ++ printed tokens gaps))
    again.errors = [] ∧ ∃ read stop, again.tokens = read ++ [stop] ∧ stop.kind = .eof ∧
      read.map Token.content = tokens.map Token.content := by
  intro tokens again
  have htokens : ∀ t ∈ tokens, Lexeme t.lexeme.toList t.kind t.literal := by
    intro t ht
    obtain ⟨hmem, hkind⟩ := List.mem_filter.1 ht
    exact (scan_items_partitioned source).lexeme t (Scanned.mem_tokens_iff.1 hmem)
      (by simpa using hkind)
  obtain ⟨silent, hsilent, hnone⟩ := hfirst.chunks_append (printed tokens gaps)
  obtain ⟨read, hread, hcontent⟩ := itemsFrom_printed htokens hlength hgaps
    (Cursor.past {} (silent.flatMap Chunk.text))
  have hitems : itemsFrom {} (chunks (first ++ printed tokens gaps)) = read.map Item.token := by
    rw [hsilent, itemsFrom_append, itemsFrom_of_silent hnone, List.nil_append, hread]
  have hbefore : tokensBefore (String.ofList (first ++ printed tokens gaps)) = read := by
    rw [tokensBefore, String.toList_ofList, hitems, List.filterMap_map]
    exact List.filterMap_some
  refine ⟨?_, read, endToken (Cursor.past {} (String.ofList (first ++ printed tokens gaps)).toList),
    ?_, rfl, hcontent⟩
  · rw [scan_errors, String.toList_ofList, hitems, List.filterMap_map]
    exact List.filterMap_none read
  · rw [scan_tokens, hbefore]

/-- Tokens that stand close, among them a string that looks like a comment, and one fault. -/
def closeTokens : String :=
  "a/1.5\"//\"@=="

/-- Separators for them: blanks, and comments that hold a quote, a close too few and a slash. -/
def wideGaps : List (List Char) :=
  [" ".toList, "\n// a \" b /*\n".toList, "\t/* \" **/".toList, "\r\n".toList, " // end\n".toList]

theorem wideGaps_separate : ∀ gap ∈ wideGaps, Separator gap ∧ ∃ c ∈ gap.head?, c ∈ blanks := by
  have hline : Separator "\n// a \" b /*\n".toList :=
    .blank (by decide) (@Separator.lineComment " a \" b /*".toList [] (by decide) .nil)
  have hblock : Separator "\t/* \" **/".toList :=
    .blank (by decide) (@Separator.blockComment " \" *".toList [] (by decide) .nil)
  have hend : Separator " // end\n".toList :=
    .blank (by decide) (@Separator.lineComment " end".toList [] (by decide) .nil)
  simp only [wideGaps, List.forall_mem_cons, List.not_mem_nil, false_implies, implies_true,
    and_true]
  refine ⟨⟨.blank (by decide) .nil, ' ', rfl, by decide⟩, ⟨hline, '\n', rfl, by decide⟩,
    ⟨hblock, '\t', rfl, by decide⟩, ⟨?_, '\r', rfl, by decide⟩, ⟨hend, ' ', rfl, by decide⟩⟩
  exact .blank (by decide) (.blank (by decide) .nil)

/-- The fault is dropped, and the five tokens are read again from behind a comment. -/
theorem scan_printed_closeTokens :
    let tokens := (scan closeTokens).tokens.filter (·.kind ≠ .eof)
    let again := scan (String.ofList ("/**/".toList ++ printed tokens wideGaps))
    (scan closeTokens).errors.length = 1 ∧ tokens.length = 5 ∧ again.errors = [] ∧
      ∃ read stop, again.tokens = read ++ [stop] ∧ stop.kind = .eof ∧
        read.map Token.content = tokens.map Token.content := by
  intro tokens again
  have hfaults : (scan closeTokens).errors.length = 1 := by decide +kernel
  have hlength : ((scan closeTokens).tokens.filter (·.kind ≠ .eof)).length = 5 := by
    decide +kernel
  have hfirst : Separator "/**/".toList := @Separator.blockComment [] [] (by decide) .nil
  exact ⟨hfaults, hlength, scan_printed closeTokens hfirst hlength.symm wideGaps_separate⟩

end GradedScript
