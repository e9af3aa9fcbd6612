import GradedScript.Proofs.Scan.Slices
import Mathlib

/-!
# Counting lines

The comments of a text are found by a walk over its characters that knows only whether it is in
code, in a string or in a comment (`remarks`). The scanner, which cuts the text into tokens, finds
the same ones (`remarks_eq_chunks`), so its counts are theirs. Lines of code it counts by looking at
the last one only. That is enough, as tokens end on lines that never go back (`Counted.step`).
-/

namespace GradedScript

/-! ## The comments of a text -/

/-- What a place in a text is inside of. -/
inductive Region where
  | code
  | string
  | lineComment
  | blockComment
deriving DecidableEq

/-- A comment and its text, from its opening on. -/
inductive Remark where
  | line (text : List Char)
  | block (text : List Char)
deriving DecidableEq

/-- Reads a text from a place inside some region: yields the text up to the end of a comment that
the place is in, and the comments that begin later. -/
def readFrom : Region → List Char → List Char × List Remark
  | _, [] => ([], [])
  | .code, '/' :: '/' :: cs =>
    let r := readFrom .lineComment cs
    ([], .line ('/' :: '/' :: r.1) :: r.2)
  | .code, '/' :: '*' :: cs =>
    let r := readFrom .blockComment cs
    ([], .block ('/' :: '*' :: r.1) :: r.2)
  | .code, '"' :: cs => readFrom .string cs
  | .code, _ :: cs => readFrom .code cs
  | .string, '"' :: cs => readFrom .code cs
  | .string, _ :: cs => readFrom .string cs
  | .lineComment, '\n' :: cs => ([], (readFrom .code cs).2)
  | .lineComment, c :: cs =>
    let r := readFrom .lineComment cs
    (c :: r.1, r.2)
  | .blockComment, '*' :: '/' :: cs => (['*', '/'], (readFrom .code cs).2)
  | .blockComment, c :: cs =>
    let r := readFrom .blockComment cs
    (c :: r.1, r.2)

/-- The comments of a text, in order. -/
def remarks (text : List Char) : List Remark :=
  (readFrom .code text).2

/-- Whether a comment runs to the end of its line. -/
def Remark.isLine : Remark → Bool
  | .line _ => true
  | .block _ => false

/-- The lines that a block comment touches. -/
def Remark.blockLines : Remark → Nat
  | .line _ => 0
  | .block text => 1 + newlines text

/-- Every line comment but the last is ended by a newline of its own. -/
theorem countP_readFrom_le (region : Region) (cs : List Char) :
    (readFrom region cs).2.countP Remark.isLine ≤
      newlines cs + if region = .lineComment then 0 else 1 := by
  have hcons : ∀ (c : Char) (cs : List Char),
      newlines (c :: cs) = newlines cs + if c = '\n' then 1 else 0 := by
    intro c cs
    rw [newlines, List.count_cons]
    simp [newlines]
  fun_induction readFrom region cs with
  | case1 => exact Nat.zero_le _
  | case2 cs r ih =>
    -- the comment that opens here takes the place of the one that may open after a newline
    have hline : (Remark.line ('/' :: '/' :: r.1) :: r.2).countP Remark.isLine =
        r.2.countP Remark.isLine + 1 := List.countP_cons_of_pos rfl
    simp only [hline, hcons]
    simpa using ih
  | case8 cs ih => simpa [hcons] using ih
  | _ => grind [Remark.isLine]

/-! ## What stands at the front of a text -/

section

variable {c : Char} {cs body rest text : List Char} {form : Form} {kind : Kind}
  {literal : Option Literal}

theorem remarks_cons (hquote : c ≠ '"') (hline : ¬ ['/', '/'] <+: c :: cs)
    (hblock : ¬ ['/', '*'] <+: c :: cs) : remarks (c :: cs) = remarks cs := by
  unfold remarks
  rw [readFrom.eq_5]
  · rintro ds rfl rfl
    exact hline ⟨ds, rfl⟩
  · rintro ds rfl rfl
    exact hblock ⟨ds, rfl⟩
  · exact hquote

/-- Text without slashes and quotes is no comment. -/
theorem remarks_append (h : ∀ c ∈ text, c ≠ '/' ∧ c ≠ '"') : remarks (text ++ rest) = remarks rest := by
  induction text with
  | nil => rfl
  | cons c text ih =>
    obtain ⟨⟨hslash, hquote⟩, htext⟩ := List.forall_mem_cons.1 h
    have hfront : ∀ d, ¬ ['/', d] <+: c :: (text ++ rest) :=
      fun d hd => hslash (List.cons_prefix_cons.1 hd).1.symm
    rw [List.cons_append, remarks_cons hquote (hfront _) (hfront _), ih htext]

theorem readFrom_string (hbody : '"' ∉ body) :
    readFrom .string (body ++ '"' :: rest) = readFrom .code rest := by
  induction body with
  | nil => rw [List.nil_append, readFrom]
  | cons c body ih =>
    obtain ⟨hc, hbody⟩ := not_or.1 (mt List.mem_cons.2 hbody)
    rw [List.cons_append, readFrom.eq_7 _ _ (Ne.symm hc), ih hbody]

theorem readFrom_openString (hbody : '"' ∉ body) : readFrom .string body = ([], []) := by
  induction body with
  | nil => rw [readFrom]
  | cons c body ih =>
    obtain ⟨hc, hbody⟩ := not_or.1 (mt List.mem_cons.2 hbody)
    rw [readFrom.eq_7 _ _ (Ne.symm hc), ih hbody]

theorem readFrom_lineComment (hbody : '\n' ∉ body) (hrest : ∀ c ∈ rest.head?, c = '\n') :
    readFrom .lineComment (body ++ rest) = (body, remarks rest) := by
  induction body with
  | nil =>
    cases rest with
    | nil => rfl
    | cons c rest =>
      obtain rfl := hrest c rfl
      rfl
  | cons c body ih =>
    obtain ⟨hc, hbody⟩ := not_or.1 (mt List.mem_cons.2 hbody)
    rw [List.cons_append, readFrom.eq_9 _ _ (Ne.symm hc), ih hbody]

theorem readFrom_blockComment (cs : List Char) :
    readFrom .blockComment cs = ((splitClose cs).1, remarks (splitClose cs).2) := by
  fun_induction splitClose cs with
  | case1 => rfl
  | case2 cs => rfl
  | case3 c cs hopen inside rest hsplit ih =>
    rw [hsplit] at ih
    rw [readFrom.eq_11 _ _ hopen, ih]

/-- The comment that a chunk is, if it is one. -/
def Chunk.remark? (chunk : Chunk) : Option Remark :=
  match chunk.form with
  | .lineComment => some (.line chunk.text)
  | .blockComment => some (.block chunk.text)
  | .blank | .token .. | .fault _ => none

/-- A class of characters without the slash and the quote. -/
theorem plain_of_class {p : Char → Bool} (hslash : p '/' = false) (hquote : p '"' = false)
    (hc : p c = true) : c ≠ '/' ∧ c ≠ '"' := by
  constructor <;> rintro rfl
  · exact absurd hc (by simp [hslash])
  · exact absurd hc (by simp [hquote])

/-- A token is no comment, and none begins inside it. -/
theorem Lexeme.remarks_append (h : Lexeme text kind literal) (hline : ¬ ['/', '/'] <+: text ++ rest)
    (hblock : ¬ ['/', '*'] <+: text ++ rest) : remarks (text ++ rest) = remarks rest := by
  have hstart : ∀ c, isWordStart c = true → c ≠ '/' ∧ c ≠ '"' :=
    fun _ => plain_of_class (by decide) (by decide)
  have hword : ∀ c, isWordChar c = true → c ≠ '/' ∧ c ≠ '"' :=
    fun _ => plain_of_class (by decide) (by decide)
  have hdigit : ∀ c : Char, c.isDigit = true → c ≠ '/' ∧ c ≠ '"' :=
    fun _ => plain_of_class (by decide) (by decide)
  cases h with
  | single hc => exact remarks_cons (of_mem_singles hc).2.2.1 hline hblock
  | double hc =>
    obtain ⟨-, -, hquote, hslash, -⟩ := of_mem_doubles hc
    refine GradedScript.remarks_append (List.forall_mem_cons.2 ⟨⟨hslash, hquote⟩, ?_⟩)
    exact List.forall_mem_singleton.2 (by decide)
  | keyword hc hcs | name hc hcs =>
    refine GradedScript.remarks_append (List.forall_mem_cons.2 ⟨hstart _ hc, ?_⟩)
    exact fun d hd => hword d (hcs d hd)
  | whole hc hcs =>
    refine GradedScript.remarks_append (List.forall_mem_cons.2 ⟨hdigit _ hc, ?_⟩)
    exact fun d hd => hdigit d (hcs d hd)
  | fraction hc hcs hd hds =>
    refine GradedScript.remarks_append (List.forall_mem_cons.2 ⟨hdigit _ hc, ?_⟩)
    refine List.forall_mem_append.2 ⟨fun d hd => hdigit d (hcs d hd), ?_⟩
    refine List.forall_mem_cons.2 ⟨by decide, List.forall_mem_cons.2 ⟨hdigit _ hd, ?_⟩⟩
    exact fun d hd => hdigit d (hds d hd)
  | @string body hbody =>
    have htext : '"' :: (body ++ ['"']) ++ rest = '"' :: (body ++ '"' :: rest) := by simp
    rw [htext, remarks, readFrom, readFrom_string hbody, remarks]

/-- The comments of a text, from what stands at its front. -/
theorem Cut.remarks_append (h : Cut form text rest) :
    remarks (text ++ rest) = (Chunk.remark? ⟨form, text⟩).toList ++ remarks rest := by
  cases h with
  | @blank c _ hc =>
    refine GradedScript.remarks_append (List.forall_mem_singleton.2 ?_)
    exact plain_of_class (by decide) (by decide) (mem_blanks_iff.1 hc)
  | @lineComment body _ hbody hrest =>
    show (readFrom .code ('/' :: '/' :: (body ++ rest))).2 = _
    rw [readFrom, readFrom_lineComment hbody hrest]
    rfl
  | @blockComment body _ hfirst =>
    have htext : '/' :: '*' :: (body ++ ['*', '/']) ++ rest =
        '/' :: '*' :: (body ++ '*' :: '/' :: rest) := by simp
    rw [htext, remarks, readFrom, readFrom_blockComment, splitClose_first hfirst]
    rfl
  | @openComment body hopen =>
    rw [List.append_nil, remarks, readFrom, readFrom_blockComment, splitClose_open hopen]
    rfl
  | token hlexeme _ hline hblock => exact hlexeme.remarks_append hline hblock
  | @openString body hbody =>
    rw [List.append_nil, remarks, readFrom, readFrom_openString hbody]
    rfl
  | @unexpected c _ _ hnone =>
    refine GradedScript.remarks_append (List.forall_mem_singleton.2 ⟨?_, ?_⟩) <;> rintro rfl
    · exact hnone ['/'] .slash none (.single (by decide)) rfl
    · exact hnone ['"', '"'] .string _ (.string List.not_mem_nil) rfl

/-- **The scanner finds the comments of a text.** -/
theorem remarks_eq_chunks (cs : List Char) : remarks cs = (chunks cs).filterMap Chunk.remark? := by
  fun_induction chunks cs with
  | case1 => rfl
  | case2 c cs m ih =>
    have hcut : Cut m.form (c :: m.taken) m.rest := munch_cut c cs
    have htext : c :: cs = c :: m.taken ++ m.rest := congrArg (c :: ·) m.split.symm
    rw [htext, hcut.remarks_append, ih]
    cases hremark : Chunk.remark? ⟨m.form, c :: m.taken⟩ <;> simp [hremark]

-- a division, a string with slashes, a block comment with slashes, and a string left open
example : remarks "a / \"//\" /* // */ \"\n// b".toList = [.block "/* // */".toList] := by decide

end

/-! ## Counts of comments -/

theorem Progress.step_comments (p : Progress) (chunk : Chunk) :
    (p.step chunk).comments.singleLine =
        p.comments.singleLine + chunk.remark?.toList.countP Remark.isLine ∧
      (p.step chunk).comments.blockLines =
        p.comments.blockLines + (chunk.remark?.toList.map Remark.blockLines).sum := by
  obtain ⟨form, text⟩ := chunk
  cases form with
  | blockComment =>
    refine ⟨rfl, ?_⟩
    show p.comments.blockLines + newlines text + 1 = p.comments.blockLines + (1 + newlines text + 0)
    omega
  | token kind literal =>
    unfold Progress.step
    dsimp only
    split <;> exact ⟨rfl, rfl⟩
  | _ => exact ⟨rfl, rfl⟩

theorem Progress.foldl_comments (chunks : List Chunk) (p : Progress) :
    (chunks.foldl step p).comments.singleLine =
        p.comments.singleLine + (chunks.filterMap Chunk.remark?).countP Remark.isLine ∧
      (chunks.foldl step p).comments.blockLines =
        p.comments.blockLines + ((chunks.filterMap Chunk.remark?).map Remark.blockLines).sum := by
  induction chunks generalizing p with
  | nil => exact ⟨rfl, rfl⟩
  | cons chunk chunks ih =>
    obtain ⟨hsingle, hblock⟩ := p.step_comments chunk
    obtain ⟨hsingle', hblock'⟩ := ih (p.step chunk)
    have hremarks : (chunk :: chunks).filterMap Chunk.remark? =
        chunk.remark?.toList ++ chunks.filterMap Chunk.remark? := by
      cases hremark : chunk.remark? <;> simp [hremark]
    rw [List.foldl_cons, hremarks, List.countP_append, List.map_append, List.sum_append,
      hsingle', hblock', hsingle, hblock, Nat.add_assoc, Nat.add_assoc]
    exact ⟨rfl, rfl⟩

/-! ## Counts of lines of code

A line is counted when a token ends on it, unless it was the last one counted. Tokens never end
further up than those before them, so no line is counted twice. -/

/-- The lines that the tokens read so far end on. -/
def Progress.tokenLines (p : Progress) : Finset Nat :=
  ((p.items.toList.filterMap Item.token?).map Token.line).toFinset

/-- The lines of code are counted, the last one is the largest, and the walk is not before it. -/
structure Progress.Counted (p : Progress) : Prop where
  count : p.comments.codeLines = p.tokenLines.card
  last_mem : ∀ line ∈ p.lastCodeLine, line ∈ p.tokenLines ∧ line ≤ p.cursor.line
  le_last : ∀ line ∈ p.tokenLines, ∃ last ∈ p.lastCodeLine, line ≤ last

theorem Progress.tokenLines_step (p : Progress) (chunk : Chunk) :
    (p.step chunk).tokenLines =
      p.tokenLines ∪ (((chunk.item? p.cursor).bind Item.token?).map Token.line).toFinset := by
  have hitems := (p.step_spec chunk).2
  rw [tokenLines, hitems, tokenLines, List.filterMap_append, List.map_append, List.toFinset_append]
  cases chunk.item? p.cursor with
  | none => rfl
  | some item => cases item <;> rfl

/-- A chunk that is no token leaves the count as it is. -/
theorem Progress.Counted.of_same {p q : Progress} (h : p.Counted)
    (hcode : q.comments.codeLines = p.comments.codeLines) (hlast : q.lastCodeLine = p.lastCodeLine)
    (hlines : q.tokenLines = p.tokenLines) (hcursor : p.cursor.line ≤ q.cursor.line) :
    q.Counted where
  count := by rw [hcode, hlines, h.count]
  last_mem line hline := by
    rw [hlast] at hline
    rw [hlines]
    exact (h.last_mem line hline).imp_right fun hle => hle.trans hcursor
  le_last := by
    rw [hlast, hlines]
    exact h.le_last

theorem Progress.step_token (p : Progress) (kind : Kind) (literal : Option Literal)
    (text : List Char) :
    let line := (p.cursor.past text).line
    let q := p.step ⟨.token kind literal, text⟩
    q.lastCodeLine = some line ∧ q.comments.codeLines =
      p.comments.codeLines + if p.lastCodeLine = some line then 0 else 1 := by
  intro line q
  by_cases hlast : p.lastCodeLine = some line
  · have hq : q.lastCodeLine = p.lastCodeLine ∧ q.comments.codeLines = p.comments.codeLines := by
      show (p.step _).lastCodeLine = _ ∧ (p.step _).comments.codeLines = _
      unfold Progress.step
      dsimp only
      rw [if_pos hlast]
      exact ⟨rfl, rfl⟩
    rw [hq.1, hq.2, if_pos hlast]
    exact ⟨hlast, rfl⟩
  · show (p.step _).lastCodeLine = _ ∧ (p.step _).comments.codeLines = _
    unfold Progress.step
    dsimp only
    rw [if_neg hlast, if_neg hlast]
    exact ⟨rfl, rfl⟩

theorem Progress.Counted.step {p : Progress} (h : p.Counted) (chunk : Chunk) :
    (p.step chunk).Counted := by
  have hlines := p.tokenLines_step chunk
  have hcursor : (p.step chunk).cursor.line = (p.cursor.past chunk.text).line := by
    rw [(p.step_spec chunk).1]
  have hpast : p.cursor.line ≤ (p.cursor.past chunk.text).line := Nat.le_add_right _ _
  obtain ⟨form, text⟩ := chunk
  cases form with
  | token kind literal =>
    obtain ⟨hlast, hcode⟩ := p.step_token kind literal text
    have hinsert : (p.step ⟨.token kind literal, text⟩).tokenLines =
        insert (p.cursor.past text).line p.tokenLines := by
      rw [hlines, Finset.insert_eq, Finset.union_comm]
      rfl
    -- the walk is past every line counted before, so only the last one can be this one
    have hbefore : ∀ line ∈ p.tokenLines, line ≤ (p.cursor.past text).line ∧
        (line = (p.cursor.past text).line → p.lastCodeLine = some line) := by
      intro line hline
      obtain ⟨last, hmem, hle⟩ := h.le_last line hline
      have hlast := (h.last_mem last hmem).2.trans hpast
      refine ⟨hle.trans hlast, ?_⟩
      rintro rfl
      rw [hle.antisymm hlast]
      exact hmem
    refine ⟨?_, ?_, ?_⟩
    · rw [hcode, hinsert, h.count]
      split
      · rename_i hsame
        rw [Finset.insert_eq_of_mem (h.last_mem _ hsame).1, Nat.add_zero]
      · rename_i hnew
        rw [Finset.card_insert_of_notMem fun hmem => hnew ((hbefore _ hmem).2 rfl)]
    · rw [hlast, hinsert, hcursor]
      rintro line ⟨⟩
      exact ⟨Finset.mem_insert_self _ _, le_rfl⟩
    · rw [hlast, hinsert]
      refine fun line hline => ⟨_, rfl, ?_⟩
      rcases Finset.mem_insert.1 hline with rfl | hline
      · exact le_rfl
      · exact (hbefore line hline).1
  | fault fault =>
    exact h.of_same rfl rfl (hlines.trans (Finset.union_empty _)) (hcursor ▸ hpast)
  | _ => exact h.of_same rfl rfl rfl (hcursor ▸ hpast)

theorem Progress.Counted.foldl {p : Progress} (h : p.Counted) (chunks : List Chunk) :
    (chunks.foldl Progress.step p).Counted := by
  induction chunks generalizing p with
  | nil => exact h
  | cons chunk chunks ih => exact ih (h.step chunk)

/-! ## Scans -/

theorem scan_totalLines (source : String) :
    (scan source).comments.totalLines = 1 + newlines source.toList := by
  have hcursor := (Progress.foldl_step_spec (chunks source.toList) {}).1
  rw [flatMap_text_chunks] at hcursor
  exact congrArg Cursor.line hcursor

/-- The comments of a text are counted. -/
theorem scan_comments (source : String) :
    (scan source).comments.singleLine = (remarks source.toList).countP Remark.isLine ∧
      (scan source).comments.blockLines = ((remarks source.toList).map Remark.blockLines).sum := by
  have hcounts := Progress.foldl_comments (chunks source.toList) {}
  rwa [← remarks_eq_chunks, Nat.zero_add, Nat.zero_add] at hcounts

/-- The lines that tokens other than the end token end on. -/
def Scanned.codeLines (s : Scanned) : Finset Nat :=
  (s.proper.map Token.line).toFinset

theorem codeLines_eq (source : String) :
    (scan source).codeLines = ((tokensBefore source).map Token.line).toFinset := by
  rw [Scanned.codeLines, proper_eq]

theorem scan_codeLines (source : String) :
    (scan source).comments.codeLines = (scan source).codeLines.card := by
  have hcounted : ((chunks source.toList).foldl Progress.step {}).Counted := by
    refine Progress.Counted.foldl ⟨rfl, ?_, ?_⟩ _
    · rintro line ⟨⟩
    · intro line hline
      exact absurd hline (Finset.notMem_empty line)
  have hitems := (Progress.foldl_step_spec (chunks source.toList) {}).2
  rw [codeLines_eq]
  refine hcounted.count.trans ?_
  rw [Progress.tokenLines, hitems]
  rfl

/-- No token ends past the last line. -/
theorem scan_codeLines_subset (source : String) :
    (scan source).codeLines ⊆ Finset.Icc 1 (1 + newlines source.toList) := by
  intro line hline
  obtain ⟨t, ht, rfl⟩ := List.mem_map.1 (List.mem_toFinset.1 hline)
  have hitem := Scanned.mem_tokens_iff.1 (List.mem_of_mem_filter ht)
  obtain ⟨before, text, hstands, -⟩ := (scan_items_partitioned source).stands _ hitem
  have hle : newlines (before ++ text) ≤ newlines source.toList :=
    List.Sublist.count_le _ hstands.front.sublist
  have hline : t.line = 1 + newlines (before ++ text) := hstands.line_eq
  rw [Finset.mem_Icc, hline]
  omega

/-- **Line counts are what they say.** The lines of a text are one more than its newlines. Line
comments are counted that begin in code, outside strings and other comments, at most one a line.
Each block comment that begins in code counts with the lines it touches, closed or not. Lines of
code are the different lines that tokens end on, at most all lines. -/
theorem scan_counts_lines (source : String) :
    (scan source).comments.totalLines = 1 + newlines source.toList ∧
    (scan source).comments.singleLine = (remarks source.toList).countP Remark.isLine ∧
    (scan source).comments.singleLine ≤ (scan source).comments.totalLines ∧
    (scan source).comments.blockLines = ((remarks source.toList).map Remark.blockLines).sum ∧
    (scan source).comments.codeLines = (scan source).codeLines.card ∧
    (scan source).comments.codeLines ≤ (scan source).comments.totalLines := by
  obtain ⟨hsingle, hblock⟩ := scan_comments source
  refine ⟨scan_totalLines source, hsingle, ?_, hblock, scan_codeLines source, ?_⟩
  · have hle := countP_readFrom_le .code source.toList
    rw [scan_totalLines, Nat.add_comm]
    exact hsingle.trans_le hle
  · rw [scan_totalLines, scan_codeLines]
    have hcard := Finset.card_le_card (scan_codeLines_subset source)
    rwa [Nat.card_Icc, Nat.add_sub_cancel] at hcard

end GradedScript
