import GradedScript.Proofs.Machine.Layout
import GradedScript.Proofs.Scan.Slices
import Mathlib

/-!
# What is echoed

An entry is echoed if it looks like an expression at both ends: its first token begins no other
statement, and its last one ends none. The echo then has the text from the first token to the last
between `print` and a semicolon (`echo_slice`), and so the tokens of the entry, whatever stands around
and between them (`echo_tokens`). So each entry that is an expression is printed as that expression
(`echo_prints_expression`). The two ends say nothing of what is between them, though: `a; b` is echoed
as well. What the echo of such an entry amounts to is only found out by the parser
(`echo_reads_expression_iff`).
-/

namespace GradedScript

open Grammar

/-! ## Trimming -/

section

variable {xs : List Chunk}

/-- What is trimmed off is trivia. -/
theorem trimChunks_between (xs : List Chunk) : ∃ before after,
    xs = before ++ trimChunks xs ++ after ∧ (∀ c ∈ before, c.isTrivia = true) ∧
      ∀ c ∈ after, c.isTrivia = true := by
  refine ⟨xs.takeWhile Chunk.isTrivia, (xs.dropWhile Chunk.isTrivia).rtakeWhile Chunk.isTrivia,
    ?_, fun c => List.mem_takeWhile_imp, fun c => List.mem_rtakeWhile_imp⟩
  have hright : trimChunks xs ++ (xs.dropWhile Chunk.isTrivia).rtakeWhile Chunk.isTrivia =
      xs.dropWhile Chunk.isTrivia := by
    unfold trimChunks List.rtakeWhile
    rw [← List.reverse_append, List.takeWhile_append_dropWhile, List.reverse_reverse]
  rw [List.append_assoc, hright, List.takeWhile_append_dropWhile]

theorem trimChunks_head : ∀ c ∈ (trimChunks xs).head?, c.isTrivia = false := by
  intro c hc
  have hfront : trimChunks xs <+: xs.dropWhile Chunk.isTrivia :=
    List.rdropWhile_prefix Chunk.isTrivia (xs.dropWhile Chunk.isTrivia)
  obtain ⟨after, hafter⟩ := hfront
  have hhead := List.head?_dropWhile_not Chunk.isTrivia xs
  rw [← hafter, List.head?_append, Option.mem_def.1 hc] at hhead
  exact hhead

theorem trimChunks_last : ∀ c ∈ (trimChunks xs).getLast?, c.isTrivia = false := by
  intro c hc
  unfold trimChunks at hc
  rw [List.getLast?_reverse] at hc
  have hhead := List.head?_dropWhile_not Chunk.isTrivia (xs.dropWhile Chunk.isTrivia).reverse
  rw [Option.mem_def.1 hc] at hhead
  exact hhead

/-- A chunk that is neither trivia nor at fault is a token. -/
theorem Chunk.exists_token {c : Chunk} (htrivia : c.isTrivia = false) (hfault : c.isFault = false) :
    ∃ kind literal, c.form = .token kind literal := by
  obtain ⟨form, text⟩ := c
  cases form with
  | token kind literal => exact ⟨kind, literal, rfl⟩
  | fault => cases hfault
  | _ => cases htrivia

theorem contents_of_trivia (h : ∀ c ∈ xs, c.isTrivia = true) :
    xs.filterMap Chunk.content? = [] := by
  rw [List.filterMap_eq_nil_iff]
  intro c hc
  have htrivia := h c hc
  obtain ⟨form, text⟩ := c
  cases form with
  | token => cases htrivia
  | _ => rfl

theorem contents_trimChunks (xs : List Chunk) :
    (trimChunks xs).filterMap Chunk.content? = xs.filterMap Chunk.content? := by
  obtain ⟨before, after, hxs, hbefore, hafter⟩ := trimChunks_between xs
  generalize trimChunks xs = ys at hxs ⊢
  rw [hxs, List.filterMap_append, List.filterMap_append, contents_of_trivia hbefore,
    contents_of_trivia hafter, List.nil_append, List.append_nil]

theorem kinds_trimChunks (xs : List Chunk) :
    (trimChunks xs).filterMap Chunk.kind? = xs.filterMap Chunk.kind? := by
  rw [kinds_eq_contents, kinds_eq_contents, contents_trimChunks]

/-- The chunks that are left begin and end with tokens, if none is at fault. -/
theorem trimChunks_ends (hfaults : ∀ c ∈ xs, c.isFault = false) :
    (∀ c ∈ (trimChunks xs).head?, ∃ kind literal, c.form = .token kind literal) ∧
      ∀ c ∈ (trimChunks xs).getLast?, ∃ kind literal, c.form = .token kind literal := by
  have hmem : ∀ c ∈ trimChunks xs, c ∈ xs := by
    obtain ⟨before, after, hxs, -, -⟩ := trimChunks_between xs
    intro c hc
    rw [hxs]
    exact List.mem_append_left _ (List.mem_append_right _ hc)
  refine ⟨fun c hc => ?_, fun c hc => ?_⟩
  · exact c.exists_token (trimChunks_head c hc) (hfaults c (hmem c (List.mem_of_mem_head? hc)))
  · exact c.exists_token (trimChunks_last c hc) (hfaults c (hmem c (List.mem_of_mem_getLast? hc)))

/-- The first kind that is looked at is that of the first token. -/
theorem kind?_head (hfaults : ∀ c ∈ xs, c.isFault = false) :
    (trimChunks xs).head?.bind Chunk.kind? = (xs.filterMap Chunk.kind?).head? := by
  have hhead := (trimChunks_ends hfaults).1
  rw [← kinds_trimChunks]
  generalize trimChunks xs = ys at hhead ⊢
  cases ys with
  | nil => rfl
  | cons y ys =>
    obtain ⟨kind, literal, hform⟩ := hhead y rfl
    have hkind : y.kind? = some kind := by rw [Chunk.kind?, hform]
    rw [List.filterMap_cons_some hkind]
    exact hkind

/-- The last kind that is looked at is that of the last token. -/
theorem kind?_last (hfaults : ∀ c ∈ xs, c.isFault = false) :
    (trimChunks xs).getLast?.bind Chunk.kind? = (xs.filterMap Chunk.kind?).getLast? := by
  have hlast := (trimChunks_ends hfaults).2
  rw [← kinds_trimChunks]
  generalize trimChunks xs = ys at hlast ⊢
  rcases List.eq_nil_or_concat ys with rfl | ⟨ys, y, rfl⟩
  · rfl
  · rw [List.concat_eq_append, List.getLast?_concat] at hlast ⊢
    obtain ⟨kind, literal, hform⟩ := hlast y rfl
    have hkind : y.kind? = some kind := by rw [Chunk.kind?, hform]
    rw [List.filterMap_append, List.filterMap_cons_some hkind, List.filterMap_nil,
      List.getLast?_concat]
    exact hkind

end

/-! ## Entries that look like expressions -/

/-- An entry that is taken for an expression: it has no lexical fault, its first token begins no
other statement, and its last one ends none. -/
def LooksBare (entry : String) : Prop :=
  (scan entry).errors = [] ∧ ∃ first last, (scan entry).proper.head? = some first ∧
    (scan entry).proper.getLast? = some last ∧
    startsStatement first.kind = false ∧ endsStatement last.kind = false

section

variable {entry : String}

/-- The kinds that an entry is judged by. -/
theorem judged_kinds (hscan : (scan entry).errors = []) :
    (trimChunks (chunks entry.toList)).head?.bind Chunk.kind? =
        (scan entry).proper.head?.map Token.kind ∧
      (trimChunks (chunks entry.toList)).getLast?.bind Chunk.kind? =
        (scan entry).proper.getLast?.map Token.kind := by
  have hfaults := (scan_errors_eq_nil_iff entry).1 hscan
  rw [kind?_head hfaults, kind?_last hfaults, ← kinds_tokensBefore, proper_eq, List.head?_map,
    List.getLast?_map]
  exact ⟨rfl, rfl⟩

theorem any_isFault_eq_false (hscan : (scan entry).errors = []) :
    (chunks entry.toList).any Chunk.isFault = false := by
  rw [List.any_eq_false]
  exact fun c hc => Bool.not_eq_true _ ▸ (scan_errors_eq_nil_iff entry).1 hscan c hc

theorem echo_of_looksBare (h : LooksBare entry) : echo entry =
    "print " ++ String.ofList ((trimChunks (chunks entry.toList)).flatMap Chunk.text) ++ ";" := by
  obtain ⟨hscan, first, last, hfirst, hlast, hstarts, hends⟩ := h
  obtain ⟨hhead, htail⟩ := judged_kinds hscan
  unfold echo
  dsimp only
  rw [any_isFault_eq_false hscan, if_neg Bool.false_ne_true, hhead, htail, hfirst, hlast]
  exact if_pos (by rw [isBareExpression, hstarts, hends]; rfl)

theorem echo_of_not_looksBare (h : ¬ LooksBare entry) : echo entry = entry := by
  unfold echo
  dsimp only
  split
  · rfl
  rename_i hfaults
  have hscan : (scan entry).errors = [] := by
    rw [scan_errors_eq_nil_iff]
    simpa using hfaults
  obtain ⟨hhead, htail⟩ := judged_kinds hscan
  rw [hhead, htail]
  split
  · rename_i hfirst hlast
    obtain ⟨first, hhead, rfl⟩ := Option.map_eq_some_iff.1 hfirst
    obtain ⟨last, htail, rfl⟩ := Option.map_eq_some_iff.1 hlast
    refine if_neg fun hbare => h ⟨hscan, first, last, hhead, htail, ?_⟩
    simpa [isBareExpression] using hbare
  · rfl

/-! ## The slice that is echoed

The chunks that are left begin and end with tokens, whose spans are counted in bytes from the start
of the entry. -/

theorem itemsFrom_of_trivia {xs : List Chunk} (h : ∀ c ∈ xs, c.isTrivia = true)
    (cursor : Cursor) : itemsFrom cursor xs = [] := by
  induction xs generalizing cursor with
  | nil => rfl
  | cons x xs ih =>
    obtain ⟨hx, hxs⟩ := List.forall_mem_cons.1 h
    obtain ⟨form, text⟩ := x
    rw [itemsFrom, ih hxs]
    cases form with
    | token => cases hx
    | fault => cases hx
    | _ => rfl

/-- The first token starts where the chunks do, if the first chunk is one. -/
theorem start_of_head {cursor : Cursor} {xs : List Chunk} {t : Token}
    (hxs : ∀ c ∈ xs.head?, ∃ kind literal, c.form = .token kind literal)
    (ht : ((itemsFrom cursor xs).filterMap Item.token?).head? = some t) :
    t.span.start = cursor.offset := by
  cases xs with
  | nil => cases ht
  | cons x xs =>
    obtain ⟨kind, literal, hform⟩ := hxs x rfl
    obtain ⟨_, text⟩ := x
    cases hform
    obtain rfl := Option.some.inj ht
    rfl

/-- The last token stops where the chunks do, if the last chunk is one. -/
theorem stop_of_last {cursor : Cursor} {xs : List Chunk} {t : Token}
    (hxs : ∀ c ∈ xs.getLast?, ∃ kind literal, c.form = .token kind literal)
    (ht : ((itemsFrom cursor xs).filterMap Item.token?).getLast? = some t) :
    t.span.stop = (cursor.past (xs.flatMap Chunk.text)).offset := by
  rcases List.eq_nil_or_concat xs with rfl | ⟨xs, ⟨form, text⟩, rfl⟩
  · cases ht
  rw [List.concat_eq_append] at hxs ht ⊢
  obtain ⟨kind, literal, hform⟩ := hxs _ List.getLast?_concat
  cases hform
  rw [itemsFrom_append, List.filterMap_append] at ht
  rw [List.flatMap_append, Cursor.past_append, List.flatMap_singleton]
  have hlast : (itemsFrom (cursor.past (xs.flatMap Chunk.text))
      [⟨.token kind literal, text⟩]).filterMap Item.token? = [_] := rfl
  rw [hlast, List.getLast?_concat] at ht
  obtain rfl := Option.some.inj ht
  rfl

/-- The bytes of a text between two places are those of the characters there. -/
theorem extract_between (before text after : List Char) :
    (String.ofList (before ++ text ++ after)).toByteArray.extract (byteLength before)
      (byteLength (before ++ text)) = (String.ofList text).toByteArray := by
  have hsize (cs : List Char) : byteLength cs = (String.ofList cs).toByteArray.size := by
    rw [String.size_toByteArray, ← byteLength_toList, String.toList_ofList]
  rw [byteLength_append, hsize, hsize, String.ofList_append, String.ofList_append,
    String.toByteArray_append, String.toByteArray_append, ByteArray.append_assoc]
  calc (_ ++ (_ ++ _) : ByteArray).extract _ _
      = ((String.ofList text).toByteArray ++ (String.ofList after).toByteArray).extract 0
          (String.ofList text).toByteArray.size := ByteArray.extract_append_size_add (i := 0)
    _ = (String.ofList text).toByteArray := ByteArray.extract_append_eq_left rfl

/-- **An echo prints a slice of its entry**: the bytes from the start of the first token to the end
of the last. -/
theorem echo_slice (h : LooksBare entry) {first last : Token}
    (hfirst : (scan entry).proper.head? = some first)
    (hlast : (scan entry).proper.getLast? = some last) :
    (echo entry).toByteArray = "print ".toByteArray ++
      entry.toByteArray.extract first.span.start last.span.stop ++ ";".toByteArray := by
  obtain ⟨before, after, hchunks, hbefore, hafter⟩ := trimChunks_between (chunks entry.toList)
  have hends := trimChunks_ends ((scan_errors_eq_nil_iff entry).1 h.1)
  rw [echo_of_looksBare h]
  have hentry : (chunks entry.toList).flatMap Chunk.text = entry.toList := flatMap_text_chunks
  have htokens : tokensBefore entry =
      (itemsFrom {} (chunks entry.toList)).filterMap Item.token? := rfl
  generalize trimChunks (chunks entry.toList) = xs at *
  rw [hchunks, List.flatMap_append, List.flatMap_append] at hentry
  rw [hchunks, itemsFrom_append, itemsFrom_append, itemsFrom_of_trivia hbefore,
    itemsFrom_of_trivia hafter, List.nil_append, List.append_nil] at htokens
  rw [proper_eq, htokens] at hfirst hlast
  have hstart := start_of_head hends.1 hfirst
  have hstop := stop_of_last hends.2 hlast
  rw [← Cursor.past_append] at hstop
  have hslice : entry.toByteArray.extract first.span.start last.span.stop =
      (String.ofList (xs.flatMap Chunk.text)).toByteArray := by
    rw [hstart, hstop, ← String.ofList_toList (s := entry), ← hentry]
    show (String.ofList _).toByteArray.extract (0 + byteLength _) (0 + byteLength _) = _
    rw [Nat.zero_add, Nat.zero_add, extract_between]
  rw [hslice, String.toByteArray_append, String.toByteArray_append]

/-! ## Tokens of an echo -/

/-- The word that an echo begins with. -/
def printWord : List Char :=
  ['p', 'r', 'i', 'n', 't']

theorem printWord_lexeme : Lexeme printWord .kwPrint none := by
  have hword : String.ofList printWord = "print" := rfl
  exact .keyword rfl (List.all_eq_true.1 rfl) (hword ▸ by simp [keywords])

/-- An echo falls into `print`, a blank, what was trimmed, and a semicolon. -/
theorem chunks_echo (h : LooksBare entry) : chunks (echo entry).toList =
    [⟨.token .kwPrint none, printWord⟩, ⟨.blank, [' ']⟩] ++
      trimChunks (chunks entry.toList) ++ [⟨.token .semicolon none, [';']⟩] := by
  have htext : (echo entry).toList = printWord ++ ' ' ::
      ((trimChunks (chunks entry.toList)).flatMap Chunk.text ++ [';']) := by
    rw [echo_of_looksBare h]
    simp [printWord]
  obtain ⟨hscan, first, last, hfirst, hlast, -⟩ := h
  obtain ⟨-, htail⟩ := judged_kinds hscan
  have hends := (trimChunks_ends ((scan_errors_eq_nil_iff entry).1 hscan)).2
  obtain ⟨before, after, hentry, -, -⟩ := trimChunks_between (chunks entry.toList)
  rw [hlast] at htail
  rw [htext, printWord_lexeme.chunks_append (by decide), chunks_blank (by decide)]
  generalize trimChunks (chunks entry.toList) = ys at *
  rcases List.eq_nil_or_concat ys with rfl | ⟨ys, y, rfl⟩
  · cases htail
  · rw [List.concat_eq_append] at *
    rw [chunks_slice hentry (hends y List.getLast?_concat)]
    simp

theorem contents_echo (h : LooksBare entry) : (tokensBefore (echo entry)).map Token.content =
    [(.kwPrint, "print", none)] ++ (tokensBefore entry).map Token.content ++
      [(.semicolon, ";", none)] := by
  unfold tokensBefore
  rw [contents_itemsFrom, contents_itemsFrom, chunks_echo h, List.filterMap_append,
    List.filterMap_append, contents_trimChunks]
  rfl

/-- Tokens of the same content resemble each other. -/
theorem resemble_of_contents {ts ts' : List Token}
    (h : ts.map Token.content = ts'.map Token.content) :
    List.Forall₂ (Token.Resembles anyPlace) ts ts' := by
  rw [← List.forall₂_eq_eq_eq, List.forall₂_map_left_iff, List.forall₂_map_right_iff] at h
  refine h.imp fun t t' ht => ?_
  obtain ⟨hkind, hcontent⟩ := Prod.mk.inj ht
  obtain ⟨hlexeme, hliteral⟩ := Prod.mk.inj hcontent
  exact ⟨hkind, hlexeme, hliteral, trivial⟩

theorem scan_errors_echo (h : LooksBare entry) : (scan (echo entry)).errors = [] := by
  have hfaults := (scan_errors_eq_nil_iff entry).1 h.1
  obtain ⟨before, after, hentry, -, -⟩ := trimChunks_between (chunks entry.toList)
  rw [scan_errors_eq_nil_iff, chunks_echo h]
  intro c hc
  rcases List.mem_append.1 hc with hc | hc
  · rcases List.mem_append.1 hc with hc | hc
    · rcases List.mem_pair.1 hc with rfl | rfl <;> rfl
    · refine hfaults c ?_
      rw [hentry]
      exact List.mem_append_left _ (List.mem_append_right _ hc)
  · rw [List.mem_singleton.1 hc]
    rfl

/-- **An echo has the tokens of its entry**, between `print` and a semicolon. -/
theorem echo_tokens (h : LooksBare entry) : ∃ keyword rest,
    tokensBefore (echo entry) = keyword :: rest ∧ keyword.kind = .kwPrint ∧
    ∀ semicolon, semicolon.content = (.semicolon, ";", none) →
      (tokensBefore entry ++ [semicolon]).map Token.content = rest.map Token.content := by
  have hcontents := contents_echo h
  rw [List.append_assoc, List.singleton_append, List.map_eq_cons_iff] at hcontents
  obtain ⟨keyword, rest, htokens, hkeyword, hrest⟩ := hcontents
  refine ⟨keyword, rest, htokens, congrArg Prod.fst hkeyword, fun semicolon hsemicolon => ?_⟩
  rw [hrest, List.map_append, List.map_singleton, hsemicolon]

theorem echo_ne_iff : echo entry ≠ entry ↔ LooksBare entry := by
  refine ⟨fun hne => ?_, fun h heq => ?_⟩
  · by_contra h
    exact hne (echo_of_not_looksBare h)
  · have hlength := congrArg List.length (contents_echo h)
    rw [heq] at hlength
    simp only [List.length_append, List.length_map, List.length_singleton] at hlength
    omega

end

/-! ## Expressions by themselves -/

namespace Grammar

/-- What a declaration is: an expression and its semicolon, or something that its first token tells.
With `print` it is the rest as an expression. -/
theorem Declaration.cases_first {p : Place} {ts : List Token} {s : Stmt} (h : Declaration p ts s) :
    (∃ us semicolon e, ts = us ++ [semicolon] ∧ semicolon.kind = .semicolon ∧ s = .expression e ∧
      Expression us e) ∨
    ∃ t us, ts = t :: us ∧ startsStatement t.kind = true ∧ (∀ e, s ≠ .expression e) ∧
      (t.kind = .kwPrint → ∃ e, s = .print e ∧ Declaration p us (.expression e)) := by
  have hother : ∀ {t : Token} {kind : Kind} (us : List Token), ts = t :: us → t.kind = kind →
      startsStatement kind = true ∧ kind ≠ .kwPrint → (∀ e, s ≠ .expression e) →
      ∃ t us, ts = t :: us ∧ startsStatement t.kind = true ∧ (∀ e, s ≠ .expression e) ∧
        (t.kind = .kwPrint → ∃ e, s = .print e ∧ Declaration p us (.expression e)) := by
    rintro t kind us hts rfl ⟨hstarts, hprint⟩ hs
    exact ⟨t, us, hts, hstarts, hs, fun hkind => absurd hkind hprint⟩
  cases h with
  | function hkind => exact .inr (hother _ rfl hkind (by decide) (by simp))
  | varDecl hkind h => exact .inr (hother _ rfl hkind (by decide) (by cases h <;> simp))
  | statement h =>
    cases h with
    | expression h hsemicolon => exact .inl ⟨_, _, _, rfl, hsemicolon, rfl, h⟩
    | print hkind h hsemicolon =>
      exact .inr ⟨_, _, rfl, by rw [hkind]; rfl, by simp,
        fun _ => ⟨_, rfl, .statement (.expression h hsemicolon)⟩⟩
    | breakOut _ hkind => exact .inr (hother _ rfl hkind (by decide) (by simp))
    | giveBack _ hkind => exact .inr (hother _ rfl hkind (by decide) (by simp))
    | block hkind => exact .inr (hother _ rfl hkind (by decide) (by simp))
    | ifThen hkind => exact .inr (hother _ rfl hkind (by decide) (by simp))
    | ifElse hkind => exact .inr (hother _ rfl hkind (by decide) (by simp))
    | whileLoop hkind => exact .inr (hother _ rfl hkind (by decide) (by simp))
    | @forLoop _ _ _ _ _ initializer _ _ _ _ increment _ _ _ hkind =>
      refine .inr (hother _ rfl hkind (by decide) ?_)
      cases initializer <;> cases increment <;> simp [forTree]

/-- No expression begins like another statement. -/
theorem Expression.not_startsStatement {ts us : List Token} {t : Token} {e : Expr}
    (h : Expression ts e) (hts : ts = t :: us) : startsStatement t.kind = false := by
  obtain ⟨t', us', heq, ht⟩ := h.starts
  obtain ⟨rfl, -⟩ := List.cons.inj (hts.symm.trans heq)
  have hall : ∀ kind ∈ expressionStarts, startsStatement kind = false := by decide
  exact hall _ ht

theorem Declarations.exists_cons {p : Place} {t : Token} {ts : List Token} {ss : List Stmt}
    (h : Declarations p (t :: ts) ss) : ∃ us vs s rest, ts = us ++ vs ∧ ss = s :: rest ∧
      Declaration p (t :: us) s ∧ Declarations p vs rest := by
  generalize htokens : t :: ts = tokens at h
  cases h with
  | nil => cases htokens
  | cons h hrest =>
    obtain ⟨t', us, rfl, -⟩ := h.starts
    obtain ⟨rfl, rfl⟩ := List.cons.inj htokens
    exact ⟨us, _, _, _, rfl, rfl, h, hrest⟩

/-- Declarations that begin with a token that begins no other statement begin with an expression
statement. -/
theorem Declarations.exists_expression {p : Place} {t : Token} {ts : List Token} {ss : List Stmt}
    (ht : startsStatement t.kind = false) (h : Declarations p (t :: ts) ss) :
    ∃ e rest, ss = .expression e :: rest := by
  obtain ⟨us, vs, s, rest, -, rfl, hfirst, -⟩ := h.exists_cons
  rcases hfirst.cases_first with ⟨_, _, e, -, -, rfl, -⟩ | ⟨t', us', heq, hstarts, -⟩
  · exact ⟨e, rest, rfl⟩
  · obtain ⟨rfl, -⟩ := List.cons.inj heq
    rw [ht] at hstarts
    cases hstarts

/-- With `print` in front, the first expression is printed and the rest stays. -/
theorem Declarations.print_iff {p : Place} {keyword : Token} {ts : List Token} {ss : List Stmt}
    (hkeyword : keyword.kind = .kwPrint) : Declarations p (keyword :: ts) ss ↔
      ∃ e rest, ss = .print e :: rest ∧ Declarations p ts (.expression e :: rest) := by
  refine ⟨fun h => ?_, ?_⟩
  · obtain ⟨us, vs, s, rest, rfl, rfl, hfirst, hrest⟩ := h.exists_cons
    rcases hfirst.cases_first with ⟨xs, semicolon, e, heq, hsemicolon, -, h⟩ |
      ⟨t, us', heq, -, -, hprint⟩
    · obtain ⟨t, zs, rfl, -⟩ := h.starts
      obtain ⟨rfl, -⟩ := List.cons.inj heq
      have hstarts := h.not_startsStatement rfl
      rw [hkeyword] at hstarts
      cases hstarts
    · obtain ⟨rfl, rfl⟩ := List.cons.inj heq
      obtain ⟨e, rfl, hexpression⟩ := hprint hkeyword
      exact ⟨e, rest, rfl, .cons hexpression hrest⟩
  · rintro ⟨e, rest, rfl, h⟩
    generalize hss : Stmt.expression e :: rest = ss at h
    cases h with
    | nil => cases hss
    | cons h hrest =>
      obtain ⟨rfl, rfl⟩ := List.cons.inj hss
      rcases h.cases_first with ⟨us, semicolon, e', rfl, hsemicolon, heq, h⟩ | ⟨_, _, _, _, hne, _⟩
      · obtain rfl := Stmt.expression.inj heq
        exact .cons (.statement (.print hkeyword h hsemicolon)) hrest
      · exact absurd rfl (hne e)

/-- A single expression statement is an expression before its semicolon. -/
theorem Declarations.expression_iff {p : Place} {ts : List Token} {semicolon : Token} {e : Expr}
    (hsemicolon : semicolon.kind = .semicolon) :
    Declarations p (ts ++ [semicolon]) [.expression e] ↔ Expression ts e := by
  refine ⟨fun h => ?_, fun h => ?_⟩
  · generalize htokens : ts ++ [semicolon] = tokens at h
    cases h with
    | cons h hrest =>
      cases hrest
      rw [List.append_nil] at htokens
      rcases h.cases_first with ⟨us, semicolon', e', rfl, -, heq, h⟩ | ⟨_, _, _, _, hne, _⟩
      · obtain ⟨rfl, -⟩ := List.append_inj' htokens rfl
        obtain rfl := Stmt.expression.inj heq
        exact h
      · exact absurd rfl (hne e)
  · have hone := Declarations.cons (.statement (.expression h hsemicolon)) (.nil (p := p))
    rwa [List.append_nil] at hone

end Grammar

/-! ## Entries and their echoes -/

section

variable {entry : String} {semicolon stop : Token}

/-- Tokens closed by a semicolon are read without a fault exactly if the grammar derives them. -/
theorem parse_closed_iff {ts : List Token} {ss : List Stmt} (honly : ∀ t ∈ ts, t.kind ≠ .eof)
    (hsemicolon : semicolon.kind = .semicolon) (hstop : stop.kind = .eof) :
    parse (ts ++ [semicolon, stop]) = ⟨ss, []⟩ ↔ Declarations .top (ts ++ [semicolon]) ss := by
  have honly' : ∀ t ∈ ts ++ [semicolon], t.kind ≠ .eof := by
    intro t ht
    rcases List.mem_append.1 ht with ht | ht
    · exact honly t ht
    · rw [List.mem_singleton.1 ht, hsemicolon]
      decide
  have hsplit : ts ++ [semicolon, stop] = ts ++ [semicolon] ++ [stop] := by simp
  rw [hsplit]
  refine ⟨fun hparse => ?_, parse_of_declarations hstop honly'⟩
  have hsound := (Parser.parse_obeys (ts ++ [semicolon] ++ [stop])).2
  rw [hparse, Parser.ofTokens_append hstop honly'] at hsound
  exact hsound rfl

/-- A source without lexical faults is read without a fault exactly if the grammar derives its
tokens. -/
theorem Program.reads_iff {source : String} {ss : List Stmt} (hscan : (scan source).errors = []) :
    (Program.ofSource source).errors = [] ∧ (Program.ofSource source).statements = ss ↔
      Declarations .top (tokensBefore source) ss := by
  refine ⟨fun ⟨hvalid, hstatements⟩ => hstatements ▸ Program.derived_before hvalid, fun h => ?_⟩
  have hstop : (endToken (Cursor.past {} source.toList)).kind = .eof := rfl
  have hparse := parse_of_declarations hstop tokensBefore_ne_eof h
  rw [← scan_tokens] at hparse
  unfold Program.ofSource
  dsimp only
  rw [hparse, hscan]
  exact ⟨rfl, rfl⟩

/-- An expression looks like one at both ends. -/
theorem looksBare_of_expression {e : Expr} (hscan : (scan entry).errors = [])
    (h : Expression (tokensBefore entry) e) : LooksBare entry := by
  obtain ⟨first, us, hfirst, -⟩ := h.starts
  obtain ⟨vs, last, hlast, hends⟩ := h.closes
  have hall : ∀ kind ∈ expressionEnds, endsStatement kind = false := by decide
  refine ⟨hscan, first, last, ?_, ?_, h.not_startsStatement hfirst, hall _ hends⟩
  · rw [proper_eq, hfirst]
    rfl
  · rw [proper_eq, hlast, List.getLast?_concat]

/-- Derivations carry over to tokens of the same content. -/
theorem declarations_of_contents {p : Place} {ts ts' : List Token} {ss : List Stmt}
    (h : Declarations p ts ss) (hcontents : ts.map Token.content = ts'.map Token.content) :
    ∃ ss', Declarations p ts' ss' ∧ List.Forall₂ (Stmt.Matches anywhere p) ss ss' :=
  h.transport ((resemble_of_contents hcontents).imp fun _ _ ht => ⟨ht.literal, fun _ _ => ht⟩)

/-- The echo of an entry against the entry closed by a semicolon: if one of them is derived, so is
the other. Then the first statement is an expression, which the echo prints, and the others
match. -/
theorem echo_reads (h : LooksBare entry)
    (hsemicolon : semicolon.content = (.semicolon, ";", none)) :
    (∀ ss, Declarations .top (tokensBefore entry ++ [semicolon]) ss →
      ∃ e rest e' rest', ss = .expression e :: rest ∧
        Declarations .top (tokensBefore (echo entry)) (.print e' :: rest') ∧
        e.Matches anywhere e' ∧ List.Forall₂ (Stmt.Matches anywhere .top) rest rest') ∧
    ∀ ss', Declarations .top (tokensBefore (echo entry)) ss' →
      ∃ ss, Declarations .top (tokensBefore entry ++ [semicolon]) ss := by
  obtain ⟨keyword, others, htokens, hkeyword, hcontents⟩ := echo_tokens h
  have hcontents := hcontents semicolon hsemicolon
  obtain ⟨-, first, -, hfirst, -, hstarts, -⟩ := h
  rw [proper_eq, List.head?_eq_some_iff] at hfirst
  obtain ⟨us, hfirst⟩ := hfirst
  rw [htokens]
  refine ⟨fun ss hss => ?_, fun ss' hss' => ?_⟩
  · obtain ⟨ss', hss', hmatches⟩ := declarations_of_contents hss hcontents
    rw [hfirst] at hss
    obtain ⟨e, rest, rfl⟩ := hss.exists_expression hstarts
    obtain _ | ⟨hone, hrest⟩ := hmatches
    cases hone with
    | expression he =>
      exact ⟨e, rest, _, _, rfl, (Declarations.print_iff hkeyword).2 ⟨_, _, rfl, hss'⟩, he, hrest⟩
  · obtain ⟨e, rest, rfl, hrest⟩ := (Declarations.print_iff hkeyword).1 hss'
    obtain ⟨ss, hss, -⟩ := declarations_of_contents hrest hcontents.symm
    exact ⟨ss, hss⟩

end

/-! ## What is echoed -/

section

variable {entry : String} {semicolon stop : Token}

/-- **Every bare expression is echoed as itself.** If an entry has no lexical fault, and its tokens
closed by a semicolon are read as one expression statement, then its echo has no static fault and is
one statement, which prints that expression: the same up to the places of its tokens, whatever
blanks and comments were around and between them. -/
theorem echo_prints_expression {e : Expr} (hscan : (scan entry).errors = [])
    (hsemicolon : semicolon.kind = .semicolon) (hstop : stop.kind = .eof)
    (hparse : parse ((scan entry).proper ++ [semicolon, stop]) = ⟨[.expression e], []⟩) :
    (Program.ofSource (echo entry)).errors = [] ∧
    ∃ e', (Program.ofSource (echo entry)).statements = [.print e'] ∧ e.Matches anywhere e' := by
  rw [proper_eq, parse_closed_iff tokensBefore_ne_eof hsemicolon hstop,
    Declarations.expression_iff hsemicolon] at hparse
  have hbare := looksBare_of_expression hscan hparse
  have hplain : (plainToken .semicolon ";").kind = .semicolon := rfl
  obtain ⟨_, _, e', rest', heq, hprint, he, hrest⟩ :=
    (echo_reads hbare rfl).1 _ ((Declarations.expression_iff hplain).2 hparse)
  cases heq
  cases hrest
  obtain ⟨hvalid, hstatements⟩ := (Program.reads_iff (scan_errors_echo hbare)).2 hprint
  exact ⟨hvalid, e', hstatements, he⟩

/-- A call over two lines, between comments of which the last has no close. -/
def commentedCall : String :=
  "// first\n f(a, /* then */\n\"b\") /* and"

/-- The call is printed. -/
theorem echo_prints_expression_commentedCall :
    (scan commentedCall).errors = [] ∧ echo commentedCall = "print f(a, /* then */\n\"b\");" ∧
    ∃ e e', parse ((scan commentedCall).proper ++ [plainToken .semicolon ";", plainToken .eof ""]) =
        ⟨[.expression e], []⟩ ∧
      (Program.ofSource (echo commentedCall)).errors = [] ∧
      (Program.ofSource (echo commentedCall)).statements = [.print e'] ∧
      e.Matches anywhere e' := by
  have hscan : (scan commentedCall).errors = [] := by cbv
  have hecho : echo commentedCall = "print f(a, /* then */\n\"b\");" := by cbv
  obtain ⟨e, hparse⟩ : ∃ e, parse ((scan commentedCall).proper ++
      [plainToken .semicolon ";", plainToken .eof ""]) = ⟨[.expression e], []⟩ := ⟨_, by cbv⟩
  obtain ⟨hvalid, e', hstatements, he⟩ := echo_prints_expression hscan rfl rfl hparse
  exact ⟨hscan, hecho, e, e', hparse, hvalid, hstatements, he⟩

/-- **What is echoed looks like an expression, and its echo tells whether it is one.** An entry is
echoed exactly if it has no lexical fault, its first token begins no other statement, and its last
one ends none. Closed by a semicolon it is then read without a fault exactly if the echo is. In that
case its first statement is an expression, which the echo prints, and the others stay as they are.
It is a single expression exactly if the echo is a single statement. -/
theorem echo_reads_expression_iff (entry : String)
    (hsemicolon : semicolon.content = (.semicolon, ";", none)) (hstop : stop.kind = .eof) :
    (echo entry ≠ entry ↔ LooksBare entry) ∧
    (echo entry ≠ entry →
      let closed := parse ((scan entry).proper ++ [semicolon, stop])
      let echoed := Program.ofSource (echo entry)
      (closed.errors = [] ↔ echoed.errors = []) ∧
      (closed.errors = [] → ∃ e rest e' rest', closed.statements = .expression e :: rest ∧
        echoed.statements = .print e' :: rest' ∧ e.Matches anywhere e' ∧
        List.Forall₂ (Stmt.Matches anywhere .top) rest rest') ∧
      ((∃ e, closed = ⟨[.expression e], []⟩) ↔
        echoed.errors = [] ∧ echoed.statements.length = 1)) := by
  refine ⟨echo_ne_iff, ?_⟩
  intro hne closed echoed
  have hbare := echo_ne_iff.1 hne
  have hkind : semicolon.kind = .semicolon := congrArg Prod.fst hsemicolon
  obtain ⟨hforth, hback⟩ := echo_reads hbare hsemicolon
  have hclosed : ∀ ss, closed = ⟨ss, []⟩ ↔
      Declarations .top (tokensBefore entry ++ [semicolon]) ss := by
    intro ss
    rw [← parse_closed_iff tokensBefore_ne_eof hkind hstop, ← proper_eq]
  have hechoed : ∀ ss, echoed.errors = [] ∧ echoed.statements = ss ↔
      Declarations .top (tokensBefore (echo entry)) ss :=
    fun ss => Program.reads_iff (scan_errors_echo hbare)
  -- what is read as the entry, with what is read as its echo
  have hboth : closed.errors = [] → ∃ e rest e' rest', closed = ⟨.expression e :: rest, []⟩ ∧
      (echoed.errors = [] ∧ echoed.statements = .print e' :: rest') ∧ e.Matches anywhere e' ∧
      List.Forall₂ (Stmt.Matches anywhere .top) rest rest' := by
    intro hvalid
    have heq : closed = ⟨closed.statements, []⟩ := by rw [← hvalid]
    obtain ⟨e, rest, e', rest', hss, hprint, he, hrest⟩ := hforth _ ((hclosed _).1 heq)
    exact ⟨e, rest, e', rest', hss ▸ heq, (hechoed _).2 hprint, he, hrest⟩
  have hvalid_iff : closed.errors = [] ↔ echoed.errors = [] := by
    refine ⟨fun hvalid => ?_, fun hvalid => ?_⟩
    · obtain ⟨_, _, _, _, -, ⟨hechoed, -⟩, -⟩ := hboth hvalid
      exact hechoed
    · obtain ⟨ss, hss⟩ := hback _ ((hechoed _).1 ⟨hvalid, rfl⟩)
      rw [(hclosed ss).2 hss]
  refine ⟨hvalid_iff, fun hvalid => ?_, fun ⟨e, hone⟩ => ?_, fun ⟨hvalid, hlength⟩ => ?_⟩
  · obtain ⟨e, rest, e', rest', hread, ⟨-, hprinted⟩, he, hrest⟩ := hboth hvalid
    exact ⟨e, rest, e', rest', by rw [hread], hprinted, he, hrest⟩
  · obtain ⟨_, rest, _, rest', hread, ⟨hechoed, hprinted⟩, -, hrest⟩ := hboth (by rw [hone])
    rw [hone] at hread
    cases hread
    cases hrest
    exact ⟨hechoed, by rw [hprinted]; rfl⟩
  · obtain ⟨e, rest, _, rest', hread, ⟨-, hprinted⟩, -, hrest⟩ := hboth (hvalid_iff.2 hvalid)
    rw [hprinted] at hlength
    have hempty : rest = [] := by
      rw [← List.length_eq_zero_iff, hrest.length_eq]
      simpa using hlength
    exact ⟨e, by rw [hread, hempty]⟩

/-- An entry that is echoed and is an expression. -/
theorem echo_reads_expression_iff_commentedCall :
    echo commentedCall ≠ commentedCall ∧ LooksBare commentedCall ∧
    (Program.ofSource (echo commentedCall)).errors = [] ∧
    ∃ e, parse ((scan commentedCall).proper ++ [plainToken .semicolon ";", plainToken .eof ""]) =
      ⟨[.expression e], []⟩ := by
  have hne : echo commentedCall ≠ commentedCall := by
    have hecho : echo commentedCall = "print f(a, /* then */\n\"b\");" := by cbv
    rw [hecho]
    decide
  have hvalid : (Program.ofSource (echo commentedCall)).errors = [] := by cbv
  have hone : (Program.ofSource (echo commentedCall)).statements.length = 1 := by cbv
  have hsemicolon : (plainToken .semicolon ";").content = (.semicolon, ";", none) := rfl
  have hstop : (plainToken .eof "").kind = .eof := rfl
  obtain ⟨hlooks, hechoed⟩ := echo_reads_expression_iff commentedCall hsemicolon hstop
  exact ⟨hne, hlooks.1 hne, hvalid, (hechoed hne).2.2.2 ⟨hvalid, hone⟩⟩

/-- Two statements that lack only the last semicolon are echoed too: not only expressions are. -/
theorem echo_not_only_expressions :
    echo "a; b" = "print a; b;" ∧
    ¬ ∃ e, parse ((scan "a; b").proper ++ [plainToken .semicolon ";", plainToken .eof ""]) =
      ⟨[.expression e], []⟩ := by
  have hecho : echo "a; b" = "print a; b;" := by cbv
  have htwo : (parse ((scan "a; b").proper ++
      [plainToken .semicolon ";", plainToken .eof ""])).statements.length = 2 := by cbv
  refine ⟨hecho, ?_⟩
  rintro ⟨e, hparse⟩
  rw [hparse] at htwo
  cases htwo

end

end GradedScript
