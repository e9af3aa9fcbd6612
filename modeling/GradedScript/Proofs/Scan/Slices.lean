import GradedScript.Prompt.Echo
import GradedScript.Proofs.Scan.Printing

/-!
# Slices of a text

What stands at the front of a text by the rules of `Cut` is what the scanner takes off it
(`Cut.chunks_append`), so cuts and chunks are the same thing. This allows to change the text around
some chunks and to know that they stay: all it takes is that each of them is still a cut. A stretch
of chunks up to a token can be lifted out of a text and closed with a semicolon (`chunks_slice`),
and a newline at the end of a text changes no token (`kinds_newline`).
-/

namespace GradedScript

/-! ## Cuts are what the scanner takes -/

section

variable {c : Char} {cs ds rest text : List Char} {kind kind' : Kind}
  {literal literal' : Option Literal} {form : Form}

/-- A text is a token of one kind and with one value only. -/
theorem Lexeme.unique (h : Lexeme text kind literal) (h' : Lexeme text kind' literal') :
    kind = kind' ∧ literal = literal' := by
  cases text with
  | nil => exact absurd rfl h.ne_nil
  | cons c cs =>
    -- the scanner, which takes it before a blank, takes it for one token
    have hblank : ' ' ∈ blanks := by decide
    obtain ⟨hform, -⟩ := h.munch_append hblank []
    obtain ⟨hform', -⟩ := h'.munch_append hblank []
    exact Form.token.inj (hform.symm.trans hform')

theorem munch_of_blank (hc : c ∈ blanks) : munch c cs = munchNone .blank cs :=
  if_pos (mem_blanks_iff.1 hc)

theorem Lexeme.head_notMem_blanks (h : Lexeme (c :: cs) kind literal) : c ∉ blanks := by
  intro hc
  obtain ⟨hform, -⟩ := h.munch_append (b := ' ') (by decide) []
  rw [munch_of_blank hc] at hform
  cases hform

/-- The longest lexeme at the front of a text is taken, unless a comment begins there. -/
theorem munch_of_longest (hlexeme : Lexeme (c :: ds) kind literal)
    (hlongest : ∀ longer kind literal, Lexeme longer kind literal → longer <+: c :: ds ++ rest →
      longer.length ≤ (c :: ds).length)
    (hline : ¬ ['/', '/'] <+: c :: ds ++ rest) (hblock : ¬ ['/', '*'] <+: c :: ds ++ rest) :
    (munch c (ds ++ rest)).form = .token kind literal ∧ (munch c (ds ++ rest)).taken = ds := by
  have hcut := munch_cut c (ds ++ rest)
  have hsplit := (munch c (ds ++ rest)).split
  generalize (munch c (ds ++ rest)).form = form, (munch c (ds ++ rest)).taken = taken,
    (munch c (ds ++ rest)).rest = left at hcut hsplit ⊢
  have hwhole : c :: ds ++ rest = c :: taken ++ left := congrArg (c :: ·) hsplit.symm
  rw [hwhole] at hline hblock
  generalize htext : c :: taken = text at hcut hline hblock
  cases hcut with
  | blank hc =>
    obtain ⟨rfl, -⟩ := List.cons.inj htext
    exact absurd hc hlexeme.head_notMem_blanks
  | lineComment => exact absurd (List.prefix_append ['/', '/'] _) hline
  | blockComment => exact absurd ⟨_, rfl⟩ hblock
  | openComment => exact absurd ⟨_, rfl⟩ hblock
  | token hlexeme' hlongest' =>
    subst htext
    have hle := hlongest _ _ _ hlexeme' (hwhole ▸ List.prefix_append _ _)
    have hge := hlongest' _ _ _ hlexeme (hwhole ▸ List.prefix_append _ _)
    obtain ⟨rfl, -⟩ := List.append_inj (List.cons.inj hwhole).2 (by simpa using le_antisymm hge hle)
    obtain ⟨rfl, rfl⟩ := hlexeme.unique hlexeme'
    exact ⟨rfl, rfl⟩
  | openString hbody =>
    obtain ⟨rfl, rfl⟩ := List.cons.inj htext
    -- a string that is a lexeme has its second quote
    obtain ⟨body, rfl, -⟩ := hlexeme.of_quote
    rw [List.append_nil] at hsplit
    exact absurd (by simp [hsplit]) hbody
  | unexpected _ hnone =>
    obtain ⟨rfl, -⟩ := List.cons.inj htext
    exact absurd rfl (hnone _ _ _ hlexeme)

/-- Characters up to one that ends their run, or to the end. -/
theorem takeWhile_run {p : Char → Bool} (hall : ∀ d ∈ ds, p d = true)
    (hrest : ∀ b ∈ rest.head?, p b = false) : (ds ++ rest).takeWhile p = ds := by
  cases rest with
  | nil => rw [List.append_nil, List.takeWhile_eq_self_iff.2 hall]
  | cons b rest => exact takeWhile_stop hall (hrest b rfl)

/-- A block comment without a close is all that is left. -/
theorem splitClose_open (hopen : ¬ ['*', '/'] <:+: cs) : splitClose cs = (cs, []) := by
  rcases splitClose_cases cs with ⟨body, hbody, -⟩ | ⟨hall, -⟩
  · have happend := splitClose_append cs
    rw [hbody] at happend
    exact absurd ⟨body, (splitClose cs).2, happend⟩ hopen
  · exact hall

/-- A character that begins no lexeme and is no blank is taken by itself. -/
theorem munch_of_unexpected (hblank : c ∉ blanks)
    (hnone : ∀ text kind literal, Lexeme text kind literal → text.head? ≠ some c) :
    (munch c rest).form = .fault (.unexpectedCharacter c) ∧ (munch c rest).taken = [] := by
  have hcut := munch_cut c rest
  generalize (munch c rest).form = form, (munch c rest).taken = taken,
    (munch c rest).rest = left at hcut ⊢
  generalize htext : c :: taken = text at hcut
  have hslash : Lexeme ['/'] .slash none := .single (by decide)
  have hquote : Lexeme ['"', '"'] .string (some (.string (String.ofList []))) :=
    .string List.not_mem_nil
  cases hcut with
  | blank hc =>
    obtain ⟨rfl, -⟩ := List.cons.inj htext
    exact absurd hc hblank
  | token hlexeme =>
    subst htext
    exact absurd rfl (hnone _ _ _ hlexeme)
  | unexpected =>
    obtain ⟨rfl, rfl⟩ := List.cons.inj htext
    exact ⟨rfl, rfl⟩
  | openString =>
    obtain ⟨rfl, -⟩ := List.cons.inj htext
    exact absurd rfl (hnone _ _ _ hquote)
  | _ =>
    obtain ⟨rfl, -⟩ := List.cons.inj htext
    exact absurd rfl (hnone _ _ _ hslash)

/-- **What stands at the front of a text is taken off it.** -/
theorem Cut.munch_append (h : Cut form (c :: ds) rest) :
    (munch c (ds ++ rest)).form = form ∧ (munch c (ds ++ rest)).taken = ds := by
  generalize htext : c :: ds = text at h
  cases h with
  | blank hc =>
    obtain ⟨rfl, rfl⟩ := List.cons.inj htext
    rw [munch_of_blank hc]
    exact ⟨rfl, rfl⟩
  | @lineComment body _ hbody hrest =>
    obtain ⟨rfl, rfl⟩ := List.cons.inj htext
    refine ⟨rfl, congrArg ('/' :: ·) (takeWhile_run ?_ ?_)⟩
    · exact fun d hd => bne_iff_ne.2 fun heq => hbody (heq ▸ hd)
    · exact fun b hb => by rw [hrest b hb]; rfl
  | @blockComment body _ hfirst =>
    obtain ⟨rfl, rfl⟩ := List.cons.inj htext
    have hinside : (splitClose (body ++ ['*', '/'] ++ rest)).1 = body ++ ['*', '/'] := by
      rw [List.append_assoc]
      exact congrArg Prod.fst (splitClose_first hfirst)
    exact ⟨rfl, congrArg ('*' :: ·) hinside⟩
  | @openComment body hopen =>
    obtain ⟨rfl, rfl⟩ := List.cons.inj htext
    rw [List.append_nil]
    exact ⟨rfl, congrArg ('*' :: ·) (congrArg Prod.fst (splitClose_open hopen))⟩
  | token hlexeme hlongest hline hblock =>
    subst htext
    exact munch_of_longest hlexeme hlongest hline hblock
  | @openString body hbody =>
    obtain ⟨rfl, rfl⟩ := List.cons.inj htext
    have hdrop : ds.dropWhile (· != '"') = [] :=
      List.dropWhile_eq_nil_iff.2 fun d hd => bne_iff_ne.2 fun heq => hbody (heq ▸ hd)
    have hmunch : munch '"' ds = munchString ds := rfl
    rw [List.append_nil, hmunch, munchString_of_open hdrop]
    exact ⟨rfl, rfl⟩
  | unexpected hblank hnone =>
    obtain ⟨rfl, rfl⟩ := List.cons.inj htext
    exact munch_of_unexpected hblank hnone

/-- A cut is the first chunk of its text. -/
theorem Cut.chunks_append (h : Cut form text rest) :
    chunks (text ++ rest) = ⟨form, text⟩ :: chunks rest := by
  cases text with
  | nil => exact absurd rfl h.ne_nil
  | cons c ds =>
    obtain ⟨hform, htaken⟩ := h.munch_append
    exact chunks_cons ds rest hform htaken

end

/-! ## Chunks in a row -/

section

variable {cs rest : List Char} {xs : List Chunk}

/-- Each chunk of a text is a cut before those after it. -/
theorem cut_of_chunks {before after : List Chunk} {x : Chunk}
    (h : chunks cs = before ++ x :: after) : Cut x.form x.text (after.flatMap Chunk.text) := by
  induction before generalizing cs with
  | nil =>
    cases cs with
    | nil =>
      rw [chunks] at h
      cases h
    | cons c cs =>
      rw [chunks] at h
      obtain ⟨rfl, rfl⟩ := List.cons.inj h
      rw [flatMap_text_chunks]
      exact munch_cut c cs
  | cons y before ih =>
    cases cs with
    | nil =>
      rw [chunks] at h
      cases h
    | cons c cs =>
      rw [chunks] at h
      exact ih (List.cons.inj h).2

/-- Cuts in a row are the first chunks of their text. -/
theorem chunks_of_cuts (h : ∀ before x after, xs = before ++ x :: after →
      Cut x.form x.text (after.flatMap Chunk.text ++ rest)) :
    chunks (xs.flatMap Chunk.text ++ rest) = xs ++ chunks rest := by
  induction xs with
  | nil => rfl
  | cons x xs ih =>
    rw [List.flatMap_cons, List.append_assoc, (h [] x xs rfl).chunks_append, List.cons_append,
      ih fun before y after heq => h (x :: before) y after (by rw [heq]; rfl)]

end

/-! ## Tokens of chunks -/

/-- What the token of a chunk is, wherever the chunk stands. -/
def Chunk.content? (c : Chunk) : Option (Kind × String × Option Literal) :=
  match c.form with
  | .token kind literal => some (kind, String.ofList c.text, literal)
  | _ => none

theorem contents_itemsFrom (cursor : Cursor) (xs : List Chunk) :
    ((itemsFrom cursor xs).filterMap Item.token?).map Token.content =
      xs.filterMap Chunk.content? := by
  induction xs generalizing cursor with
  | nil => rfl
  | cons x xs ih =>
    obtain ⟨form, text⟩ := x
    rw [itemsFrom, List.filterMap_append, List.map_append, ih]
    cases form <;> rfl

theorem kinds_eq_contents (xs : List Chunk) :
    xs.filterMap Chunk.kind? = (xs.filterMap Chunk.content?).map Prod.fst := by
  have hkind : Chunk.kind? = fun c => c.content?.map Prod.fst := by
    funext ⟨form, text⟩
    cases form <;> rfl
  rw [hkind, List.map_filterMap]

/-- The kinds of the tokens that are scanned are those of the chunks. -/
theorem kinds_tokensBefore (source : String) :
    (tokensBefore source).map Token.kind = (chunks source.toList).filterMap Chunk.kind? := by
  rw [kinds_eq_contents, ← contents_itemsFrom {}, List.map_map]
  rfl

/-- A source has no lexical fault exactly if no chunk of it is at fault. -/
theorem scan_errors_eq_nil_iff (source : String) :
    (scan source).errors = [] ↔ ∀ c ∈ chunks source.toList, c.isFault = false := by
  rw [scan_errors]
  generalize ({} : Cursor) = cursor, chunks source.toList = xs
  induction xs generalizing cursor with
  | nil => simp [itemsFrom]
  | cons x xs ih =>
    obtain ⟨form, text⟩ := x
    rw [itemsFrom, List.filterMap_append, List.append_eq_nil_iff, ih, List.forall_mem_cons]
    refine and_congr_left fun _ => ?_
    cases form <;> simp [Chunk.item?, Chunk.isFault, Item.fault?]

/-! ## Before a semicolon -/

section

variable {text : List Char} {kind : Kind} {literal : Option Literal} {form : Form}

/-- Only the semicolon itself is a lexeme that ends in one. -/
theorem Lexeme.eq_nil_of_semicolon {front : List Char}
    (h : Lexeme (front ++ [';']) kind literal) : front = [] := by
  generalize htext : front ++ [';'] = text at h
  have hmem : ';' ∈ text := htext ▸ List.mem_concat_self
  have hlast : text.getLast? = some ';' := htext ▸ List.getLast?_concat
  cases h with
  | single => simpa using congrArg List.length htext
  | double => simp at hlast
  | keyword hc hcs =>
    rcases List.mem_cons.1 hmem with rfl | hmem
    · cases hc
    · cases hcs _ hmem
  | name hc hcs =>
    rcases List.mem_cons.1 hmem with rfl | hmem
    · cases hc
    · cases hcs _ hmem
  | whole hc hcs =>
    rcases List.mem_cons.1 hmem with rfl | hmem
    · cases hc
    · cases hcs _ hmem
  | fraction hc hcs hd hds =>
    simp only [List.mem_cons, List.mem_append] at hmem
    rcases hmem with rfl | hmem | hmem | rfl | hmem
    · cases hc
    · cases hcs _ hmem
    · exact absurd hmem (by decide)
    · cases hd
    · cases hds _ hmem
  | string =>
    rw [← List.cons_append, List.getLast?_concat] at hlast
    exact absurd hlast (by decide)

/-- What is in front of a text and a semicolon is in front of the text, if it does not end in a
semicolon itself. -/
theorem prefix_of_semicolon {us vs rest : List Char} (h : us <+: vs ++ [';'])
    (hlast : ∀ front, us ≠ front ++ [';']) : us <+: vs ++ rest := by
  rcases List.prefix_concat_iff.1 h with rfl | h
  · exact absurd rfl (hlast vs)
  · exact h.trans (List.prefix_append vs rest)

/-- A cut stays one if what is after it is cut off and a semicolon put there, unless that is in a
comment. -/
theorem Cut.semicolon {after rest : List Char} (h : Cut form text (after ++ rest))
    (hform : after = [] → ∃ kind literal, form = .token kind literal) :
    Cut form text (after ++ [';']) := by
  generalize hwhole : after ++ rest = whole at h
  cases h with
  | blank hc => exact .blank hc
  | lineComment hbody hrest =>
    refine .lineComment hbody fun c hc => ?_
    cases after with
    | nil =>
      obtain ⟨kind, literal, hkind⟩ := hform rfl
      cases hkind
    | cons d after =>
      subst hwhole
      exact hrest c hc
  | blockComment hfirst => exact .blockComment hfirst
  | openComment hopen =>
    obtain ⟨kind, literal, hkind⟩ := hform (List.append_eq_nil_iff.1 hwhole).1
    cases hkind
  | token hlexeme hlongest hline hblock =>
    subst hwhole
    have hcomment : ∀ d, d ≠ ';' → ¬ ['/', d] <+: text ++ (after ++ rest) →
        ¬ ['/', d] <+: text ++ (after ++ [';']) := by
      intro d hd hnot hfront
      rw [← List.append_assoc] at hnot hfront
      refine hnot (prefix_of_semicolon hfront fun front heq => hd ?_)
      have hlast := congrArg List.getLast? heq
      simpa using hlast
    refine .token hlexeme ?_ (hcomment _ (by decide) hline) (hcomment _ (by decide) hblock)
    intro longer kind literal hlonger hfront
    by_cases hlast : ∃ front, longer = front ++ [';']
    · obtain ⟨front, rfl⟩ := hlast
      rw [hlonger.eq_nil_of_semicolon]
      exact List.length_pos_iff.2 hlexeme.ne_nil
    · rw [← List.append_assoc] at hfront
      refine hlongest longer kind literal hlonger ?_
      rw [← List.append_assoc]
      exact prefix_of_semicolon hfront fun front heq => hlast ⟨front, heq⟩
  | openString hbody =>
    obtain ⟨kind, literal, hkind⟩ := hform (List.append_eq_nil_iff.1 hwhole).1
    cases hkind
  | unexpected hblank hnone => exact .unexpected hblank hnone

/-- **A stretch of chunks that ends with a token is scanned the same by itself**, before a
semicolon. -/
theorem chunks_slice {cs : List Char} {before xs after : List Chunk} {x : Chunk}
    (h : chunks cs = before ++ (xs ++ [x]) ++ after)
    (hx : ∃ kind literal, x.form = .token kind literal) :
    chunks ((xs ++ [x]).flatMap Chunk.text ++ [';']) =
      xs ++ [x, ⟨.token .semicolon none, [';']⟩] := by
  have hsemicolon : chunks ([';'] ++ []) = [⟨.token .semicolon none, [';']⟩] := by
    have hcut : Cut (.token .semicolon none) [';'] [] := munch_cut ';' []
    rw [hcut.chunks_append, chunks]
  rw [chunks_of_cuts, ← List.append_nil [';'], hsemicolon, List.append_assoc]
  · rfl
  intro front y back heq
  have hy : chunks cs = (before ++ front) ++ y :: (back ++ after) := by
    rw [h, heq]
    simp
  have hcut := cut_of_chunks hy
  rw [List.flatMap_append] at hcut
  refine hcut.semicolon fun hnil => ?_
  -- only the last chunk has nothing after it
  cases back with
  | nil =>
    obtain ⟨-, hlast⟩ := List.append_inj' heq rfl
    rw [← List.singleton_inj.1 hlast]
    exact hx
  | cons z back =>
    have hz : chunks cs = (before ++ front ++ [y]) ++ z :: (back ++ after) := by
      rw [hy]
      simp
    exact absurd (List.append_eq_nil_iff.1 hnil).1 (cut_of_chunks hz).ne_nil

end

/-! ## Before a newline -/

/-- A comment without its close goes on over a newline. -/
theorem Cut.newline_of_unclosed {form : Form} {text rest : List Char} (h : Cut form text rest)
    (hopen : Chunk.isUnclosed ⟨form, text⟩ = true) :
    form = .blockComment ∧ rest = [] ∧ Cut .blockComment (text ++ ['\n']) [] := by
  cases h with
  | @blockComment body =>
    have hclose := List.isSuffixOf_iff_suffix.2 (List.suffix_append body ['*', '/'])
    simp [Chunk.isUnclosed, hclose] at hopen
  | @openComment body hbody =>
    refine ⟨rfl, rfl, .openComment fun hclose => ?_⟩
    rcases List.infix_concat_iff.1 hclose with ⟨front, hlast⟩ | hclose
    · have hend := congrArg List.getLast? hlast
      simp at hend
    · exact hbody hclose
  | _ => cases hopen

/-- **A newline at the end of a text changes no token**, unless the text ends inside a string. -/
theorem kinds_newline {cs : List Char}
    (h : ∀ c ∈ chunks cs, c.form ≠ .fault .unterminatedString) :
    (chunks (cs ++ ['\n'])).filterMap Chunk.kind? = (chunks cs).filterMap Chunk.kind? := by
  fun_induction chunks cs with
  | case1 =>
    rw [List.nil_append, chunks_blank (by decide), chunks]
    rfl
  | case2 c cs m ih =>
    by_cases hopen : Chunk.isUnclosed ⟨m.form, c :: m.taken⟩ = true
    · obtain ⟨hform, hrest, hcut⟩ := (munch_cut c cs).newline_of_unclosed hopen
      have hcs : m.taken = cs := by rw [← List.append_nil m.taken, ← hrest, m.split]
      have hchunks := hcut.chunks_append
      rw [List.append_nil, hcs] at hchunks
      rw [List.cons_append] at hchunks ⊢
      rw [hchunks, hform, hrest, chunks]
      rfl
    · have hclosed : ¬ Chunk.IsOpen ⟨m.form, c :: m.taken⟩ := by
        rintro (hfault | hunclosed)
        · exact h _ List.mem_cons_self hfault
        · exact hopen hunclosed
      have hextends := munch_extends (t := []) hclosed
      rw [List.cons_append, chunks, hextends.form, hextends.taken, hextends.rest]
      simp only [List.filterMap_cons]
      rw [ih fun c hc => h c (List.mem_cons_of_mem _ hc)]

end GradedScript
