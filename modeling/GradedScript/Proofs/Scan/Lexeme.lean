import GradedScript.Proofs.Scan.Seam
import Mathlib.Data.List.Infix
import Mathlib.Data.List.TakeWhile

/-!
# Lexemes

Which texts are tokens, and where in a text a token, a comment or a fault stands, said without the
scanner. A `Lexeme` is a text that is a token of some kind by itself. `Cut` says what stands at the
front of a text, looking at what follows: a token is the longest lexeme there, a line comment goes
up to a newline, a block comment over the first close.

The first chunk that the scanner takes off a text is always such a cut (`munch_cut`).
-/

namespace GradedScript

/-! ## Texts of tokens -/

/-- The characters between tokens that mean nothing. -/
def blanks : List Char :=
  [' ', '\t', '\r', '\n']

/-- The symbols of one character. -/
def singles : List (Char × Kind) :=
  [('(', .leftParen), (')', .rightParen), ('\x7b', .leftBrace), ('\x7d', .rightBrace),
    (',', .comma), ('.', .dot), ('-', .minus), ('+', .plus), (';', .semicolon), ('/', .slash),
    ('*', .star), ('!', .bang), ('=', .equal), ('>', .greater), ('<', .less)]

/-- The symbols of one character and an equals sign. -/
def doubles : List (Char × Kind) :=
  [('!', .bangEqual), ('=', .equalEqual), ('>', .greaterEqual), ('<', .lessEqual)]

/-- Texts that are a token by themselves, with its kind and value. A word is a keyword if all of it
is one. -/
inductive Lexeme : (text : List Char) → Kind → Option Literal → Prop
  | single {c kind} (hc : (c, kind) ∈ singles) : Lexeme [c] kind none
  | double {c kind} (hc : (c, kind) ∈ doubles) : Lexeme [c, '='] kind none
  | keyword {c cs kind} (hc : isWordStart c = true) (hcs : ∀ d ∈ cs, isWordChar d = true)
      (hword : (String.ofList (c :: cs), kind) ∈ keywords) : Lexeme (c :: cs) kind none
  | name {c cs} (hc : isWordStart c = true) (hcs : ∀ d ∈ cs, isWordChar d = true)
      (hword : ∀ kind, (String.ofList (c :: cs), kind) ∉ keywords) :
      Lexeme (c :: cs) .identifier none
  | whole {c cs} (hc : c.isDigit = true) (hcs : ∀ d ∈ cs, d.isDigit = true) :
      Lexeme (c :: cs) .number (some (.number (Decimal.ofNumeral (c :: cs) []).nearest))
  | fraction {c cs d ds} (hc : c.isDigit = true) (hcs : ∀ d ∈ cs, d.isDigit = true)
      (hd : d.isDigit = true) (hds : ∀ d ∈ ds, d.isDigit = true) :
      Lexeme (c :: (cs ++ '.' :: d :: ds)) .number
        (some (.number (Decimal.ofNumeral (c :: cs) (d :: ds)).nearest))
  | string {body} (hbody : '"' ∉ body) :
      Lexeme ('"' :: (body ++ ['"'])) .string (some (.string (String.ofList body)))

/-- What stands at the front of a text: `text`, with `rest` after it, is a chunk of that form. Only
at the end of all text may a comment or a string lack its end. -/
inductive Cut : Form → (text rest : List Char) → Prop
  | blank {c rest} (hc : c ∈ blanks) : Cut .blank [c] rest
  | lineComment {body rest} (hbody : '\n' ∉ body) (hrest : ∀ c ∈ rest.head?, c = '\n') :
      Cut .lineComment ('/' :: '/' :: body) rest
  | blockComment {body rest} (hfirst : ¬ ['*', '/'] <:+: body ++ ['*']) :
      Cut .blockComment ('/' :: '*' :: (body ++ ['*', '/'])) rest
  | openComment {body} (hopen : ¬ ['*', '/'] <:+: body) : Cut .blockComment ('/' :: '*' :: body) []
  | token {text rest kind literal} (hlexeme : Lexeme text kind literal)
      (hlongest : ∀ longer kind literal, Lexeme longer kind literal → longer <+: text ++ rest →
        longer.length ≤ text.length)
      (hline : ¬ ['/', '/'] <+: text ++ rest) (hblock : ¬ ['/', '*'] <+: text ++ rest) :
      Cut (.token kind literal) text rest
  | openString {body} (hbody : '"' ∉ body) : Cut (.fault .unterminatedString) ('"' :: body) []
  | unexpected {c rest} (hblank : c ∉ blanks)
      (hnone : ∀ text kind literal, Lexeme text kind literal → text.head? ≠ some c) :
      Cut (.fault (.unexpectedCharacter c)) [c] rest

/-! ## Characters -/

section

variable {c : Char} {cs ds : List Char} {kind : Kind} {literal : Option Literal}

theorem mem_blanks_iff : c ∈ blanks ↔ isBlank c = true := by
  simp [blanks, isBlank, or_assoc]

/-- A symbol begins with a character of no other class, and the scanner knows it. -/
theorem of_mem_singles (h : (c, kind) ∈ singles) :
    c.isDigit = false ∧ isWordStart c = false ∧ c ≠ '"' ∧
      (c = '/' ∨ punctuation? c = some kind ∨ (comparison? c).isSome = true) := by
  have hall : ∀ entry ∈ singles, entry.1.isDigit = false ∧ isWordStart entry.1 = false ∧
      entry.1 ≠ '"' ∧ (entry.1 = '/' ∨ punctuation? entry.1 = some entry.2 ∨
        (comparison? entry.1).isSome = true) := by decide
  exact hall _ h

theorem of_mem_doubles (h : (c, kind) ∈ doubles) :
    c.isDigit = false ∧ isWordStart c = false ∧ c ≠ '"' ∧ c ≠ '/' ∧ punctuation? c = none ∧
      (comparison? c).isSome = true := by
  have hall : ∀ entry ∈ doubles, entry.1.isDigit = false ∧ isWordStart entry.1 = false ∧
      entry.1 ≠ '"' ∧ entry.1 ≠ '/' ∧ punctuation? entry.1 = none ∧
        (comparison? entry.1).isSome = true := by decide
  exact hall _ h

theorem mem_singles_of_punctuation (h : punctuation? c = some kind) : (c, kind) ∈ singles := by
  unfold punctuation? at h
  split at h <;> simp at h <;> subst h <;> decide

theorem mem_of_comparison {single double : Kind} (h : comparison? c = some (single, double)) :
    (c, single) ∈ singles ∧ (c, double) ∈ doubles := by
  unfold comparison? at h
  split at h <;> simp at h <;> obtain ⟨rfl, rfl⟩ := h <;> decide

theorem isWordStart_of_isDigit (h : c.isDigit = true) : isWordStart c = false := by
  rw [Bool.eq_false_iff]
  intro hstart
  have hletters : c.isAlpha = (decide ('A'.val ≤ c.val ∧ c.val ≤ 'Z'.val) ||
      decide ('a'.val ≤ c.val) && decide (c.val ≤ 'z'.val)) := rfl
  simp only [isWordStart, hletters, Char.isDigit, Bool.or_eq_true, Bool.and_eq_true,
    decide_eq_true_eq, beq_iff_eq, UInt32.le_iff_toNat_le, ge_iff_le] at h hstart
  have hdigit : '9'.val.toNat = 57 := rfl
  have hupper : 'A'.val.toNat = 65 := rfl
  have hlower : 'a'.val.toNat = 97 := rfl
  rcases hstart with (hletter | hletter) | rfl
  · omega
  · omega
  · exact absurd h.2 (by decide)

/-! ## Lexemes by their first character -/

theorem Lexeme.ne_nil {text : List Char} (h : Lexeme text kind literal) : text ≠ [] := by
  cases h <;> exact List.cons_ne_nil _ _

/-- A lexeme that begins with a digit is a numeral. -/
theorem Lexeme.of_digit (h : Lexeme (c :: cs) kind literal) (hc : c.isDigit = true) :
    (∀ d ∈ cs, d.isDigit = true) ∨ ∃ whole d ds, cs = whole ++ '.' :: d :: ds ∧
      (∀ d ∈ whole, d.isDigit = true) ∧ d.isDigit = true ∧ ∀ d ∈ ds, d.isDigit = true := by
  cases h with
  | single h => exact absurd hc (by simp [(of_mem_singles h).1])
  | double h => exact absurd hc (by simp [(of_mem_doubles h).1])
  | keyword h => exact absurd h (by simp [isWordStart_of_isDigit hc])
  | name h => exact absurd h (by simp [isWordStart_of_isDigit hc])
  | whole _ hcs => exact .inl hcs
  | fraction _ hcs hd hds => exact .inr ⟨_, _, _, rfl, hcs, hd, hds⟩
  | string => exact absurd hc (by decide)

/-- A lexeme that begins like a word is one. -/
theorem Lexeme.of_wordStart (h : Lexeme (c :: cs) kind literal) (hc : isWordStart c = true) :
    ∀ d ∈ cs, isWordChar d = true := by
  cases h with
  | single h => exact absurd hc (by simp [(of_mem_singles h).2.1])
  | double h => exact absurd hc (by simp [(of_mem_doubles h).2.1])
  | keyword _ hcs => exact hcs
  | name _ hcs => exact hcs
  | whole h => exact absurd hc (by simp [isWordStart_of_isDigit h])
  | fraction h => exact absurd hc (by simp [isWordStart_of_isDigit h])
  | string => exact absurd hc (by decide)

/-- A lexeme that begins with a quote is a string. -/
theorem Lexeme.of_quote (h : Lexeme ('"' :: cs) kind literal) :
    ∃ body, cs = body ++ ['"'] ∧ '"' ∉ body := by
  cases h with
  | single h => exact absurd rfl (of_mem_singles h).2.2.1
  | double h => exact absurd rfl (of_mem_doubles h).2.2.1
  | keyword h => exact absurd h (by decide)
  | name h => exact absurd h (by decide)
  | whole h => exact absurd h (by decide)
  | fraction h => exact absurd h (by decide)
  | string hbody => exact ⟨_, rfl, hbody⟩

/-- Any other lexeme is a symbol. -/
theorem Lexeme.of_symbol (h : Lexeme (c :: cs) kind literal) (hdigit : c.isDigit = false)
    (hword : isWordStart c = false) (hquote : c ≠ '"') :
    (cs = [] ∧ (c, kind) ∈ singles) ∨ (cs = ['='] ∧ (c, kind) ∈ doubles) := by
  cases h with
  | single h => exact .inl ⟨rfl, h⟩
  | double h => exact .inr ⟨rfl, h⟩
  | keyword h => exact absurd h (by simp [hword])
  | name h => exact absurd h (by simp [hword])
  | whole h => exact absurd h (by simp [hdigit])
  | fraction h => exact absurd h (by simp [hdigit])
  | string => exact absurd rfl hquote

end

/-! ## Cuts of the scanner -/

section

variable {p : Char → Bool} {c : Char} {cs ds text rest : List Char} {kind : Kind}
  {literal : Option Literal}

/-- What stays in front of all else that satisfies a property. -/
theorem length_le_takeWhile (h : ds <+: cs) (hp : ∀ d ∈ ds, p d = true) :
    ds.length ≤ (cs.takeWhile p).length := by
  obtain ⟨rest, rfl⟩ := h
  rw [List.takeWhile_append_of_pos hp, List.length_append]
  exact Nat.le_add_right _ _

theorem not_head_dropWhile : ∀ d ∈ (cs.dropWhile p).head?, p d = false := by
  intro d hd
  have hnot := List.head?_dropWhile_not p cs
  rw [hd] at hnot
  exact hnot

/-- A cut is of a token if its text is the longest lexeme among those with its first character, and
that is no slash. -/
theorem Cut.of_longest (cs : List Char) (hc : c ≠ '/') (hlexeme : Lexeme (c :: ds) kind literal)
    (hsplit : ds ++ rest = cs) (hlongest : ∀ more kind literal, Lexeme (c :: more) kind literal →
      more <+: cs → more.length ≤ ds.length) : Cut (.token kind literal) (c :: ds) rest := by
  have htext : c :: ds ++ rest = c :: cs := congrArg (c :: ·) hsplit
  have hslash : ∀ d, ¬ ['/', d] <+: c :: ds ++ rest :=
    fun d h => hc (List.cons_prefix_cons.1 h).1.symm
  refine .token hlexeme ?_ (hslash _) (hslash _)
  intro longer kind literal hlonger hfront
  rw [htext] at hfront
  rcases List.prefix_cons_iff.1 hfront with rfl | ⟨more, rfl, hmore⟩
  · exact absurd rfl hlonger.ne_nil
  · exact Nat.succ_le_succ (hlongest more kind literal hlonger hmore)

/-- The first close ends a block comment; without one, all is inside. -/
theorem splitClose_cases (cs : List Char) :
    (∃ body, (splitClose cs).1 = body ++ ['*', '/'] ∧ ¬ ['*', '/'] <:+: body ++ ['*']) ∨
      (splitClose cs = (cs, []) ∧ ¬ ['*', '/'] <:+: cs) := by
  fun_induction splitClose cs with
  | case1 => exact .inr ⟨rfl, by simp⟩
  | case2 cs => exact .inl ⟨[], rfl, fun h => absurd h.length_le (by decide)⟩
  | case3 c cs hopen inside rest hsplit ih =>
    rw [hsplit] at ih
    -- a close that begins with `c` would have been found at once
    have hfront : ∀ us, us <+: cs ++ ['*'] → ¬ ['*', '/'] <+: c :: us := by
      intro us hus hclose
      obtain ⟨rfl, hslash⟩ := List.cons_prefix_cons.1 hclose
      cases cs with
      | nil => exact absurd (List.cons_prefix_cons.1 (hslash.trans hus)).1 (by decide)
      | cons d cs => exact hopen cs rfl (by rw [(List.cons_prefix_cons.1 (hslash.trans hus)).1])
    rcases ih with ⟨body, rfl, hfirst⟩ | ⟨hall, hnone⟩
    · refine .inl ⟨c :: body, rfl, ?_⟩
      have hbody : body ++ ['*'] <+: cs ++ ['*'] := by
        have happend := splitClose_append cs
        rw [hsplit] at happend
        rw [← happend]
        exact ⟨'/' :: (rest ++ ['*']), by simp⟩
      rw [List.cons_append, List.infix_cons_iff]
      rintro (h | h)
      · exact hfront _ hbody h
      · exact hfirst h
    · obtain ⟨rfl, rfl⟩ := Prod.mk.inj hall
      refine .inr ⟨rfl, ?_⟩
      rw [List.infix_cons_iff]
      rintro (h | h)
      · exact hfront _ (List.prefix_append _ _) h
      · exact hnone h

/-- A slash by itself is a token. -/
theorem slash_cut (h : ∀ d ∈ cs.head?, d ≠ '/' ∧ d ≠ '*') : Cut (.token .slash none) ['/'] cs := by
  have hnext : ∀ d, d = '/' ∨ d = '*' → ¬ ['/', d] <+: '/' :: cs := by
    intro d hd hfront
    obtain ⟨-, rest, rfl⟩ := List.cons_prefix_cons.1 hfront
    obtain ⟨hslash, hstar⟩ := h d rfl
    exact hd.elim hslash hstar
  refine .token (.single (by decide)) ?_ (hnext _ (.inl rfl)) (hnext _ (.inr rfl))
  intro longer kind literal hlonger hfront
  rcases List.prefix_cons_iff.1 hfront with rfl | ⟨more, rfl, -⟩
  · exact absurd rfl hlonger.ne_nil
  · rcases hlonger.of_symbol rfl rfl (by decide) with ⟨rfl, -⟩ | ⟨-, hdouble⟩
    · exact Nat.le_refl _
    · exact absurd rfl (of_mem_doubles hdouble).2.2.2.1

theorem munchSlash_cut (cs : List Char) :
    Cut (munchSlash cs).form ('/' :: (munchSlash cs).taken) (munchSlash cs).rest := by
  by_cases hslash : ∃ rest, cs = '/' :: rest
  · obtain ⟨cs, rfl⟩ := hslash
    refine .lineComment (fun hmem => ?_) fun c hc => ?_
    · exact absurd (List.mem_takeWhile_imp hmem) (by decide)
    · simpa using not_head_dropWhile c hc
  by_cases hstar : ∃ rest, cs = '*' :: rest
  · obtain ⟨cs, rfl⟩ := hstar
    show Cut .blockComment ('/' :: '*' :: (splitClose cs).1) (splitClose cs).2
    rcases splitClose_cases cs with ⟨body, hbody, hfirst⟩ | ⟨hall, hnone⟩
    · rw [hbody]
      exact .blockComment hfirst
    · rw [hall]
      exact .openComment hnone
  rw [munchSlash_of_ne (fun rest heq => hslash ⟨rest, heq⟩) fun rest heq => hstar ⟨rest, heq⟩]
  refine slash_cut fun d hd => ⟨?_, ?_⟩ <;> rintro rfl
  · exact hslash (List.head?_eq_some_iff.1 hd)
  · exact hstar (List.head?_eq_some_iff.1 hd)

theorem munchString_of_open (h : cs.dropWhile (· != '"') = []) :
    munchString cs = ⟨.fault .unterminatedString, cs, [], List.append_nil cs⟩ := by
  unfold munchString
  split
  · rename_i h'
    rw [h] at h'
    cases h'
  · rfl

theorem quote_notMem_takeWhile : '"' ∉ cs.takeWhile (· != '"') :=
  fun hmem => absurd (List.mem_takeWhile_imp hmem) (by decide)

theorem munchString_cut (cs : List Char) :
    Cut (munchString cs).form ('"' :: (munchString cs).taken) (munchString cs).rest := by
  cases hdrop : cs.dropWhile (· != '"') with
  | nil =>
    rw [munchString_of_open hdrop]
    have htake := List.takeWhile_append_dropWhile (p := (· != '"')) (l := cs)
    rw [hdrop, List.append_nil] at htake
    exact .openString (htake ▸ quote_notMem_takeWhile)
  | cons quote rest =>
    have hquote : quote = '"' := by
      have hstop := not_head_dropWhile quote (by rw [hdrop]; rfl)
      simpa using hstop
    subst hquote
    obtain ⟨hform, htaken, hrest⟩ := munchString_of_quote hdrop
    rw [hform, htaken, hrest]
    refine .of_longest cs (by decide) (.string quote_notMem_takeWhile) ?_ ?_
    · rw [List.append_assoc, List.singleton_append, ← hdrop]
      exact List.takeWhile_append_dropWhile
    · intro more kind literal hmore hfront
      -- a string ends at its first quote
      obtain ⟨body, rfl, hbody⟩ := hmore.of_quote
      have hall : ∀ d ∈ body, (d != '"') = true := fun d hd =>
        bne_iff_ne.2 fun heq => hbody (heq ▸ hd)
      have hle := length_le_takeWhile ((List.prefix_append body ['"']).trans hfront) hall
      simpa using hle

theorem munchNumber_cut (hc : c.isDigit = true) (cs : List Char) :
    Cut (munchNumber c cs).form (c :: (munchNumber c cs).taken) (munchNumber c cs).rest := by
  have hslash : c ≠ '/' := by
    rintro rfl
    exact absurd hc (by decide)
  -- where a numeral has a fraction, its whole part is all the digits in front
  have hwhole : ∀ whole d ds, whole ++ '.' :: d :: ds <+: cs → (∀ d ∈ whole, d.isDigit = true) →
      whole = cs.takeWhile Char.isDigit ∧
        ∃ rest, cs.dropWhile Char.isDigit = '.' :: d :: (ds ++ rest) := by
    rintro whole d ds ⟨rest, rfl⟩ hdigits
    rw [List.append_assoc, List.takeWhile_append_of_pos hdigits,
      List.dropWhile_append_of_pos hdigits]
    exact ⟨(List.append_nil _).symm, rest, rfl⟩
  by_cases hfraction : ∃ d rest, cs.dropWhile Char.isDigit = '.' :: d :: rest ∧ d.isDigit = true
  · obtain ⟨d, rest, hdrop, hd⟩ := hfraction
    obtain ⟨hform, htaken, hrest⟩ := munchNumber_of_fraction (c := c) hdrop hd
    have hds : (d :: rest).takeWhile Char.isDigit = d :: rest.takeWhile Char.isDigit := by
      rw [List.takeWhile_cons, if_pos hd]
    rw [hform, htaken, hrest, hds]
    have hdigits (cs : List Char) : ∀ d ∈ cs.takeWhile Char.isDigit, d.isDigit = true :=
      fun _ => List.mem_takeWhile_imp
    refine .of_longest cs hslash (.fraction hc (hdigits _) hd (hdigits _)) ?_ ?_
    · rw [List.append_assoc, List.cons_append, ← hds, List.takeWhile_append_dropWhile, ← hdrop]
      exact List.takeWhile_append_dropWhile
    · intro more kind literal hmore hfront
      rw [List.length_append]
      rcases hmore.of_digit hc with hall | ⟨whole, e, es, rfl, hall, -, hes⟩
      · exact (length_le_takeWhile hfront hall).trans (Nat.le_add_right _ _)
      · obtain ⟨hwhole, rest', hdrop'⟩ := hwhole whole e es hfront hall
        have hle : es.length ≤ (rest.takeWhile Char.isDigit).length := by
          rw [hdrop] at hdrop'
          refine length_le_takeWhile ?_ hes
          exact ⟨rest', (List.cons.inj (List.cons.inj hdrop').2).2.symm⟩
        rw [List.length_append, hwhole]
        simpa using hle
  · have hnone : ∀ d rest, cs.dropWhile Char.isDigit = '.' :: d :: rest → d.isDigit = false := by
      intro d rest hdrop
      by_contra hd
      exact hfraction ⟨d, rest, hdrop, by simpa using hd⟩
    rw [munchNumber_of_whole hnone]
    refine .of_longest cs hslash (.whole hc fun _ => List.mem_takeWhile_imp)
      List.takeWhile_append_dropWhile ?_
    intro more kind literal hmore hfront
    rcases hmore.of_digit hc with hall | ⟨whole, d, ds, rfl, hall, hd, -⟩
    · exact length_le_takeWhile hfront hall
    · obtain ⟨-, rest', hdrop'⟩ := hwhole whole d ds hfront hall
      rw [hnone d _ hdrop'] at hd
      cases hd

/-- Every word is a lexeme, of the kind that it is looked up as. -/
theorem Lexeme.of_word (hc : isWordStart c = true) (hcs : ∀ d ∈ cs, isWordChar d = true) :
    Lexeme (c :: cs) (Kind.ofWord (String.ofList (c :: cs))) none := by
  unfold Kind.ofWord
  cases hlookup : keywords.lookup (String.ofList (c :: cs)) with
  | none =>
    refine .name hc hcs fun kind hmem => ?_
    exact absurd rfl (bne_iff_ne.1 (List.lookup_eq_none_iff.1 hlookup _ hmem))
  | some kind =>
    obtain ⟨before, after, heq, -⟩ := List.lookup_eq_some_iff.1 hlookup
    exact .keyword hc hcs (heq ▸ List.mem_append_right _ List.mem_cons_self)

theorem word_cut (hc : isWordStart c = true) (cs : List Char) :
    Cut (word (c :: cs.takeWhile isWordChar)) (c :: cs.takeWhile isWordChar)
      (cs.dropWhile isWordChar) := by
  have hslash : c ≠ '/' := by
    rintro rfl
    exact absurd hc (by decide)
  refine .of_longest cs hslash (.of_word hc fun _ => List.mem_takeWhile_imp)
    List.takeWhile_append_dropWhile ?_
  intro more kind literal hmore hfront
  exact length_le_takeWhile hfront (hmore.of_wordStart hc)

theorem munchComparison_cut {single double : Kind} (h : comparison? c = some (single, double))
    (cs : List Char) : Cut (munchComparison single double cs).form
      (c :: (munchComparison single double cs).taken) (munchComparison single double cs).rest := by
  obtain ⟨hsingle, hdouble⟩ := mem_of_comparison h
  obtain ⟨hdigit, hword, hquote, hslash, -⟩ := of_mem_doubles hdouble
  by_cases hequals : ∃ rest, cs = '=' :: rest
  · obtain ⟨rest, rfl⟩ := hequals
    refine .of_longest ('=' :: rest) hslash (.double hdouble) rfl ?_
    intro more kind literal hmore _
    rcases hmore.of_symbol hdigit hword hquote with ⟨rfl, -⟩ | ⟨rfl, -⟩
    · exact Nat.zero_le _
    · exact Nat.le_refl _
  · rw [munchComparison_of_ne fun rest heq => hequals ⟨rest, heq⟩]
    refine .of_longest cs hslash (.single hsingle) rfl ?_
    intro more kind literal hmore hfront
    rcases hmore.of_symbol hdigit hword hquote with ⟨rfl, -⟩ | ⟨rfl, -⟩
    · exact Nat.le_refl _
    · obtain ⟨rest, rfl⟩ := hfront
      exact absurd ⟨rest, rfl⟩ hequals

/-- **The first chunk of a text is what stands at its front.** -/
theorem munch_cut (c : Char) (cs : List Char) :
    Cut (munch c cs).form (c :: (munch c cs).taken) (munch c cs).rest := by
  unfold munch
  by_cases hblank : isBlank c
  · simp only [if_pos hblank]
    exact .blank (mem_blanks_iff.2 hblank)
  simp only [if_neg hblank]
  by_cases hslash : c == '/'
  · simp only [if_pos hslash]
    rw [beq_iff_eq.1 hslash]
    exact munchSlash_cut cs
  simp only [if_neg hslash]
  by_cases hquote : c == '"'
  · simp only [if_pos hquote]
    rw [beq_iff_eq.1 hquote]
    exact munchString_cut cs
  simp only [if_neg hquote]
  by_cases hdigit : c.isDigit
  · simp only [if_pos hdigit]
    exact munchNumber_cut hdigit cs
  simp only [if_neg hdigit]
  by_cases hword : isWordStart c
  · simp only [if_pos hword]
    exact word_cut hword cs
  simp only [if_neg hword]
  have hslash : c ≠ '/' := fun heq => hslash (beq_iff_eq.2 heq)
  have hquote : c ≠ '"' := fun heq => hquote (beq_iff_eq.2 heq)
  have hdigit : c.isDigit = false := Bool.eq_false_iff.2 hdigit
  have hword : isWordStart c = false := Bool.eq_false_iff.2 hword
  split
  · rename_i kind _ hkind
    refine .of_longest cs hslash (.single (mem_singles_of_punctuation hkind)) rfl ?_
    intro more kind' literal hmore _
    rcases hmore.of_symbol hdigit hword hquote with ⟨rfl, -⟩ | ⟨-, hdouble⟩
    · exact Nat.le_refl _
    · rw [(of_mem_doubles hdouble).2.2.2.2.1] at hkind
      cases hkind
  · rename_i hkinds
    exact munchComparison_cut hkinds cs
  · rename_i hpunctuation hcomparison
    refine .unexpected (fun hmem => hblank (mem_blanks_iff.1 hmem)) ?_
    intro text kind literal htext hhead
    obtain ⟨rest, rfl⟩ := List.head?_eq_some_iff.1 hhead
    rcases htext.of_symbol hdigit hword hquote with ⟨-, hsingle⟩ | ⟨-, hdouble⟩
    · rcases (of_mem_singles hsingle).2.2.2 with heq | heq | hsome
      · exact hslash heq
      · rw [hpunctuation] at heq
        cases heq
      · rw [hcomparison] at hsome
        cases hsome
    · have hsome := (of_mem_doubles hdouble).2.2.2.2.2
      rw [hcomparison] at hsome
      cases hsome

end

/-! ## Values -/

/-- The value that a text of some kind stands for: a numeral, or what is between quotes. -/
def valueOf? (text : List Char) : Kind → Option Literal
  | .number =>
    let (whole, fraction) := text.span Char.isDigit
    some (.number (Decimal.ofNumeral whole fraction.tail).nearest)
  | .string => some (.string (String.ofList text.tail.dropLast))
  | _ => none

theorem valueOf?_eq_none {text : List Char} {kind : Kind}
    (h : kind ≠ .number ∧ kind ≠ .string) : valueOf? text kind = none := by
  unfold valueOf?
  split
  · exact absurd rfl h.1
  · exact absurd rfl h.2
  · rfl

/-- The value of a lexeme is that of its text. -/
theorem Lexeme.literal_eq {text : List Char} {kind : Kind} {literal : Option Literal}
    (h : Lexeme text kind literal) : literal = valueOf? text kind := by
  cases h with
  | single hc =>
    have hall : ∀ entry ∈ singles, entry.2 ≠ .number ∧ entry.2 ≠ .string := by decide
    exact (valueOf?_eq_none (hall _ hc)).symm
  | double hc =>
    have hall : ∀ entry ∈ doubles, entry.2 ≠ .number ∧ entry.2 ≠ .string := by decide
    exact (valueOf?_eq_none (hall _ hc)).symm
  | keyword _ _ hword =>
    have hall : ∀ entry ∈ keywords, entry.2 ≠ .number ∧ entry.2 ≠ .string := by decide
    exact (valueOf?_eq_none (hall _ hword)).symm
  | name => rfl
  | @whole c cs hc hcs =>
    have hdigits : ∀ d ∈ c :: cs, d.isDigit = true := List.forall_mem_cons.2 ⟨hc, hcs⟩
    unfold valueOf?
    rw [List.span_eq_takeWhile_dropWhile, List.takeWhile_eq_self_iff.2 hdigits,
      List.dropWhile_eq_nil_iff.2 hdigits]
    rfl
  | @fraction c cs d ds hc hcs =>
    have hdigits : ∀ d ∈ c :: cs, d.isDigit = true := List.forall_mem_cons.2 ⟨hc, hcs⟩
    unfold valueOf?
    rw [List.span_eq_takeWhile_dropWhile, ← List.cons_append,
      List.takeWhile_append_of_pos hdigits, List.dropWhile_append_of_pos hdigits]
    simp
  | string => simp [valueOf?]

end GradedScript
