import GradedScript.Prompt.Completion
import GradedScript.Proofs.Scan.Lexeme
import GradedScript.Proofs.Text.Names
import Mathlib

/-!
# What completion offers

The word that is completed is the longest one that ends at the cursor (`lastWord_longest`), and the
offers are the keywords and known names that begin with it, in ascending order of their bytes
(`complete_exact`).
-/

namespace GradedScript

section

variable {before after word other : List Char} {names : List String} {name : String}

/-! ## The word before the cursor -/

/-- The text before the cursor, found by its length in bytes. -/
theorem takeBytes_append (before after : List Char) :
    takeBytes (before ++ after) (byteLength before) = before := by
  induction before with
  | nil =>
    cases after with
    | nil => rfl
    | cons c after => exact if_neg (Nat.not_le.2 c.utf8Size_pos)
  | cons c before ih =>
    show takeBytes (c :: (before ++ after)) (c.utf8Size + byteLength before) = c :: before
    rw [takeBytes, if_pos (Nat.le_add_right _ _), Nat.add_sub_cancel_left, ih]

theorem exists_append_lastWord (text : List Char) : ∃ front, text = front ++ lastWord text := by
  refine ⟨(text.reverse.dropWhile isWordChar).reverse, ?_⟩
  rw [lastWord, ← List.reverse_append, List.takeWhile_append_dropWhile, List.reverse_reverse]

theorem isWordChar_of_mem_lastWord {text : List Char} {c : Char} (h : c ∈ lastWord text) :
    isWordChar c = true :=
  List.mem_takeWhile_imp (List.mem_reverse.1 h)

/-- No longer text of word characters ends where the word does. -/
theorem lastWord_longest {text : List Char} (hend : other <:+ text)
    (hword : ∀ c ∈ other, isWordChar c = true) : other.length ≤ (lastWord text).length := by
  have hfront : other.reverse <+: text.reverse := List.reverse_prefix.2 hend
  have hlength := length_le_takeWhile hfront fun c hc => hword c (List.mem_reverse.1 hc)
  rw [List.length_reverse] at hlength
  rwa [lastWord, List.length_reverse]

/-! ## Candidates -/

theorem mem_candidates (hword : word ≠ []) :
    name ∈ candidates names word ↔
      (name ∈ keywords.map Prod.fst ∨ name ∈ names) ∧ word <+: name.toList := by
  have hlong : ¬ word.isEmpty = true := by simpa using hword
  rw [candidates, if_neg hlong, mem_sortNames, mem_foldl_addName, List.mem_filter, List.mem_append,
    List.isPrefixOf_iff_prefix]
  exact or_iff_right List.not_mem_nil

theorem candidates_ascending :
    (candidates names word).Pairwise fun a b => utf8Bytes a < utf8Bytes b := by
  unfold candidates
  split
  · exact List.Pairwise.nil
  · exact sortNames_ascending (nodup_foldl_addName List.nodup_nil)

theorem mem_offers {c : Completions} {offer : Offer} :
    offer ∈ c.offers ↔ offer.shown ∈ c.candidates ∧ offer.replacement = offer.shown := by
  constructor
  · intro h
    obtain ⟨name, hname, rfl⟩ := List.mem_map.1 h
    exact ⟨hname, rfl⟩
  · rintro ⟨hname, heq⟩
    refine List.mem_map.2 ⟨offer.shown, hname, ?_⟩
    cases offer
    exact congrArg _ heq.symm

end

/-- **Completion is exact.** Let the cursor stand in a line of any text, between `before` and
`after`. The completed word is the longest one that ends at the cursor: it starts at a character and
not after the cursor, holds word characters only, and no longer text of such characters ends there.
Nothing is offered for an empty word. Otherwise exactly the keywords and known names that begin with
the word are offered, each as its own replacement, in strictly ascending order of their bytes. -/
theorem complete_exact (names : List String) {line : String} {before after : List Char}
    (hline : line.toList = before ++ after) :
    let found := complete names line (byteLength before)
    ∃ front word, before = front ++ word ∧ found.start = byteLength front ∧
      found.start ≤ byteLength before ∧ (∀ c ∈ word, isWordChar c = true) ∧
      (∀ other, other <:+ before → (∀ c ∈ other, isWordChar c = true) →
        other.length ≤ word.length) ∧
      (word = [] → found.offers = []) ∧
      (word ≠ [] → ∀ offer, offer ∈ found.offers ↔
        (offer.shown ∈ keywords.map Prod.fst ∨ offer.shown ∈ names) ∧
          word <+: offer.shown.toList ∧ offer.replacement = offer.shown) ∧
      (found.offers.map Offer.shown).Pairwise fun a b => utf8Bytes a < utf8Bytes b := by
  intro found
  obtain ⟨front, hfront⟩ := exists_append_lastWord before
  have hfound : found = ⟨byteLength before - byteLength (lastWord before),
      candidates names (lastWord before)⟩ := by
    show complete names line (byteLength before) = _
    rw [complete, hline, takeBytes_append]
  have hlength : byteLength before = byteLength front + byteLength (lastWord before) := by
    rw [← byteLength_append, ← hfront]
  have hstart : found.start = byteLength front := by
    rw [hfound, hlength, Nat.add_sub_cancel]
  refine ⟨front, lastWord before, hfront, hstart, ?_, fun c => isWordChar_of_mem_lastWord,
    fun other => lastWord_longest, ?_, ?_, ?_⟩
  · rw [hstart, hlength]
    exact Nat.le_add_right _ _
  · intro hempty
    rw [hfound, hempty]
    rfl
  · intro hword offer
    rw [mem_offers, hfound, mem_candidates hword, and_assoc]
  · have hshown : found.offers.map Offer.shown = found.candidates := by
      simp [Completions.offers, Function.comp_def]
    rw [hshown, hfound]
    exact candidates_ascending

/-- The word after a letter of two bytes; a name that is a keyword too is offered once. -/
theorem complete_exact_afterAccent :
    let found := complete ["funny", "fun", "été"] "é+fu;" (byteLength ['é', '+', 'f', 'u'])
    "é+fu;".toList = ['é', '+', 'f', 'u'] ++ [';'] ∧ found.start = 3 ∧
      found.offers = [⟨"fun", "fun"⟩, ⟨"funny", "funny"⟩] ∧
      ∃ front word, ['é', '+', 'f', 'u'] = front ++ word ∧ found.start = byteLength front ∧
        (word ≠ [] → ∀ offer ∈ found.offers, word <+: offer.shown.toList) := by
  have hline : "é+fu;".toList = ['é', '+', 'f', 'u'] ++ [';'] := by decide
  obtain ⟨front, word, hbefore, hstart, -, -, -, -, hoffers, -⟩ :=
    complete_exact ["funny", "fun", "été"] hline
  refine ⟨hline, by decide +kernel, by cbv, front, word, hbefore, hstart, ?_⟩
  exact fun hword offer hoffer => ((hoffers hword offer).1 hoffer).2.1

end GradedScript
