import GradedScript.Proofs.Scan.LineCounts
import Mathlib

/-!
# Scans compose

A newline between two texts keeps them apart: what is scanned is what both are scanned to, with the
places in the second text moved on, and all counts of lines add up (`scan_composes`). Only a string
or a block comment that the first text leaves open would take the newline in.
-/

namespace GradedScript

section

variable {source next : String}

theorem toList_joined (source next : String) :
    (source ++ "\n" ++ next).toList = source.toList ++ '\n' :: next.toList := by
  simp

/-- The comments of joined texts are those of both. -/
theorem remarks_join (h : ∀ c ∈ chunks source.toList, ¬ c.IsOpen) :
    remarks (source ++ "\n" ++ next).toList = remarks source.toList ++ remarks next.toList := by
  rw [remarks_eq_chunks, remarks_eq_chunks, remarks_eq_chunks, toList_joined, chunks_join h,
    List.filterMap_append]
  rfl

/-- The tokens of joined texts before the end. -/
theorem tokensBefore_join (h : ∀ c ∈ chunks source.toList, ¬ c.IsOpen) :
    tokensBefore (source ++ "\n" ++ next) =
      tokensBefore source ++ (tokensBefore next).map (Token.shift (.past source.toList)) := by
  have htokens : (scan (source ++ "\n" ++ next)).tokens = _ := scan_join_tokens h
  rw [scan_tokens, scan_tokens, List.map_append, ← List.append_assoc] at htokens
  exact (List.append_inj' htokens rfl).1

/-- The lines of code of joined texts are those of the first, and those of the second further
down. -/
theorem codeLines_join (h : ∀ c ∈ chunks source.toList, ¬ c.IsOpen) :
    (scan (source ++ "\n" ++ next)).codeLines =
      (scan source).codeLines ∪
        (scan next).codeLines.map (addRightEmbedding (newlines source.toList + 1)) := by
  rw [codeLines_eq, codeLines_eq, codeLines_eq, tokensBefore_join h, List.map_append,
    List.toFinset_append, List.map_map]
  congr 1
  ext line
  simp only [List.mem_toFinset, List.mem_map, Finset.mem_map]
  constructor
  · rintro ⟨t, ht, rfl⟩
    exact ⟨t.line, ⟨t, ht, rfl⟩, rfl⟩
  · rintro ⟨_, ⟨t, ht, rfl⟩, rfl⟩
    exact ⟨t, ht, rfl⟩

theorem codeLines_disjoint (source next : String) : Disjoint (scan source).codeLines
    ((scan next).codeLines.map (addRightEmbedding (newlines source.toList + 1))) := by
  rw [Finset.disjoint_left]
  intro line hline hmoved
  obtain ⟨line', hline', rfl⟩ := Finset.mem_map.1 hmoved
  have hle := (Finset.mem_Icc.1 (scan_codeLines_subset source hline)).2
  have hge := (Finset.mem_Icc.1 (scan_codeLines_subset next hline')).1
  rw [addRightEmbedding_apply] at hle
  omega

/-- **Scans compose at a newline.** If a text ends neither inside a string nor inside a block
comment, then putting it and a newline in front of another text scans to its own tokens and faults
without the end token, followed by all that the other text is scanned to, moved on by the bytes and
lines before it. The counts of line comments, of lines in block comments, of lines of code and of all
lines are the sums of both. -/
theorem scan_composes (hstring : ∀ e ∈ (scan source).errors, e.fault ≠ .unterminatedString)
    (hcomment : endsInComment source.toList = false) (next : String) :
    (∃ items, (scan source).items =
        items ++ [.token (endToken ⟨source.utf8ByteSize, newlines source.toList + 1⟩)] ∧
      (scan (source ++ "\n" ++ next)).items = items ++ (scan next).items.map
        (Item.shift ⟨source.utf8ByteSize + 1, newlines source.toList + 1⟩)) ∧
    (scan (source ++ "\n" ++ next)).comments.singleLine =
      (scan source).comments.singleLine + (scan next).comments.singleLine ∧
    (scan (source ++ "\n" ++ next)).comments.blockLines =
      (scan source).comments.blockLines + (scan next).comments.blockLines ∧
    (scan (source ++ "\n" ++ next)).comments.codeLines =
      (scan source).comments.codeLines + (scan next).comments.codeLines ∧
    (scan (source ++ "\n" ++ next)).comments.totalLines =
      (scan source).comments.totalLines + (scan next).comments.totalLines := by
  have hopen := not_isOpen_of_closed hstring hcomment
  refine ⟨⟨itemsFrom {} (chunks source.toList), ?_, ?_⟩, ?_, ?_, ?_, ?_⟩
  · rw [scan_items, Cursor.past, byteLength_toList, Nat.zero_add, Nat.add_comm]
  · rw [scan_join hopen, scan_items source, List.dropLast_concat, Shift.past, byteLength_toList]
  · rw [(scan_comments _).1, (scan_comments _).1, (scan_comments _).1, remarks_join hopen,
      List.countP_append]
  · rw [(scan_comments _).2, (scan_comments _).2, (scan_comments _).2, remarks_join hopen,
      List.map_append, List.sum_append]
  · rw [scan_codeLines, scan_codeLines, scan_codeLines, codeLines_join hopen,
      Finset.card_union_of_disjoint (codeLines_disjoint source next), Finset.card_map]
  · rw [scan_totalLines, scan_totalLines, scan_totalLines, toList_joined, newlines,
      List.count_append, List.count_cons_self, newlines, newlines]
    omega

/-- A text with a fault, a string over two lines and a comment that a newline must end. -/
def endsInRemark : String :=
  "a @ \"b\nc\" /* d */ 1. // e"

/-- A text that leaves a string open. -/
def opensString : String :=
  "5 /* f\n */ g \"h"

/-- The point is not taken for one of a fraction, the remark ends, and the counts add up. -/
theorem scan_composes_endsInRemark :
    (∀ e ∈ (scan endsInRemark).errors, e.fault ≠ .unterminatedString) ∧
    endsInComment endsInRemark.toList = false ∧
    (scan (endsInRemark ++ "\n" ++ opensString)).items.length = 9 ∧
    (scan (endsInRemark ++ "\n" ++ opensString)).comments = ⟨1, 3, 4, 4⟩ := by
  have hstring : ∀ e ∈ (scan endsInRemark).errors, e.fault ≠ .unterminatedString := by
    decide +kernel
  have hcomment : endsInComment endsInRemark.toList = false := by decide +kernel
  have hcounts : (scan endsInRemark).comments = ⟨1, 1, 2, 2⟩ ∧
      (scan opensString).comments = ⟨0, 2, 2, 2⟩ := by decide +kernel
  have hlengths : (scan endsInRemark).items.length = 6 ∧ (scan opensString).items.length = 4 := by
    decide +kernel
  obtain ⟨⟨items, hitems, hjoined⟩, hsingle, hblock, hcode, htotal⟩ :=
    scan_composes hstring hcomment opensString
  rw [hcounts.1, hcounts.2] at hsingle hblock hcode htotal
  rw [hitems, List.length_append] at hlengths
  refine ⟨hstring, hcomment, ?_, ?_⟩
  · rw [hjoined, List.length_append, List.length_map, hlengths.2, Nat.succ.inj hlengths.1]
  · generalize (scan (endsInRemark ++ "\n" ++ opensString)).comments = counts at *
    obtain ⟨single, block, code, total⟩ := counts
    subst hsingle hblock hcode htotal
    rfl

end

end GradedScript
