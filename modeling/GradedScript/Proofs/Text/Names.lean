import GradedScript.Text.Names
import Mathlib.Data.String.Basic
import Mathlib.Data.List.Sort

/-!
# Lists of names and their order

Names are sorted by their characters. UTF-8 keeps that order: the text that comes first by its
characters comes first by its bytes (`utf8Bytes_lt_of_lt`). So a list that holds each name once is
sorted into one that ascends strictly by bytes (`sortNames_ascending`).
-/

namespace GradedScript

/-! ## The order of bytes -/

/-- The bytes of a text. -/
def utf8Bytes (text : String) : List UInt8 :=
  text.toUTF8.data.toList

theorem utf8Bytes_eq_flatMap (text : String) :
    utf8Bytes text = text.toList.flatMap String.utf8EncodeChar := by
  have hencode : text.toUTF8 = (text.toList.flatMap String.utf8EncodeChar).toByteArray :=
    String.utf8Encode_toList.symm
  rw [utf8Bytes, hencode, List.toList_data_toByteArray]

/-- The last `k` digits of a number to base 64, each as a byte that continues a character. -/
def trail : (k v : Nat) → List UInt8
  | 0, _ => []
  | k + 1, v => trail k (v / 64) ++ [UInt8.ofNat (v % 64 + 128)]

section

variable {v w : Nat} {as bs : List UInt8}

/-- A smaller first byte tells, whatever follows. -/
theorem cons_ofNat_lt (hlt : v < w) (hw : w < 256) : UInt8.ofNat v :: as < UInt8.ofNat w :: bs := by
  refine List.cons_lt_cons_iff.2 (.inl ?_)
  rw [UInt8.lt_iff_toNat_lt, UInt8.toNat_ofNat', UInt8.toNat_ofNat']
  omega

/-- Numbers that agree but for their last digits are told apart by these. -/
theorem trail_append_lt (k : Nat) (hlt : v < w) (hsame : v / 64 ^ k = w / 64 ^ k) :
    trail k v ++ as < trail k w ++ bs := by
  induction k generalizing v w as bs with
  | zero =>
    rw [pow_zero, Nat.div_one, Nat.div_one] at hsame
    omega
  | succ k ih =>
    rw [pow_succ', ← Nat.div_div_eq_div_mul, ← Nat.div_div_eq_div_mul] at hsame
    rw [trail, trail, List.append_assoc, List.append_assoc]
    rcases (Nat.div_le_div_right hlt.le : v / 64 ≤ w / 64).lt_or_eq with hdigits | hdigits
    · exact ih hdigits hsame
    · rw [hdigits]
      exact List.append_left_lt (cons_ofNat_lt (by omega) (by omega))

/-- A number after a first byte that holds its other digits. -/
theorem lead_trail_lt (k base : Nat) (hlt : v < w) (hw : w / 64 ^ k + base < 256) :
    UInt8.ofNat (v / 64 ^ k + base) :: (trail k v ++ as) <
      UInt8.ofNat (w / 64 ^ k + base) :: (trail k w ++ bs) := by
  rcases (Nat.div_le_div_right hlt.le : v / 64 ^ k ≤ w / 64 ^ k).lt_or_eq with hlead | hlead
  · exact cons_ofNat_lt (Nat.add_lt_add_right hlead base) hw
  · rw [hlead]
    exact List.cons_lt_cons_iff.2 (.inr ⟨rfl, trail_append_lt k hlt hlead⟩)

end

/-- A character has one byte or up to three more. How many tells the range of the first byte. -/
inductive Encoded : (v : Nat) → List UInt8 → Prop
  | one {v} (hv : v < 0x80) : Encoded v (UInt8.ofNat (v / 64 ^ 0 + 0) :: trail 0 v)
  | two {v} (hlow : 0x80 ≤ v) (hv : v < 0x800) :
      Encoded v (UInt8.ofNat (v / 64 ^ 1 + 192) :: trail 1 v)
  | three {v} (hlow : 0x800 ≤ v) (hv : v < 0x10000) :
      Encoded v (UInt8.ofNat (v / 64 ^ 2 + 224) :: trail 2 v)
  | four {v} (hlow : 0x10000 ≤ v) (hv : v < 0x110000) :
      Encoded v (UInt8.ofNat (v / 64 ^ 3 + 240) :: trail 3 v)

theorem utf8EncodeChar_encoded (c : Char) : Encoded c.val.toNat (String.utf8EncodeChar c) := by
  have hc : c.val.toNat < 0x110000 := by
    rcases c.valid with h | h <;> omega
  unfold String.utf8EncodeChar
  dsimp only
  generalize c.val.toNat = v at hc
  split
  · simpa [trail] using Encoded.one (v := v) (by omega)
  split
  · have : v / 64 % 32 = v / 64 := by omega
    simpa [trail, this] using Encoded.two (v := v) (by omega) (by omega)
  split
  · have : v / 4096 % 16 = v / 4096 := by omega
    simpa [trail, this, Nat.div_div_eq_div_mul] using Encoded.three (v := v) (by omega) (by omega)
  · have : v / 262144 % 8 = v / 262144 := by omega
    simpa [trail, this, Nat.div_div_eq_div_mul] using Encoded.four (v := v) (by omega) (by omega)

theorem Encoded.append_lt {v w : Nat} {xs ys as bs : List UInt8} (hv : Encoded v xs)
    (hw : Encoded w ys) (hlt : v < w) : xs ++ as < ys ++ bs := by
  cases hv <;> cases hw <;> rw [List.cons_append, List.cons_append]
  case one.one => exact lead_trail_lt 0 0 hlt (by omega)
  case two.two => exact lead_trail_lt 1 192 hlt (by omega)
  case three.three => exact lead_trail_lt 2 224 hlt (by omega)
  case four.four => exact lead_trail_lt 3 240 hlt (by omega)
  -- of characters with different numbers of bytes the first bytes differ
  all_goals exact cons_ofNat_lt (by omega) (by omega)

theorem Encoded.nil_lt_append {v : Nat} {xs as : List UInt8} (h : Encoded v xs) :
    [] < xs ++ as := by
  cases h <;> exact List.Lex.nil

/-- **UTF-8 keeps the order of texts**: characters and bytes put the same one first. -/
theorem utf8Bytes_lt_of_lt {a b : String} (h : a < b) : utf8Bytes a < utf8Bytes b := by
  rw [utf8Bytes_eq_flatMap, utf8Bytes_eq_flatMap]
  have hchars : List.Lex (· < ·) a.toList b.toList := String.lt_iff_toList_lt.1 h
  generalize a.toList = cs, b.toList = ds at hchars
  induction hchars with
  | @nil d ds =>
    rw [List.flatMap_nil, List.flatMap_cons]
    exact (utf8EncodeChar_encoded d).nil_lt_append
  | cons _ ih =>
    rw [List.flatMap_cons, List.flatMap_cons]
    exact List.append_left_lt ih
  | rel hlt =>
    rw [List.flatMap_cons, List.flatMap_cons]
    exact (utf8EncodeChar_encoded _).append_lt (utf8EncodeChar_encoded _) hlt

/-! ## Names held once -/

section

variable {name other : String} {names : List String}

theorem mem_addName : other ∈ addName name names ↔ other = name ∨ other ∈ names := by
  unfold addName
  split
  · rename_i hmem
    have hmem : name ∈ names := by simpa using hmem
    exact ⟨.inr, fun h => h.elim (fun heq => heq ▸ hmem) id⟩
  · rw [List.mem_append, List.mem_singleton, or_comm]

theorem nodup_addName (h : names.Nodup) : (addName name names).Nodup := by
  unfold addName
  split
  · exact h
  · rename_i hmem
    have hmem : name ∉ names := by simpa using hmem
    exact List.nodup_append.2 ⟨h, List.nodup_singleton name, by grind⟩

/-- Names that were added one after the other, each once. -/
theorem mem_foldl_addName {added : List String} :
    other ∈ added.foldl (fun found name => addName name found) names ↔
      other ∈ names ∨ other ∈ added := by
  induction added generalizing names with
  | nil => simp
  | cons name added ih =>
    rw [List.foldl_cons, ih, mem_addName, List.mem_cons, or_comm (a := other = name), or_assoc]

theorem nodup_foldl_addName {added : List String} (h : names.Nodup) :
    (added.foldl (fun found name => addName name found) names).Nodup := by
  induction added generalizing names with
  | nil => exact h
  | cons name added ih => exact ih (nodup_addName h)

/-! ## Names in order -/

theorem mem_sortNames : name ∈ sortNames names ↔ name ∈ names :=
  List.mem_mergeSort

/-- **Sorted names ascend strictly** by their bytes, if the list holds each of them once. -/
theorem sortNames_ascending (h : names.Nodup) :
    (sortNames names).Pairwise fun a b => utf8Bytes a < utf8Bytes b := by
  have hsorted : (sortNames names).Pairwise fun a b => decide (a ≤ b) = true :=
    List.pairwise_mergeSort (by simpa using fun _ _ _ => le_trans) (by simpa using le_total) names
  have hnodup : (sortNames names).Nodup := (List.mergeSort_perm _ _).nodup_iff.2 h
  refine (hsorted.and hnodup).imp fun ⟨hle, hne⟩ => ?_
  exact utf8Bytes_lt_of_lt (lt_of_le_of_ne (of_decide_eq_true hle) hne)

end

end GradedScript
