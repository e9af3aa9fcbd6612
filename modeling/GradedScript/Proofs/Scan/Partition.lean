import GradedScript.Proofs.Scan.Lexeme

/-!
# A scan partitions its text

The items of a scan and the gaps between them make up the whole text (`scan_partitioned`). Gaps hold
blanks and comments only; each item stands where its span and its line say, and the end token after
all of them. `Partitioned` says so of a text and a list of items, without the scanner.
-/

namespace GradedScript

/-! ## Places -/

/-- The stretch of source that an item takes up. -/
def Item.span : Item → Span
  | .token t => t.span
  | .fault e => e.span

/-- The line that an item ends on. -/
def Item.line : Item → Nat
  | .token t => t.line
  | .fault e => e.line

/-- A text stands in a source, after the text `before`, and its place is the given one: the bytes it
takes up, and the line it ends on. -/
structure Stands (source before text : List Char) (span : Span) (line : Nat) : Prop where
  front : before ++ text <+: source
  span_eq : span = ⟨byteLength before, byteLength (before ++ text)⟩
  line_eq : line = 1 + newlines (before ++ text)

theorem byteLength_toList (s : String) : byteLength s.toList = s.utf8ByteSize := by
  have hlist : ∀ cs : List Char, byteLength cs = (String.ofList cs).utf8ByteSize := by
    intro cs
    induction cs with
    | nil => rfl
    | cons c cs ih =>
      rw [String.ofList_cons, String.utf8ByteSize_append, ← ih]
      simp [byteLength]
  rw [hlist, String.ofList_toList]

/-- A text takes up bytes unless it is empty. -/
theorem byteLength_pos {text : List Char} (h : text ≠ []) : 0 < byteLength text := by
  cases text with
  | nil => exact absurd rfl h
  | cons c text => exact Nat.lt_of_lt_of_le c.utf8Size_pos (Nat.le_add_right _ _)

/-! ## Gaps and items -/

/-- Blanks and comments, one after the other, with `rest` after them. -/
inductive Gap : (gap rest : List Char) → Prop
  | nil {rest} : Gap [] rest
  | cons {form piece gap rest} (hform : form = .blank ∨ form = .lineComment ∨ form = .blockComment)
      (hpiece : Cut form piece (gap ++ rest)) (hgap : Gap gap rest) : Gap (piece ++ gap) rest

/-- The item that a text of some form is, at a place: a token with that text, or a fault. -/
inductive Form.Yields (text : List Char) (line : Nat) (span : Span) : Form → Item → Prop
  | token {kind literal} :
      Yields text line span (.token kind literal)
        (.token ⟨kind, String.ofList text, literal, line, span⟩)
  | fault {fault} : Yields text line span (.fault fault) (.fault ⟨fault, line, span⟩)

/-- A text falls into items with gaps in front of them and a last gap; `before` is what comes before
the text. Each item tells its place in the whole, and after the last gap is the end token. -/
inductive Partitioned : (before text : List Char) → List Item → Prop
  | last {before gap} (hgap : Gap gap []) :
      Partitioned before gap [.token ⟨.eof, "", none, 1 + newlines (before ++ gap),
        ⟨byteLength (before ++ gap), byteLength (before ++ gap)⟩⟩]
  | item {before gap text rest form item items} (hgap : Gap gap (text ++ rest))
      (hcut : Cut form text rest)
      (hitem : form.Yields text (1 + newlines (before ++ gap ++ text))
        ⟨byteLength (before ++ gap), byteLength (before ++ gap ++ text)⟩ item)
      (hrest : Partitioned (before ++ gap ++ text) rest items) :
      Partitioned before (gap ++ (text ++ rest)) (item :: items)

section

variable {before piece rest text : List Char} {item : Item} {items : List Item} {form : Form}
  {kind : Kind} {literal : Option Literal} {line : Nat} {span : Span}

theorem Cut.ne_nil (h : Cut form text rest) : text ≠ [] := by
  cases h with
  | token hlexeme => exact hlexeme.ne_nil
  | _ => exact List.cons_ne_nil _ _

theorem Lexeme.ne_eof (h : Lexeme text kind literal) : kind ≠ .eof := by
  cases h with
  | single hc =>
    have hall : ∀ entry ∈ singles, entry.2 ≠ .eof := by decide
    exact hall _ hc
  | double hc =>
    have hall : ∀ entry ∈ doubles, entry.2 ≠ .eof := by decide
    exact hall _ hc
  | keyword _ _ hword =>
    have hall : ∀ entry ∈ keywords, entry.2 ≠ .eof := by decide
    exact hall _ hword
  | _ => exact Kind.noConfusion

theorem Form.Yields.span_eq (h : form.Yields text line span item) : item.span = span := by
  cases h <;> rfl

theorem Form.Yields.line_eq (h : form.Yields text line span item) : item.line = line := by
  cases h <;> rfl

theorem Form.Yields.lexeme_eq (h : form.Yields text line span item) :
    ∀ t, item = .token t → t.lexeme = String.ofList text := by
  rintro t rfl
  cases h
  rfl

theorem Form.Yields.literal_eq (h : form.Yields text line span item) (hcut : Cut form text rest) :
    ∀ t, item = .token t → t.literal = valueOf? t.lexeme.toList t.kind := by
  rintro t rfl
  cases h
  cases hcut with
  | token hlexeme =>
    show _ = valueOf? (String.ofList text).toList _
    rw [String.toList_ofList]
    exact hlexeme.literal_eq

theorem Form.Yields.ne_eof (h : form.Yields text line span item) (hcut : Cut form text rest) :
    ∀ t, item = .token t → t.kind ≠ .eof := by
  rintro t rfl
  cases h
  cases hcut with
  | token hlexeme => exact hlexeme.ne_eof

/-- A blank or a comment in front of a text belongs to its first gap. -/
theorem Partitioned.skip (h : Partitioned (before ++ piece) rest items)
    (hform : form = .blank ∨ form = .lineComment ∨ form = .blockComment)
    (hpiece : Cut form piece rest) : Partitioned before (piece ++ rest) items := by
  cases h with
  | last hgap =>
    rw [List.append_assoc]
    exact .last (.cons hform (by rwa [List.append_nil]) hgap)
  | item hgap hcut hitem hrest =>
    rw [List.append_assoc before] at hitem hrest
    rw [← List.append_assoc piece]
    exact .item (.cons hform hpiece hgap) hcut hitem hrest

/-- The place after a text from the start. -/
theorem past_start (text : List Char) :
    Cursor.past {} text = ⟨byteLength text, 1 + newlines text⟩ := by
  unfold Cursor.past
  rw [Nat.zero_add]

/-- What a chunk in front of a text yields, and then the text. -/
theorem Partitioned.chunk (hcut : Cut form text rest)
    (hrest : Partitioned (before ++ text) rest items) :
    Partitioned before (text ++ rest)
      ((Chunk.item? (Cursor.past {} before) ⟨form, text⟩).toList ++ items) := by
  have hplace : (Cursor.past {} before).past text =
      ⟨byteLength (before ++ text), 1 + newlines (before ++ text)⟩ := by
    rw [← Cursor.past_append, past_start]
  have hfirst : ∀ item, form.Yields text (1 + newlines (before ++ text))
      ⟨byteLength before, byteLength (before ++ text)⟩ item →
      Partitioned before (text ++ rest) (item :: items) := by
    intro item hitem
    rw [← List.append_nil before] at hitem hrest
    exact .item .nil hcut hitem hrest
  unfold Chunk.item?
  rw [hplace, past_start]
  cases form with
  | blank => exact hrest.skip (.inl rfl) hcut
  | lineComment => exact hrest.skip (.inr (.inl rfl)) hcut
  | blockComment => exact hrest.skip (.inr (.inr rfl)) hcut
  | token kind literal => exact hfirst _ .token
  | fault fault => exact hfirst _ .fault

/-- What the chunks of a text yield, with an end token after it, partitions the text. -/
theorem chunks_partitioned (before text : List Char) :
    Partitioned before text (itemsFrom (Cursor.past {} before) (chunks text) ++
      [.token (endToken (Cursor.past {} (before ++ text)))]) := by
  fun_induction chunks text generalizing before with
  | case1 =>
    rw [past_start (before ++ [])]
    exact .last .nil
  | case2 c cs m ih =>
    have hcut : Cut m.form (c :: m.taken) m.rest := munch_cut c cs
    have htext : c :: cs = c :: m.taken ++ m.rest := congrArg (c :: ·) m.split.symm
    have hrest := ih (before ++ c :: m.taken)
    rw [List.append_assoc before, ← htext, Cursor.past_append] at hrest
    have hchunk := hrest.chunk hcut
    rw [← htext, ← List.append_assoc] at hchunk
    exact hchunk

/-! ## What a partition says of its items -/

/-- The text after a gap stands where it is. -/
theorem stands_after (before gap text rest : List Char) :
    Stands (before ++ (gap ++ (text ++ rest))) (before ++ gap) text
      ⟨byteLength (before ++ gap), byteLength (before ++ gap ++ text)⟩
      (1 + newlines (before ++ gap ++ text)) where
  front := ⟨rest, by simp⟩
  span_eq := rfl
  line_eq := rfl

theorem Partitioned.stands (h : Partitioned before text items) :
    ∀ item ∈ items, ∃ before' text', Stands (before ++ text) before' text' item.span item.line ∧
      ∀ t, item = .token t → t.lexeme = String.ofList text' := by
  induction h with
  | @last before gap _ =>
    intro item hitem
    obtain rfl := List.mem_singleton.1 hitem
    have hstands := stands_after before gap [] []
    simp only [List.append_nil] at hstands
    exact ⟨_, _, hstands, fun t ht => by cases ht; rfl⟩
  | @item before gap text rest _ _ _ _ _ hitem _ ih =>
    intro other hother
    rcases List.mem_cons.1 hother with rfl | hother
    · refine ⟨before ++ gap, text, ?_, hitem.lexeme_eq⟩
      rw [hitem.span_eq, hitem.line_eq]
      exact stands_after before gap text rest
    · simpa only [List.append_assoc] using ih other hother

/-- No item starts before its text does. -/
theorem Partitioned.le_start (h : Partitioned before text items) :
    ∀ item ∈ items, byteLength before ≤ item.span.start := by
  have hle : ∀ us vs : List Char, byteLength us ≤ byteLength (us ++ vs) := by
    intro us vs
    rw [byteLength_append]
    exact Nat.le_add_right _ _
  induction h with
  | last =>
    intro item hitem
    obtain rfl := List.mem_singleton.1 hitem
    exact hle _ _
  | item _ _ hitem _ ih =>
    intro other hother
    rcases List.mem_cons.1 hother with rfl | hother
    · rw [hitem.span_eq]
      exact hle _ _
    · exact ((hle _ _).trans (hle _ _)).trans (ih other hother)

/-- Each item starts at or after the end of those before it. -/
theorem Partitioned.pairwise (h : Partitioned before text items) :
    items.Pairwise fun i j => i.span.stop ≤ j.span.start := by
  induction h with
  | last => exact List.pairwise_singleton _ _
  | item _ _ hitem hrest ih =>
    refine List.pairwise_cons.2 ⟨?_, ih⟩
    rw [hitem.span_eq]
    exact hrest.le_start

/-- The last item is the end token, after all text; the others are not empty, and none of them is an
end token. -/
theorem Partitioned.ends (h : Partitioned before text items) :
    ∃ others stop, items = others ++ [.token stop] ∧ stop.kind = .eof ∧
      stop.span = ⟨byteLength (before ++ text), byteLength (before ++ text)⟩ ∧
      ∀ item ∈ others, item.span.start < item.span.stop ∧
        ∀ t, item = .token t → t.kind ≠ .eof := by
  have hlt : ∀ us vs : List Char, vs ≠ [] → byteLength us < byteLength (us ++ vs) := by
    intro us vs hvs
    rw [byteLength_append]
    exact Nat.lt_add_of_pos_right (byteLength_pos hvs)
  induction h with
  | last => exact ⟨[], _, rfl, rfl, rfl, by simp⟩
  | item _ hcut hitem _ ih =>
    obtain ⟨others, stop, rfl, hkind, hspan, hothers⟩ := ih
    refine ⟨_ :: others, stop, rfl, hkind, by simpa only [List.append_assoc] using hspan, ?_⟩
    intro other hother
    rcases List.mem_cons.1 hother with rfl | hother
    · rw [hitem.span_eq]
      exact ⟨hlt _ _ hcut.ne_nil, hitem.ne_eof hcut⟩
    · exact hothers other hother

/-- The value of a token is that of its text. -/
theorem Partitioned.literal_eq (h : Partitioned before text items) :
    ∀ item ∈ items, ∀ t, item = .token t → t.literal = valueOf? t.lexeme.toList t.kind := by
  induction h with
  | last =>
    intro item hitem t ht
    obtain rfl := List.mem_singleton.1 hitem
    cases ht
    rfl
  | item _ hcut hitem _ ih =>
    intro other hother
    rcases List.mem_cons.1 hother with rfl | hother
    · exact hitem.literal_eq hcut
    · exact ih other hother

end

/-! ## Scans -/

theorem scan_items_partitioned (source : String) :
    Partitioned [] source.toList (scan source).items := by
  rw [scan_items]
  exact chunks_partitioned [] source.toList

theorem Item.token?_eq_some_iff {item : Item} {t : Token} :
    item.token? = some t ↔ item = .token t := by
  cases item <;> simp [Item.token?]

theorem Item.fault?_eq_some_iff {item : Item} {e : ScanError} :
    item.fault? = some e ↔ item = .fault e := by
  cases item <;> simp [Item.fault?]

theorem Scanned.mem_tokens_iff {s : Scanned} {t : Token} : t ∈ s.tokens ↔ .token t ∈ s.items := by
  simp [Scanned.tokens, Item.token?_eq_some_iff]

theorem Scanned.mem_errors_iff {s : Scanned} {e : ScanError} :
    e ∈ s.errors ↔ .fault e ∈ s.items := by
  simp [Scanned.errors, Item.fault?_eq_some_iff]

theorem exists_eof (source : String) : ∃ t ∈ (scan source).tokens, t.kind = .eof := by
  rw [scan_tokens]
  exact ⟨_, List.mem_append_right _ List.mem_cons_self, rfl⟩

/-- The value of a scanned token is that of its text. -/
theorem literal_eq_of_mem_tokens {source : String} {t : Token} (h : t ∈ (scan source).tokens) :
    t.literal = valueOf? t.lexeme.toList t.kind :=
  (scan_items_partitioned source).literal_eq _ (Scanned.mem_tokens_iff.1 h) t rfl

/-- **A scan partitions its text.** The text falls into the items of the scan and gaps of blanks and
comments, and every token is the longest lexeme where it starts. The last item, and no other, is the
end token, which is empty and stands at the end of the text; the others are not empty. Each item
stands in the text where its span says, and a token has the text that stands there; its line is that
of its end. No item starts before the end of an earlier one. -/
theorem scan_partitioned (source : String) :
    Partitioned [] source.toList (scan source).items ∧
    (∃ others stop, (scan source).items = others ++ [.token stop] ∧ stop.kind = .eof ∧
      stop.span = ⟨source.utf8ByteSize, source.utf8ByteSize⟩ ∧
      ∀ item ∈ others, item.span.start < item.span.stop ∧
        ∀ t, item = .token t → t.kind ≠ .eof) ∧
    (∀ item ∈ (scan source).items, ∃ before text,
      Stands source.toList before text item.span item.line ∧
      ∀ t, item = .token t → t.lexeme = String.ofList text) ∧
    (scan source).items.Pairwise fun i j => i.span.stop ≤ j.span.start := by
  have hparts := scan_items_partitioned source
  refine ⟨hparts, ?_, hparts.stands, hparts.pairwise⟩
  rw [← byteLength_toList]
  exact hparts.ends

end GradedScript
