import GradedScript.Prompt.Entry
import GradedScript.Proofs.Parser.Exactness
import GradedScript.Proofs.Scan.Slices
import Mathlib

/-!
# Entries and their braces

The prompt collects lines until no brace is open. Two things make that safe. The grammar has braces
in pairs only, so a program that can be run leaves none open (`openBraces_eq_zero`) and is handed
over at once. And no line is lost: what is pending are the lines typed since an entry was handed
over or dropped the last time (`follow_tracks`).
-/

namespace GradedScript

/-! ## Braces of programs -/

/-- Tokens that leave as many braces open as were open before them. -/
def Balanced (ts : List Token) : Prop :=
  ∀ depth, ts.foldl braceStep depth = depth

namespace Balanced

variable {ts us : List Token} {t : Token} {kind : Kind}

theorem nil : Balanced [] :=
  fun _ => rfl

theorem append (hts : Balanced ts) (hus : Balanced us) : Balanced (ts ++ us) := by
  intro depth
  rw [List.foldl_append, hts, hus]

/-- A token that is no brace. -/
theorem cons (ht : t.kind ∉ [Kind.leftBrace, Kind.rightBrace]) (hts : Balanced ts) :
    Balanced (t :: ts) := by
  intro depth
  have hstep : braceStep depth t = depth := by
    unfold braceStep
    split
    · exact absurd ht (by simp [*])
    · exact absurd ht (by simp [*])
    · rfl
  rw [List.foldl_cons, hstep, hts]

theorem cons_of_kind (ht : t.kind = kind) (hkind : kind ∉ [Kind.leftBrace, Kind.rightBrace])
    (hts : Balanced ts) : Balanced (t :: ts) :=
  .cons (ht ▸ hkind) hts

/-- A token that is one of some kinds, none of them a brace. -/
theorem cons_of_mem {kinds : List Kind} (ht : t.kind ∈ kinds)
    (hkinds : ∀ kind ∈ kinds, kind ∉ [Kind.leftBrace, Kind.rightBrace]) (hts : Balanced ts) :
    Balanced (t :: ts) :=
  .cons (hkinds _ ht) hts

/-- A pair of braces around. -/
theorem braces {left right : Token} (hleft : left.kind = .leftBrace) (hts : Balanced ts)
    (hright : right.kind = .rightBrace) : Balanced (left :: (ts ++ [right])) := by
  intro depth
  have hopen : braceStep depth left = depth + 1 := by
    unfold braceStep
    rw [hleft]
  have hclose : braceStep (depth + 1) right = depth := by
    unfold braceStep
    rw [hright]
    rfl
  rw [List.foldl_cons, hopen, List.foldl_append, hts, List.foldl_cons, hclose]
  rfl

end Balanced

namespace Grammar

mutual

theorem Expression.balanced {ts : List Token} {e : Expr} : Expression ts e → Balanced ts
  | .assign hname hequals hvalue =>
    .cons_of_kind hname (by decide) (.cons_of_kind hequals (by decide) hvalue.balanced)
  | .plain h => h.balanced

theorem Tier.balanced {level : Level} {ts : List Token} {e : Expr} :
    Tier level ts e → Balanced ts
  | .operand _ h => h.balanced
  | .join hleft hop hright =>
    hleft.balanced.append (.cons_of_mem hop (by cases level <;> decide) hright.balanced)
  | .unary hop h => .cons_of_mem hop (by decide) h.balanced
  | .call h => h.balanced

theorem Call.balanced {ts : List Token} {e : Expr} : Call ts e → Balanced ts
  | .primary h => h.balanced
  | .empty hcallee hleft hright =>
    hcallee.balanced.append
      (.cons_of_kind hleft (by decide) (.cons_of_kind hright (by decide) .nil))
  | .call hcallee hleft harguments _ hright =>
    hcallee.balanced.append (.cons_of_kind hleft (by decide)
      (harguments.balanced.append (.cons_of_kind hright (by decide) .nil)))

theorem Arguments.balanced {ts : List Token} {es : List Expr} : Arguments ts es → Balanced ts
  | .one h => h.balanced
  | .more h hcomma hrest =>
    h.balanced.append (.cons_of_kind hcomma (by decide) hrest.balanced)

theorem Primary.balanced {ts : List Token} {e : Expr} : Primary ts e → Balanced ts
  | .false hkind => .cons_of_kind hkind (by decide) .nil
  | .true hkind => .cons_of_kind hkind (by decide) .nil
  | .nil hkind => .cons_of_kind hkind (by decide) .nil
  | .value hkind _ =>
    hkind.elim (.cons_of_kind · (by decide) .nil) (.cons_of_kind · (by decide) .nil)
  | .name hkind => .cons_of_kind hkind (by decide) .nil
  | .group hleft h hright =>
    .cons_of_kind hleft (by decide) (h.balanced.append (.cons_of_kind hright (by decide) .nil))

end

theorem OptionalExpression.balanced {ts : List Token} {e : Option Expr} :
    OptionalExpression ts e → Balanced ts
  | .none => .nil
  | .some h => h.balanced

theorem Parameters.balanced {ts params : List Token} : Parameters ts params → Balanced ts
  | .one hkind => .cons_of_kind hkind (by decide) .nil
  | .more hkind hcomma hrest =>
    .cons_of_kind hkind (by decide) (.cons_of_kind hcomma (by decide) hrest.balanced)

theorem OptionalParameters.balanced {ts params : List Token} :
    OptionalParameters ts params → Balanced ts
  | .none => .nil
  | .some h _ => h.balanced

theorem Variable.balanced {ts : List Token} {s : Stmt} : Variable ts s → Balanced ts
  | .plain hname hsemicolon =>
    .cons_of_kind hname (by decide) (.cons_of_kind hsemicolon (by decide) .nil)
  | .initialized hname hequals h hsemicolon =>
    .cons_of_kind hname (by decide) (.cons_of_kind hequals (by decide)
      (h.balanced.append (.cons_of_kind hsemicolon (by decide) .nil)))

theorem Initializer.balanced {ts : List Token} {s : Option Stmt} : Initializer ts s → Balanced ts
  | .none hsemicolon => .cons_of_kind hsemicolon (by decide) .nil
  | .varDecl hkeyword h => .cons_of_kind hkeyword (by decide) h.balanced
  | .expression h hsemicolon =>
    h.balanced.append (.cons_of_kind hsemicolon (by decide) .nil)

mutual

/-- Only blocks and bodies of functions have braces, and they have both. -/
theorem Statement.balanced {p : Place} {isOpen : Bool} {ts : List Token} {s : Stmt} :
    Statement p isOpen ts s → Balanced ts
  | .expression h hsemicolon =>
    h.balanced.append (.cons_of_kind hsemicolon (by decide) .nil)
  | .print hkeyword h hsemicolon =>
    .cons_of_kind hkeyword (by decide)
      (h.balanced.append (.cons_of_kind hsemicolon (by decide) .nil))
  | .breakOut _ hkeyword hsemicolon =>
    .cons_of_kind hkeyword (by decide) (.cons_of_kind hsemicolon (by decide) .nil)
  | .giveBack _ hkeyword h hsemicolon =>
    .cons_of_kind hkeyword (by decide)
      (h.balanced.append (.cons_of_kind hsemicolon (by decide) .nil))
  | .block hleft h hright => .braces hleft h.balanced hright
  | .ifThen hkeyword hleft hcondition hright hthen =>
    .cons_of_kind hkeyword (by decide) (.cons_of_kind hleft (by decide)
      (hcondition.balanced.append (.cons_of_kind hright (by decide) hthen.balanced)))
  | .ifElse hkeyword hleft hcondition hright hthen hother helse =>
    .cons_of_kind hkeyword (by decide) (.cons_of_kind hleft (by decide)
      (hcondition.balanced.append (.cons_of_kind hright (by decide)
        (hthen.balanced.append (.cons_of_kind hother (by decide) helse.balanced)))))
  | .whileLoop hkeyword hleft hcondition hright hbody =>
    .cons_of_kind hkeyword (by decide) (.cons_of_kind hleft (by decide)
      (hcondition.balanced.append (.cons_of_kind hright (by decide) hbody.balanced)))
  | .forLoop hkeyword hleft hinitializer hcondition hsemicolon hincrement hright hbody =>
    .cons_of_kind hkeyword (by decide) (.cons_of_kind hleft (by decide)
      (hinitializer.balanced.append (hcondition.balanced.append
        (.cons_of_kind hsemicolon (by decide) (hincrement.balanced.append
          (.cons_of_kind hright (by decide) hbody.balanced))))))

theorem Declaration.balanced {p : Place} {ts : List Token} {s : Stmt} :
    Declaration p ts s → Balanced ts
  | .function hkeyword hname hleft hparams hright hbrace hbody hclose =>
    .cons_of_kind hkeyword (by decide) (.cons_of_kind hname (by decide)
      (.cons_of_kind hleft (by decide) (hparams.balanced.append
        (.cons_of_kind hright (by decide) (.braces hbrace hbody.balanced hclose)))))
  | .varDecl hkeyword h => .cons_of_kind hkeyword (by decide) h.balanced
  | .statement h => h.balanced

theorem Declarations.balanced {p : Place} {ts : List Token} {ss : List Stmt} :
    Declarations p ts ss → Balanced ts
  | .nil => .nil
  | .cons h hrest => h.balanced.append hrest.balanced

end

end Grammar

/-! ## Braces of sources -/

section

variable {source source' : String}

/-- The end token opens and closes nothing. -/
theorem openBraces_eq (source : String) :
    openBraces source = (tokensBefore source).foldl braceStep 0 := by
  unfold openBraces
  rw [scan_tokens, List.foldl_append]
  rfl

/-- Only the kinds of tokens count. -/
theorem openBraces_congr
    (h : (tokensBefore source).map Token.kind = (tokensBefore source').map Token.kind) :
    openBraces source = openBraces source' := by
  have hkinds : ∀ (ts : List Token) depth, ts.foldl braceStep depth =
      (ts.map Token.kind).foldl (fun depth kind => braceStep depth ⟨kind, "", none, 0, ⟨0, 0⟩⟩)
        depth := by
    intro ts depth
    rw [List.foldl_map]
    rfl
  rw [openBraces_eq, openBraces_eq, hkinds, hkinds, h]

theorem openBraces_empty : openBraces "" = 0 := by
  have htext : ("" : String).toList = [] := rfl
  rw [openBraces_eq, tokensBefore, htext, chunks]
  rfl

/-- A source without static faults leaves no brace open. -/
theorem openBraces_eq_zero (hvalid : (Program.ofSource source).errors = []) :
    openBraces source = 0 := by
  rw [openBraces_eq]
  exact (Program.derived_before hvalid).balanced 0

/-- A newline at the end opens and closes nothing, if the source has no lexical fault. -/
theorem openBraces_newline (h : (scan source).errors = []) :
    openBraces (source ++ "\n") = openBraces source := by
  refine openBraces_congr ?_
  have htext : (source ++ "\n").toList = source.toList ++ ['\n'] := by simp
  rw [kinds_tokensBefore, kinds_tokensBefore, htext]
  refine kinds_newline fun c hc hform => ?_
  have hfault := (scan_errors_eq_nil_iff source).1 h c hc
  rw [Chunk.isFault, hform] at hfault
  cases hfault

end

/-! ## Requests at the prompt -/

/-- What may happen at the prompt: a line is typed, or the input is dropped. -/
inductive Entry.Request where
  | line (text : String)
  | cancel
deriving DecidableEq

/-- A request and the entry that was handed over for it, if any. -/
structure Entry.Exchange where
  request : Entry.Request
  entry? : Option String

/-- The text of lines that were typed, with the newlines that end them. -/
def linesText (lines : List String) : String :=
  lines.foldl (fun text line => text ++ line ++ "\n") ""

/-- The line of a request that adds to what is pending. -/
def Entry.Exchange.keptLine? : Entry.Exchange → Option String
  | ⟨.line text, none⟩ => some text
  | _ => none

/-- The lines typed since an entry was handed over or dropped the last time. -/
def linesSince (history : List Entry.Exchange) : List String :=
  (history.rtakeWhile fun x => x.keptLine?.isSome).filterMap Entry.Exchange.keptLine?

/-- Answers a request. -/
def Entry.respond (e : Entry) : Entry.Request → Entry × Option String
  | .line text => e.feed text
  | .cancel => (e.cancel, none)

/-- The exchanges that requests lead to at a new prompt, and the entry in progress after them. -/
def follow (requests : List Entry.Request) : List Entry.Exchange × Entry :=
  requests.foldl
    (fun (history, e) request =>
      (history ++ [⟨request, (e.respond request).2⟩], (e.respond request).1))
    ([], {})

section

variable {e : Entry} {history : List Entry.Exchange} {lines : List String} {line : String}

theorem Entry.feed_of_closed (h : openBraces (e.pending ++ line ++ "\n") = 0) :
    e.feed line = ({}, some (e.pending ++ line ++ "\n")) := by
  unfold Entry.feed
  dsimp only
  rw [h]
  rfl

theorem Entry.feed_of_open (h : 0 < openBraces (e.pending ++ line ++ "\n")) :
    e.feed line =
      (⟨e.pending ++ line ++ "\n", openBraces (e.pending ++ line ++ "\n")⟩, none) := by
  unfold Entry.feed
  dsimp only
  split
  · omega
  · rfl

theorem linesText_concat : linesText (lines ++ [line]) = linesText lines ++ line ++ "\n" :=
  List.foldl_concat ..

theorem linesText_eq_empty_iff : linesText lines = "" ↔ lines = [] := by
  refine ⟨fun h => ?_, fun h => h ▸ rfl⟩
  rcases List.eq_nil_or_concat lines with rfl | ⟨front, line, rfl⟩
  · rfl
  · rw [List.concat_eq_append, linesText_concat] at h
    simp at h

theorem linesSince_concat (x : Entry.Exchange) :
    linesSince (history ++ [x]) = match x.keptLine? with
      | some line => linesSince history ++ [line]
      | none => [] := by
  unfold linesSince
  rw [List.rtakeWhile_concat]
  cases hx : x.keptLine? with
  | none => rfl
  | some line => simp [hx]

/-- An entry in progress holds these lines: they are what is pending, and from the first one on some
brace is open. -/
structure Entry.Holds (e : Entry) (lines : List String) : Prop where
  pending : e.pending = linesText lines
  depth : e.depth = openBraces e.pending
  open_pos : ∀ front back, front ≠ [] → front ++ back = lines → 0 < openBraces (linesText front)

theorem Entry.Holds.nil : Entry.Holds {} [] where
  pending := rfl
  depth := openBraces_empty.symm
  open_pos _ _ hfront h := absurd (List.append_eq_nil_iff.1 h).1 hfront

/-- What a line leads to: the whole text is handed over, or held with a brace open. -/
theorem Entry.Holds.feed (h : e.Holds lines) (line : String) :
    (openBraces (linesText (lines ++ [line])) = 0 ∧
      e.feed line = ({}, some (linesText (lines ++ [line])))) ∨
    ((e.feed line).1.Holds (lines ++ [line]) ∧ (e.feed line).2 = none) := by
  have htext : linesText (lines ++ [line]) = e.pending ++ line ++ "\n" := by
    rw [h.pending, linesText_concat]
  rw [htext]
  rcases Nat.eq_zero_or_pos (openBraces (e.pending ++ line ++ "\n")) with hzero | hpos
  · exact .inl ⟨hzero, Entry.feed_of_closed hzero⟩
  · rw [Entry.feed_of_open hpos]
    refine .inr ⟨⟨htext.symm, rfl, ?_⟩, rfl⟩
    intro front back hfront happend
    rcases List.eq_nil_or_concat back with rfl | ⟨back, last, rfl⟩
    · rwa [← List.append_nil front, happend, htext]
    · rw [List.concat_eq_append, ← List.append_assoc] at happend
      exact h.open_pos front back hfront (List.append_inj' happend rfl).1

/-- **Nothing is lost**: after any requests the prompt holds the lines typed since an entry was
handed over or dropped the last time. -/
theorem follow_tracks (requests : List Entry.Request) :
    (follow requests).2.Holds (linesSince (follow requests).1) := by
  induction requests using List.reverseRecOn with
  | nil => exact .nil
  | append_singleton requests request ih =>
    have hstep : follow (requests ++ [request]) =
        ((follow requests).1 ++ [⟨request, ((follow requests).2.respond request).2⟩],
          ((follow requests).2.respond request).1) := List.foldl_concat ..
    rw [hstep]
    generalize (follow requests).1 = history, (follow requests).2 = e at ih ⊢
    dsimp only
    rw [linesSince_concat]
    cases request with
    | cancel => exact .nil
    | line text =>
      rcases ih.feed text with ⟨-, hfeed⟩ | ⟨hholds, hnone⟩
      · have hrespond : e.respond (.line text) = _ := hfeed
        rw [hrespond]
        exact .nil
      · have hrespond : (e.respond (.line text)).2 = none := hnone
        rw [hrespond]
        exact hholds

/-- What is prompted with tells whether a brace is open. -/
theorem Entry.prompt_eq_iff : e.prompt = "> " ↔ e.depth = 0 := by
  unfold Entry.prompt
  split
  · simp [*]
  · refine iff_of_false (fun h => ?_) ‹_›
    have hfirst := congrArg (fun text => text.toList.head?) h
    simp at hfirst

theorem Entry.Holds.depth_eq_zero_iff (h : e.Holds lines) : e.depth = 0 ↔ lines = [] := by
  rw [h.depth, h.pending]
  refine ⟨fun hzero => ?_, fun hnil => hnil ▸ openBraces_empty⟩
  by_contra hne
  have hpos := h.open_pos lines [] hne (List.append_nil _)
  omega

theorem Entry.Holds.idle_iff (h : e.Holds lines) : e.idle = true ↔ lines = [] := by
  unfold Entry.idle
  rw [h.pending, String.isEmpty_iff]
  exact linesText_eq_empty_iff

end

/-- **The prompt holds no program back and loses no text.** A source without static faults leaves no
brace open, and is handed over at once if nothing is pending. After any requests, the lines typed
since an entry was handed over or dropped the last time are pending; nothing is exactly if the
prompt says so. The next line leads to an entry exactly if it leaves no brace open. The entry is all
that was pending with that line, and after each line but the last some brace was open. -/
theorem prompt_loses_nothing :
    (∀ source, (Program.ofSource source).errors = [] → openBraces source = 0 ∧
      ∀ e : Entry, e.idle = true → e.feed source = ({}, some (source ++ "\n"))) ∧
    ∀ requests, let e := (follow requests).2
      let lines := linesSince (follow requests).1
      e.pending = linesText lines ∧
      (e.idle = true ↔ e.prompt = "> ") ∧ (e.idle = true ↔ lines = []) ∧
      ∀ line,
        (∀ entry, (e.feed line).2 = some entry ↔
          entry = linesText (lines ++ [line]) ∧ openBraces entry = 0) ∧
        ∀ front back, front ≠ [] → back ≠ [] → front ++ back = lines ++ [line] →
          0 < openBraces (linesText front) := by
  refine ⟨?_, ?_⟩
  · intro source hvalid
    have hzero := openBraces_eq_zero hvalid
    refine ⟨hzero, fun e hidle => ?_⟩
    obtain ⟨hscan, -⟩ := List.append_eq_nil_iff.1 hvalid
    have hnewline := openBraces_newline (List.map_eq_nil_iff.1 hscan)
    have hpending : e.pending = "" := String.isEmpty_iff.1 hidle
    have htext : e.pending ++ source ++ "\n" = source ++ "\n" := by
      rw [hpending, String.empty_append]
    rw [Entry.feed_of_closed (htext ▸ hnewline.trans hzero), htext]
  · intro requests e lines
    have hholds : e.Holds lines := follow_tracks requests
    refine ⟨hholds.pending, ?_, hholds.idle_iff, fun line => ⟨fun entry => ?_, ?_⟩⟩
    · rw [Entry.prompt_eq_iff, hholds.idle_iff, hholds.depth_eq_zero_iff]
    · rcases hholds.feed line with ⟨hzero, hfeed⟩ | ⟨hnext, hnone⟩
      · rw [hfeed]
        refine ⟨fun h => ?_, fun h => congrArg some h.1.symm⟩
        obtain rfl := Option.some.inj h
        exact ⟨rfl, hzero⟩
      · rw [hnone]
        refine iff_of_false (by simp) ?_
        rintro ⟨rfl, hzero⟩
        have hpos := hnext.open_pos _ [] (List.concat_ne_nil _ _) (List.append_nil _)
        exact hpos.ne' hzero
    · intro front back hfront hback happend
      rcases List.eq_nil_or_concat back with rfl | ⟨back, last, rfl⟩
      · exact absurd rfl hback
      · rw [List.concat_eq_append, ← List.append_assoc] at happend
        exact hholds.open_pos front back hfront (List.append_inj' happend rfl).1

/-- A dropped line, then the first two lines of a block, with a brace in a string. -/
def blockRequests : List Entry.Request :=
  [.line "fun f() \x7b", .cancel, .line "\x7b", .line "print \"\x7d\";"]

/-- A block at once, and a block line by line. -/
theorem prompt_loses_nothing_block :
    (Program.ofSource "\x7b print a; \x7d").errors = [] ∧
    Entry.feed {} "\x7b print a; \x7d" = ({}, some "\x7b print a; \x7d\n") ∧
    (follow blockRequests).2.pending = "\x7b\nprint \"\x7d\";\n" ∧
    (follow blockRequests).2.prompt ≠ "> " ∧
    ((follow blockRequests).2.feed "\x7d").2 = some "\x7b\nprint \"\x7d\";\n\x7d\n" ∧
    0 < openBraces (linesText ["\x7b"]) := by
  have hvalid : (Program.ofSource "\x7b print a; \x7d").errors = [] := by cbv
  have hlines : linesSince (follow blockRequests).1 = ["\x7b", "print \"\x7d\";"] := by cbv
  have hclosed : openBraces "\x7b\nprint \"\x7d\";\n\x7d\n" = 0 := by cbv
  obtain ⟨hwhole, hfollow⟩ := prompt_loses_nothing
  obtain ⟨hpending, hprompt, hidle, hnext⟩ := hfollow blockRequests
  rw [hlines] at hpending hidle hnext
  obtain ⟨hentry, hbefore⟩ := hnext "\x7d"
  refine ⟨hvalid, (hwhole _ hvalid).2 {} rfl, hpending, ?_, (hentry _).2 ⟨rfl, hclosed⟩, ?_⟩
  · rw [Ne, ← hprompt, hidle]
    exact List.cons_ne_nil _ _
  · exact hbefore ["\x7b"] _ (List.cons_ne_nil _ _) (List.cons_ne_nil _ _) rfl

end GradedScript
