import GradedScript.Diagnostic.Place
import GradedScript.Prompt.Dialogue
import GradedScript.Proofs.Machine.Placement
import GradedScript.Proofs.Parser.Likeness
import GradedScript.Proofs.Scan.Partition

/-!
# Where diagnostics point

Every token stands where its span and line say, and tokens are carried unchanged from the scanner
through trees, functions and calls to what is told about a fault. So what a single run tells is
exact (`run_points_into`): the span is one of whole characters, the line is counted up to its end,
and the characters shown are those it stands for.

A token of a function that an earlier source declared still tells its place in that source. At the
prompt, what is told while such a function runs points into the earlier entry and not into the one
it is shown with (`reply_points_into`), where its span may fall between the bytes of a character.
-/

namespace GradedScript

open Exec

/-! ## Characters -/

theorem charsBefore?_cons (c : Char) (cs : List Char) (offset : Nat) :
    charsBefore? (c :: cs) (c.utf8Size + offset) = (charsBefore? cs offset).map (· + 1) := by
  have hsize := c.utf8Size_pos
  rw [charsBefore?, if_pos (Nat.le_add_right _ _), Nat.add_sub_cancel_left]
  omega

/-- The bytes of whole characters are counted as these characters. -/
theorem charsBefore?_append (before after : List Char) :
    charsBefore? (before ++ after) (byteLength before) = some before.length := by
  induction before with
  | nil => cases after <;> rfl
  | cons c before ih =>
    show charsBefore? (c :: (before ++ after)) (c.utf8Size + byteLength before) = _
    rw [charsBefore?_cons, ih]
    rfl

theorem charOffset_append (before after : List Char) :
    charOffset (before ++ after) (byteLength before) = before.length := by
  rw [charOffset, charsBefore?_append]
  rfl

section

variable {source before text : List Char} {span : Span} {line : Nat}

theorem Stands.start_le_stop (h : Stands source before text span line) :
    span.start ≤ span.stop := by
  rw [h.span_eq, byteLength_append]
  exact Nat.le_add_right _ _

theorem Stands.stop_le (h : Stands source before text span line) :
    span.stop ≤ byteLength source := by
  obtain ⟨rest, rfl⟩ := h.front
  rw [h.span_eq, byteLength_append _ rest]
  exact Nat.le_add_right _ _

/-- A stretch of whole characters is shown as these characters. -/
theorem Stands.charSpan_eq {source : String} (h : Stands source.toList before text span line) :
    charSpan source span = ⟨before.length, (before ++ text).length⟩ := by
  unfold charSpan
  dsimp only
  rw [Nat.min_eq_left h.stop_le, Nat.min_eq_left h.start_le_stop, h.span_eq]
  obtain ⟨rest, hrest⟩ := h.front
  rw [← hrest, charOffset_append (before ++ text) rest, List.append_assoc, charOffset_append]

end

/-! ## Exact places -/

/-- A diagnostic points at a text that stands in a source after the text `before`: it tells where
the text is, and is shown at the characters of the text. -/
structure Diagnostic.PointsAt (d : Diagnostic) (source : String) (before text : List Char)
    (span : Span) (line : Nat) : Prop extends Stands source.toList before text span line where
  span? : d.span? = some span
  line? : d.line? = some line
  ordered : span.start ≤ span.stop
  inside : span.stop ≤ source.utf8ByteSize
  shown : charSpan source span = ⟨before.length, (before ++ text).length⟩

/-- A diagnostic points into a source. -/
def Diagnostic.PointsInto (d : Diagnostic) (source : String) : Prop :=
  ∃ before text span line, d.PointsAt source before text span line

/-- What is told at an item of a source points into it. -/
theorem Item.pointsInto {source : String} {item : Item}
    (hitem : item ∈ (scan source).items) {d : Diagnostic} (hspan : d.span? = some item.span)
    (hline : d.line? = some item.line) : d.PointsInto source := by
  obtain ⟨before, text, hstands, -⟩ := (scan_items_partitioned source).stands item hitem
  refine ⟨before, text, item.span, item.line, ?_⟩
  exact { hstands with
    span? := hspan
    line? := hline
    ordered := hstands.start_le_stop
    inside := byteLength_toList source ▸ hstands.stop_le
    shown := hstands.charSpan_eq }

theorem RuntimeError.pointsInto {source : String} {e : RuntimeError}
    (h : e.token ∈ (scan source).tokens) : e.diagnostic.PointsInto source :=
  Item.pointsInto (Scanned.mem_tokens_iff.1 h) rfl rfl

/-- A parser reports faults at tokens it was given. -/
theorem token_mem_of_mem_errors {tokens : List Token} (heof : ∃ t ∈ tokens, t.kind = .eof)
    {e : ParseError} (he : e ∈ (parse tokens).errors) : e.token ∈ tokens := by
  have hself : List.Forall₂ (Token.Resembles fun t _ => t ∈ tokens) tokens tokens :=
    List.forall₂_same.2 fun t ht => ⟨rfl, rfl, rfl, ht⟩
  exact (List.forall₂_same.1 (parse_resembles hself heof).errors e he).token.also

/-- Static faults point into their source. -/
theorem Program.pointsInto_of_mem_errors {source : String} {d : Diagnostic}
    (hd : d ∈ (Program.ofSource source).errors) : d.PointsInto source := by
  rcases List.mem_append.1 hd with hd | hd
  · obtain ⟨e, he, rfl⟩ := List.mem_map.1 hd
    exact Item.pointsInto (Scanned.mem_errors_iff.1 he) rfl rfl
  · obtain ⟨e, he, rfl⟩ := List.mem_map.1 hd
    have htoken := token_mem_of_mem_errors (exists_eof source) he
    exact Item.pointsInto (Scanned.mem_tokens_iff.1 htoken) rfl rfl

/-! ## Runs -/

/-- What is told about a run that did begin is not static. -/
theorem Session.Run.isStatic_of_mem_ofResult {r : EStateM.Result Halt State Unit} {d : Diagnostic}
    (hd : d ∈ (Run.ofResult r).diagnostics) : d.isStatic = false := by
  cases r with
  | ok _ s => cases hd
  | error halt s =>
    cases halt with
    | fault e =>
      obtain rfl := List.mem_singleton.1 hd
      rfl
    | outputClosed =>
      obtain rfl := List.mem_singleton.1 hd
      rfl
    | stuck how => cases hd
    | outOfBudget => cases hd

/-- What a run tells as static are the static faults of its source. -/
theorem Session.mem_errors_of_isStatic {session : Session} {host : Host} {n : Nat}
    {limit : Option Nat} {source : String} {d : Diagnostic}
    (hd : d ∈ (session.run host n limit source).diagnostics) (hstatic : d.isStatic = true) :
    d ∈ (Program.ofSource source).errors := by
  unfold Session.run Session.runWith at hd
  dsimp only at hd
  split at hd
  · rw [Session.runStatementsWith_eq] at hd
    rw [Run.isStatic_of_mem_ofResult hd] at hstatic
    cases hstatic
  · exact hd

/-- What a run of a session tells points into its source, or arose while it ran and points into an
earlier one. -/
theorem Session.run_points (host : Host) (inputs : List Session.Input) (n : Nat)
    (limit : Option Nat) (source : String) :
    ∀ d ∈ ((Session.fresh.after .standard host inputs).run host n limit source).diagnostics,
      d.isStatic = true ∨ d.isRuntime = true →
      d.PointsInto source ∨ d.isRuntime = true ∧ ∃ input ∈ inputs, d.PointsInto input.source := by
  intro d hd hkind
  rcases hkind with hstatic | hruntime
  · exact .inl (Program.pointsInto_of_mem_errors (Session.mem_errors_of_isStatic hd hstatic))
  · let P : Role → Token → Prop := fun _ t =>
      t ∈ (scan source).tokens ∨ ∃ input ∈ inputs, t ∈ (scan input.source).tokens
    have hsession : (Session.fresh.after .standard host inputs).state.Sound P :=
      after_sound host inputs fun input hinput t ht _ _ => .inr ⟨input, hinput, ht⟩
    obtain ⟨-, htold⟩ := Session.run_sound host hsession n limit source fun t ht _ _ => .inl ht
    obtain ⟨role, e, -, htoken, rfl⟩ := htold d hd hruntime
    rcases htoken with htoken | ⟨input, hinput, htoken⟩
    · exact .inl (RuntimeError.pointsInto htoken)
    · exact .inr ⟨hruntime, input, hinput, RuntimeError.pointsInto htoken⟩

/-- **What a single run tells is exact.** Whatever source is run in a new session, under any budget
and with any limit on the output: the span of each lexical, syntactic or runtime fault takes up
whole characters of the source, its line is one more than the newlines up to the end of the span,
and it is shown at the characters that the span takes up. -/
theorem run_points_into (host : Host) (n : Nat) (limit : Option Nat) (source : String) :
    ∀ d ∈ (Session.fresh.run host n limit source).diagnostics,
      d.isStatic = true ∨ d.isRuntime = true → d.PointsInto source := by
  intro d hd hkind
  rcases Session.run_points host [] n limit source d hd hkind with hpoints | ⟨-, input, hinput, -⟩
  · exact hpoints
  · cases hinput

/-- An operator behind characters of two bytes. -/
def accented : String :=
  "print \"é\";\n\"é\" - nil;"

/-- It is told by bytes and shown by characters. -/
theorem run_points_into_accented :
    let d : Diagnostic := .runtime "Operands must be numbers." 2 ⟨17, 18⟩
    d ∈ (Session.fresh.run idleHost 8 none accented).diagnostics ∧ d.isRuntime = true ∧
      d.PointsInto accented ∧ charSpan accented ⟨17, 18⟩ = ⟨15, 16⟩ := by
  intro d
  have hending : (Session.fresh.run idleHost 8 none accented).ending =
      .halted (.fault ⟨.operandsNotNumbers, .minus, "-", none, 2, 17, 18⟩) := by cbv
  have hd : d ∈ (Session.fresh.run idleHost 8 none accented).diagnostics := by
    rw [Session.Run.diagnostics, hending]
    exact List.mem_singleton_self d
  exact ⟨hd, rfl, run_points_into idleHost 8 none accented d hd (.inr rfl), by cbv⟩

/-! ## Dialogues -/

/-- What is done at the prompt: a line is typed, or the entry in progress is dropped. -/
inductive Dialogue.Move where
  | line (text : String)
  | cancel

/-- The replies to what is done at the prompt, in order. -/
def Dialogue.replies (host : Host) (budget : Nat) : Dialogue → List Move → List Reply
  | _, [] => []
  | d, .line text :: moves =>
    (d.feed host budget text).2.toList ++ replies host budget (d.feed host budget text).1 moves
  | d, .cancel :: moves => replies host budget d.cancel moves

/-- The source of a reply as an input of a session. -/
def Dialogue.Reply.input (budget : Nat) (reply : Reply) : Session.Input :=
  ⟨reply.source, budget, none⟩

/-- A line leaves the session alone, or a source is run in it. -/
theorem Dialogue.feed_cases (host : Host) (budget : Nat) (d : Dialogue) (line : String) :
    ((d.feed host budget line).2 = none ∧ (d.feed host budget line).1.session = d.session) ∨
    ∃ reply, (d.feed host budget line).2 = some reply ∧
      reply.run = d.session.run host budget none reply.source ∧
      (d.feed host budget line).1.session = reply.run.session := by
  unfold Dialogue.feed
  split
  · exact .inl ⟨rfl, rfl⟩
  · exact .inr ⟨_, rfl, rfl, rfl⟩

/-- A dialogue runs the sources of its replies in one session, one after the other. -/
theorem Dialogue.run_of_replies {host : Host} {budget : Nat} {d : Dialogue} {moves : List Move}
    {earlier later : List Reply} {reply : Reply}
    (h : d.replies host budget moves = earlier ++ reply :: later) :
    reply.run = (d.session.after .standard host (earlier.map (Reply.input budget))).run host budget
      none reply.source := by
  induction moves generalizing d earlier with
  | nil => exact absurd h.symm (by simp [replies])
  | cons move moves ih =>
    cases move with
    | cancel =>
      rw [replies] at h
      exact ih (d := d.cancel) h
    | line text =>
      rw [replies] at h
      rcases feed_cases host budget d text with ⟨hnone, hsession⟩ | ⟨first, hsome, hrun, hsession⟩
      · rw [hnone] at h
        rw [← hsession]
        exact ih h
      · rw [hsome] at h
        cases earlier with
        | nil =>
          obtain ⟨rfl, -⟩ := List.cons_eq_cons.1 h
          exact hrun
        | cons r earlier =>
          obtain ⟨rfl, hrest⟩ := List.cons_eq_cons.1 h
          rw [ih hrest, hsession, hrun]
          rfl

/-- **What is told at the prompt points into an entry.** In a dialogue of whatever lines, what is
told about an entry points into its source, or it arose while the entry ran and points into the
source of an earlier one. Static faults are told where they are. -/
theorem reply_points_into (host : Host) (budget : Nat) (moves : List Dialogue.Move)
    {earlier later : List Dialogue.Reply} {reply : Dialogue.Reply}
    (h : Dialogue.fresh.replies host budget moves = earlier ++ reply :: later) :
    ∀ d ∈ reply.run.diagnostics, d.isStatic = true ∨ d.isRuntime = true →
      d.PointsInto reply.source ∨
        d.isRuntime = true ∧ ∃ r ∈ earlier, d.PointsInto r.source := by
  intro d hd hkind
  rw [Dialogue.run_of_replies h] at hd
  rcases Session.run_points host _ budget none reply.source d hd hkind with
    hpoints | ⟨hruntime, input, hinput, hpoints⟩
  · exact .inl hpoints
  · obtain ⟨r, hr, rfl⟩ := List.mem_map.1 hinput
    exact .inr ⟨hruntime, r, hr, hpoints⟩

/-- A call of a function that an earlier entry declared, behind characters of two bytes. -/
def accentedCall : List Dialogue.Move :=
  [.line "fun f() { return -nil; }", .line " \"éééééééé\"; f();"]

theorem replies_accentedCall : ∃ declared called,
    Dialogue.fresh.replies idleHost 8 accentedCall = [declared] ++ called :: [] ∧
      called.source = " \"éééééééé\"; f();\n" ∧
      called.run.ending = .halted (.fault ⟨.operandNotNumber, .minus, "-", none, 1, 17, 18⟩) := by
  have hreplies : (Dialogue.fresh.replies idleHost 8 accentedCall).map
      (fun reply => (reply.source, reply.run.ending)) =
      [("fun f() { return -nil; }\n", .completed),
        (" \"éééééééé\"; f();\n",
          .halted (.fault ⟨.operandNotNumber, .minus, "-", none, 1, 17, 18⟩))] := by cbv
  obtain ⟨declared, rest, hlist, -, hrest⟩ := List.map_eq_cons_iff.1 hreplies
  obtain ⟨called, none, rfl, hcalled, hnone⟩ := List.map_eq_cons_iff.1 hrest
  obtain ⟨hsource, hending⟩ := Prod.mk.inj hcalled
  rw [List.map_eq_nil_iff.1 hnone] at hlist
  exact ⟨declared, called, hlist, hsource, hending⟩

/-- What is told about the call points into an entry. -/
theorem reply_points_into_accentedCall : ∃ declared called,
    let d : Diagnostic := .runtime "Operand must be a number." 1 ⟨17, 18⟩
    Dialogue.fresh.replies idleHost 8 accentedCall = [declared] ++ called :: [] ∧
      d ∈ called.run.diagnostics ∧ d.isRuntime = true ∧
      (d.PointsInto called.source ∨
        d.isRuntime = true ∧ ∃ r ∈ [declared], d.PointsInto r.source) := by
  obtain ⟨declared, called, hreplies, -, hending⟩ := replies_accentedCall
  refine ⟨declared, called, ?_⟩
  intro d
  have hd : d ∈ called.run.diagnostics := by
    rw [Session.Run.diagnostics, hending]
    exact List.mem_singleton_self d
  exact ⟨hreplies, hd, rfl, reply_points_into idleHost 8 accentedCall hreplies d hd (.inr rfl)⟩

/-- Not all that is told about an entry can be shown with it: the fault in the function has a place
in the entry before, and in the later one that place begins inside a character, so that the
characters to show end before they begin. -/
theorem shown_not_always_ordered :
    ¬ ∀ (host : Host) (budget : Nat) (moves : List Dialogue.Move),
      ∀ reply ∈ Dialogue.fresh.replies host budget moves, ∀ d ∈ reply.run.diagnostics,
        d.isStatic = true ∨ d.isRuntime = true → ∀ span ∈ d.span?,
          (charSpan reply.source span).start ≤ (charSpan reply.source span).stop := by
  intro hall
  obtain ⟨declared, called, hreplies, hsource, hending⟩ := replies_accentedCall
  have hcalled : called ∈ Dialogue.fresh.replies idleHost 8 accentedCall := by
    rw [hreplies]
    exact List.mem_append_right _ List.mem_cons_self
  have hd : Diagnostic.runtime "Operand must be a number." 1 ⟨17, 18⟩ ∈
      called.run.diagnostics := by
    rw [Session.Run.diagnostics, hending]
    exact List.mem_singleton_self _
  have hordered := hall idleHost 8 accentedCall called hcalled _ hd (.inr rfl) ⟨17, 18⟩ rfl
  have hshown : charSpan " \"éééééééé\"; f();\n" ⟨17, 18⟩ = ⟨17, 10⟩ := by cbv
  rw [hsource, hshown] at hordered
  exact absurd hordered (by decide)

end GradedScript
