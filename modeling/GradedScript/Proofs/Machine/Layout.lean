import GradedScript.Proofs.Machine.Splitting
import GradedScript.Proofs.Parser.Likeness
import GradedScript.Proofs.Scan.Partition

/-!
# Layout carries no meaning

Blanks, comments and line breaks show in a scan only as places of tokens. A token's value follows
from its kind and text, the parser looks at no place, and neither does the machine, also in the
functions that earlier runs have left: places are handed on to what is told about a fault and used
for nothing else. So sources with tokens of the same kinds and texts do the same
(`run_of_same_looks`).
-/

namespace GradedScript

open Exec

/-! ## Looks -/

/-- What a token looks like: its kind and text. -/
def Token.look (t : Token) : Kind × String :=
  (t.kind, t.lexeme)

/-- What is told about a fault, but for its place. -/
def Diagnostic.unplaced : Diagnostic → Diagnostic
  | .io message => .io message
  | .scan message _ _ => .scan message 0 ⟨0, 0⟩
  | .parse message location _ _ => .parse message location 0 ⟨0, 0⟩
  | .runtime message _ _ => .runtime message 0 ⟨0, 0⟩

/-- Tokens that have the values of their texts resemble each other if they look the same. -/
theorem resemble_of_looks {ts ts' : List Token} (hlooks : ts.map Token.look = ts'.map Token.look)
    (hts : ∀ t ∈ ts, t.literal = valueOf? t.lexeme.toList t.kind)
    (hts' : ∀ t ∈ ts', t.literal = valueOf? t.lexeme.toList t.kind) :
    List.Forall₂ (Token.Resembles anyPlace) ts ts' := by
  induction ts generalizing ts' with
  | nil =>
    rw [List.map_eq_nil_iff.1 hlooks.symm]
    exact .nil
  | cons t ts ih =>
    cases ts' with
    | nil => cases hlooks
    | cons t' ts' =>
      obtain ⟨hlook, hlooks⟩ := List.cons_eq_cons.1 hlooks
      obtain ⟨hkind, hlexeme⟩ := Prod.mk.inj hlook
      rw [List.forall_mem_cons] at hts hts'
      have hliteral : t.literal = t'.literal := by rw [hts.1, hts'.1, hkind, hlexeme]
      exact .cons ⟨hkind, hlexeme, hliteral, trivial⟩ (ih hlooks hts.2 hts'.2)

/-- Sources whose tokens look the same are parsed alike. -/
theorem parse_scan_resembles {source source' : String}
    (hlooks : (scan source).tokens.map Token.look = (scan source').tokens.map Token.look) :
    (parse (scan source).tokens).Resembles anyPlace (parse (scan source').tokens) := by
  refine parse_resembles (resemble_of_looks hlooks ?_ ?_) (exists_eof source)
  · exact fun t => literal_eq_of_mem_tokens
  · exact fun t => literal_eq_of_mem_tokens

theorem ParseError.Resembles.unplaced_eq {P : Token → Token → Prop} {e e' : ParseError}
    (h : e.Resembles P e') : e.diagnostic.unplaced = e'.diagnostic.unplaced := by
  have hlocation : e.token.location = e'.token.location := by
    unfold Token.location
    rw [h.token.kind, h.token.lexeme]
  show Diagnostic.parse e.fault.message e.token.location 0 ⟨0, 0⟩ =
    Diagnostic.parse e'.fault.message e'.token.location 0 ⟨0, 0⟩
  rw [h.fault, hlocation]

/-! ## Runs -/

/-- Runs end alike: nothing ran because of the same static faults, both completed, or both halted
for the same reason at tokens that match. -/
inductive Session.Ending.Alike (T : TokenMatch) : Ending → Ending → Prop
  | rejected {errors errors'}
      (h : errors.map Diagnostic.unplaced = errors'.map Diagnostic.unplaced) :
      Alike T (.rejected errors) (.rejected errors')
  | completed : Alike T .completed .completed
  | halted {halt halt'} (h : halt.Matches T halt') : Alike T (.halted halt) (.halted halt')

/-- Runs that cannot be told apart but by the places of tokens. -/
structure Session.Run.Alike (T : TokenMatch) (run run' : Run) : Prop where
  written : run.written = run'.written
  ending : run.ending.Alike T run'.ending
  texts : ∀ name, (run.session.global? name).map Value.text =
    (run'.session.global? name).map Value.text

section

variable {T : TokenMatch}

theorem Session.Ending.Alike.diagnostics_eq {e e' : Ending} (h : e.Alike T e') :
    e.diagnostics.map Diagnostic.unplaced = e'.diagnostics.map Diagnostic.unplaced := by
  cases h with
  | rejected h => exact h
  | completed => rfl
  | halted h => cases h <;> rfl

theorem Session.Ending.Matches.alike {e e' : Ending} (h : e.Matches T e') : e.Alike T e' := by
  cases h with
  | completed => exact .completed
  | halted hhalt => exact .halted hhalt

/-- Runs in step that both begin to write are alike. -/
theorem Session.Run.Matches.alike {run run' : Run} (h : run.Matches T .empty .empty run') :
    run.Alike T run' where
  written := by rw [h.written_eq, ByteArray.empty_append]
  ending := h.ending.alike
  texts name := (h.texts name).symm

/-- Sources with the same static faults, and trees that match, run alike in an orderly session. -/
theorem Session.run_alike (host : Host) {session : Session} (h : session.state.Orderly T) (n : Nat)
    (limit : Option Nat) {source source' : String}
    (herrors : (Program.ofSource source).errors.map Diagnostic.unplaced =
      (Program.ofSource source').errors.map Diagnostic.unplaced)
    (hmatches : List.Forall₂ (Stmt.Matches T .top) (Program.ofSource source).statements
      (Program.ofSource source').statements) :
    (session.run host n limit source).Alike T (session.run host n limit source') := by
  have hempty : (Program.ofSource source).errors.isEmpty =
      (Program.ofSource source').errors.isEmpty := by
    have hmapped := congrArg List.isEmpty herrors
    rwa [List.isEmpty_map, List.isEmpty_map] at hmapped
  unfold Session.run Session.runWith
  dsimp only
  rw [← hempty]
  split
  · exact (Session.runStatements_matches host h n limit hmatches).alike
  · exact ⟨rfl, .rejected herrors, fun _ => rfl⟩

end

/-! ## The theorem -/

/-- **Layout carries no meaning.** Let two sources be scanned without faults to tokens of the same
kinds and texts. Then the parser reports the same faults in the same order, and the trees it keeps
are the same but for places of tokens. After whatever runs of a session, both sources are run alike:
the same is written, the same is told but for places, the runs end the same way, and they leave the
same global names, bound to values with the same texts. -/
theorem run_of_same_looks (host : Host) (inputs : List Session.Input) (n : Nat)
    (limit : Option Nat) {source source' : String} (hscan : (scan source).errors = [])
    (hscan' : (scan source').errors = [])
    (hlooks : (scan source).tokens.map Token.look = (scan source').tokens.map Token.look) :
    let parsed := parse (scan source).tokens
    let parsed' := parse (scan source').tokens
    let session := Session.fresh.after .standard host inputs
    let run := session.run host n limit source
    let run' := session.run host n limit source'
    parsed.errors.map (·.diagnostic.unplaced) = parsed'.errors.map (·.diagnostic.unplaced) ∧
    List.Forall₂ (Stmt.Matches anywhere .top) parsed.statements parsed'.statements ∧
    run.written = run'.written ∧
    run.diagnostics.map Diagnostic.unplaced = run'.diagnostics.map Diagnostic.unplaced ∧
    run.ending.Alike anywhere run'.ending ∧
    (∀ name, name ∈ run.session.names ↔ name ∈ run'.session.names) ∧
    ∀ name, (run.session.global? name).map Value.text =
      (run'.session.global? name).map Value.text := by
  intro parsed parsed' session run run'
  have hparsed := parse_scan_resembles hlooks
  have herrors : parsed.errors.map (·.diagnostic.unplaced) =
      parsed'.errors.map (·.diagnostic.unplaced) := by
    rw [← List.forall₂_eq_eq_eq, List.forall₂_map_left_iff, List.forall₂_map_right_iff]
    exact hparsed.errors.imp fun _ _ h => h.unplaced_eq
  have hstatements : List.Forall₂ (Stmt.Matches anywhere .top) parsed.statements
      parsed'.statements :=
    hparsed.statements.imp fun _ _ h => h .top
  have hsession : session.state.Orderly anywhere :=
    after_orderly host inputs fun _ _ _ _ _ _ => ⟨rfl, rfl, rfl, trivial⟩
  have hstatic : (Program.ofSource source).errors.map Diagnostic.unplaced =
      (Program.ofSource source').errors.map Diagnostic.unplaced := by
    unfold Program.ofSource
    dsimp only
    rw [hscan, hscan', List.map_nil, List.nil_append, List.map_map, List.nil_append, List.map_map]
    exact herrors
  obtain ⟨hwritten, hending, htexts⟩ := Session.run_alike host hsession n limit hstatic hstatements
  refine ⟨herrors, hstatements, hwritten, hending.diagnostics_eq, hending, ?_, htexts⟩
  intro name
  have hnames := mem_names_after_iff host (inputs ++ [⟨source, n, limit⟩]) name
  have hnames' := mem_names_after_iff host (inputs ++ [⟨source', n, limit⟩]) name
  rw [Session.after_concat] at hnames hnames'
  rw [hnames, hnames', ← Option.isSome_map, htexts name, Option.isSome_map]

/-- A call of a function that an earlier run declared, and an operand that is no number. -/
def tight : String :=
  "print f(\"a\");-nil;"

/-- The same on more lines. -/
def loose : String :=
  "print f(\"a\"); // shown\n/* not a\nnumber */ - nil ;"

/-- Both print and then fail, one on the first line and one on the third. -/
theorem run_of_same_looks_tight :
    let session := Session.fresh.after .standard idleHost [⟨"fun f(x) { return x; }", 2, none⟩]
    let run := session.run idleHost 8 none tight
    let run' := session.run idleHost 8 none loose
    (scan tight).errors = [] ∧ (scan loose).errors = [] ∧
      (scan tight).tokens.map Token.look = (scan loose).tokens.map Token.look ∧
      run.ending = .halted (.fault ⟨.operandNotNumber, .minus, "-", none, 1, 13, 14⟩) ∧
      run'.ending = .halted (.fault ⟨.operandNotNumber, .minus, "-", none, 3, 42, 43⟩) ∧
      run.written = run'.written ∧ run.ending.Alike anywhere run'.ending := by
  intro session run run'
  have hscan : (scan tight).errors = [] := by cbv
  have hscan' : (scan loose).errors = [] := by cbv
  have hlooks : (scan tight).tokens.map Token.look = (scan loose).tokens.map Token.look := by cbv
  have hending : run.ending =
      .halted (.fault ⟨.operandNotNumber, .minus, "-", none, 1, 13, 14⟩) := by
    show (Session.run (Session.fresh.after .standard idleHost [⟨"fun f(x) { return x; }", 2, none⟩])
      idleHost 8 none tight).ending = _
    cbv
  have hending' : run'.ending =
      .halted (.fault ⟨.operandNotNumber, .minus, "-", none, 3, 42, 43⟩) := by
    show (Session.run (Session.fresh.after .standard idleHost [⟨"fun f(x) { return x; }", 2, none⟩])
      idleHost 8 none loose).ending = _
    cbv
  obtain ⟨-, -, hwritten, -, halike, -⟩ := run_of_same_looks idleHost
    [⟨"fun f(x) { return x; }", 2, none⟩] 8 none hscan hscan' hlooks
  exact ⟨hscan, hscan', hlooks, hending, hending', hwritten, halike⟩

end GradedScript
