import GradedScript.Proofs.Machine.Restoration
import GradedScript.Proofs.Parser.Exactness
import GradedScript.Proofs.Parser.Transport

/-!
# What the parser checks, the machine need not

The parser refuses a `break` outside of loops and a `return` outside of functions by counting what
is around them in the text; the machine checks both again by counting what is running. In a session
of sources the second check never fails: each token of a program that runs plays a role the grammar
gives it, in whatever function and run it is met, and no such role raises one of the two faults
(`run_never_misplaced`).
-/

namespace GradedScript

open Exec

/-! ## Programs that run -/

section

variable {P : Role → Token → Prop}

/-- The grammar derives at most one program from tokens before the end token. -/
theorem declarations_unique {ts : List Token} (honly : ∀ t ∈ ts, t.kind ≠ .eof)
    {ss ss' : List Stmt} (h : Grammar.Declarations .top ts ss)
    (h' : Grammar.Declarations .top ts ss') : ss = ss' := by
  have hstop : (endToken {}).kind = .eof := rfl
  have hparse := parse_of_declarations hstop honly h
  rw [parse_of_declarations hstop honly h'] at hparse
  exact (congrArg Parsed.statements hparse).symm

/-- The trees of a source without static faults match themselves, if each token of the source
matches itself in all roles the grammar gives. -/
theorem Program.matches_self {T : TokenMatch} {source : String}
    (hvalid : (Program.ofSource source).errors = [])
    (hT : ∀ t ∈ (scan source).tokens, ∀ role : Role, role.isPlaced = true → T.Rel role t t) :
    List.Forall₂ (Stmt.Matches T .top) (Program.ofSource source).statements
      (Program.ofSource source).statements := by
  have hderived := Program.derived hvalid
  obtain ⟨statements', hderived', hmatches⟩ := hderived.transport (T := T) <|
    List.forall₂_same.2 fun t ht => ⟨rfl, hT t (List.takeWhile_subset _ ht)⟩
  have honly : ∀ t ∈ (Parser.State.ofTokens (scan source).tokens).rest, t.kind ≠ .eof :=
    fun t ht => by simpa using List.mem_takeWhile_imp ht
  rwa [declarations_unique honly hderived' hderived] at hmatches

/-- Programs whose trees match themselves run soundly. -/
theorem execProgram_endsSound (host : Host) {s : State} (h : s.Sound P) (n : Nat)
    {statements : List Stmt}
    (hstatements : List.Forall₂ (Stmt.Matches (.only P) .top) statements statements) :
    EndsSound P true s (fun _ _ => True) (execProgramWith .standard host n statements s) := by
  have htop : (soundness P true host).Allows s .top :=
    ⟨fun hf => absurd hf Bool.false_ne_true, fun hf => absurd hf Bool.false_ne_true⟩
  rw [← Rules.nesting_true]
  exact ((soundness P true host).execProgram_related n hstatements htop h).mono
    fun _ _ _ => trivial

/-- The run of a program that ended with some result. -/
def Session.Run.ofResult : EStateM.Result Halt State Unit → Run
  | .ok _ s => ⟨⟨{ s with output := {} }⟩, s.output.written, .completed⟩
  | .error halt s => ⟨⟨{ s with output := {} }⟩, s.output.written, .halted halt⟩

theorem Session.runStatementsWith_eq (session : Session) (rules : Rules) (host : Host) (n : Nat)
    (limit : Option Nat) (statements : List Stmt) :
    session.runStatementsWith rules host n limit statements =
      .ofResult (execProgramWith rules host n statements
        { session.state with output := { limit } }) := by
  unfold Session.runStatementsWith
  dsimp only
  split <;> rename_i hres <;> rw [hres] <;> rfl

/-- Statements run soundly in a sound session. -/
theorem Session.runStatements_endsSound (host : Host) {session : Session}
    (h : session.state.Sound P) (n : Nat) (limit : Option Nat) {statements : List Stmt}
    (hstatements : List.Forall₂ (Stmt.Matches (.only P) .top) statements statements) :
    ∃ r, session.runStatementsWith .standard host n limit statements = .ofResult r ∧
      EndsSound P true { session.state with output := { limit } } (fun _ _ => True) r := by
  let start : State := { session.state with output := { limit } }
  have hstart : start.Sound P := h.of_same rfl rfl
  exact ⟨_, session.runStatementsWith_eq .standard host n limit statements,
    execProgram_endsSound host hstart n hstatements⟩

/-- What is told about a rejected source did not arise at run time. -/
theorem Program.isRuntime_of_mem_errors {source : String} {d : Diagnostic}
    (hd : d ∈ (Program.ofSource source).errors) : d.isRuntime = false := by
  rcases List.mem_append.1 hd with hd | hd
  · obtain ⟨e, -, rfl⟩ := List.mem_map.1 hd
    rfl
  · obtain ⟨e, -, rfl⟩ := List.mem_map.1 hd
    rfl

/-- A run keeps its session sound, and what it tells about the time it ran is a fault that the
machine raises at a token of the program or of an earlier one. -/
theorem Session.run_sound (host : Host) {session : Session} (h : session.state.Sound P) (n : Nat)
    (limit : Option Nat) (source : String)
    (hP : ∀ t ∈ (scan source).tokens, ∀ role : Role, role.isPlaced = true → P role t) :
    (session.run host n limit source).session.state.Sound P ∧
    ∀ d ∈ (session.run host n limit source).diagnostics, d.isRuntime = true →
      ∃ (role : Role) (e : RuntimeError),
        role.raises e.fault = true ∧ P role e.token ∧ d = e.diagnostic := by
  unfold Session.run Session.runWith
  dsimp only
  split
  · rename_i hvalid
    have hmatches : List.Forall₂ (Stmt.Matches (.only P) .top) _ _ :=
      Program.matches_self (List.isEmpty_iff.1 hvalid) fun t ht role hrole =>
        ⟨rfl, hP t ht role hrole⟩
    obtain ⟨r, hrun, hends⟩ := Session.runStatements_endsSound host h n limit hmatches
    rw [hrun]
    cases r with
    | ok _ s => exact ⟨hends.2.1.of_same rfl rfl, fun d hd => absurd hd List.not_mem_nil⟩
    | error halt s =>
      obtain ⟨-, hsound, hallowed⟩ := hends
      refine ⟨hsound.of_same rfl rfl, ?_⟩
      intro d hd hruntime
      cases halt with
      | fault e =>
        obtain rfl := List.mem_singleton.1 hd
        obtain ⟨role, hraises, htoken⟩ := hallowed
        exact ⟨role, e, hraises, htoken, rfl⟩
      | outputClosed =>
        obtain rfl := List.mem_singleton.1 hd
        cases hruntime
      | stuck how => cases hd
      | outOfBudget => cases hd
  · refine ⟨h, ?_⟩
    intro d hd hruntime
    rw [Program.isRuntime_of_mem_errors hd] at hruntime
    cases hruntime

/-- Between the runs of a session, the tokens of its functions have a property if all tokens of the
sources have it in the roles that the grammar gives. -/
theorem after_sound (host : Host) (inputs : List Session.Input)
    (hP : ∀ input ∈ inputs, ∀ t ∈ (scan input.source).tokens, ∀ role : Role,
      role.isPlaced = true → P role t) :
    (Session.fresh.after .standard host inputs).state.Sound P := by
  induction inputs using List.reverseRecOn with
  | nil => exact fresh_sound P
  | append_singleton inputs input ih =>
    unfold Session.after
    rw [List.foldl_concat]
    have hbefore := ih fun input hinput => hP input (List.mem_append_left _ hinput)
    have hlast := hP input (List.mem_append_right _ List.mem_cons_self)
    exact (Session.run_sound host hbefore input.budget input.limit input.source hlast).1

end

/-! ## Faults of placed tokens -/

/-- A token in a role that the grammar gives. -/
def placed (role : Role) (_ : Token) : Prop :=
  role.isPlaced = true

/-- The two faults about control. -/
def RuntimeFault.isMisplaced : RuntimeFault → Bool
  | .breakOutsideLoop => true
  | .returnOutsideFunction => true
  | _ => false

/-- No role that the grammar gives raises one of the two faults about control. -/
theorem isMisplaced_of_raises {role : Role} (hrole : role.isPlaced = true) {fault : RuntimeFault}
    (hraises : role.raises fault = true) : fault.isMisplaced = false := by
  cases fault with
  | breakOutsideLoop =>
    cases role with
    | breakAt inLoop => simp_all [Role.isPlaced, Role.raises]
    | _ => cases hraises
  | returnOutsideFunction =>
    cases role with
    | returnAt inFunction => simp_all [Role.isPlaced, Role.raises]
    | _ => cases hraises
  | _ => rfl

/-- What the machine raises is worded as one of the two faults about control only if it is one. -/
theorem message_ne_of_raises {role : Role} {fault : RuntimeFault}
    (hraises : role.raises fault = true) (hfault : fault.isMisplaced = false) :
    fault.message ≠ RuntimeFault.breakOutsideLoop.message ∧
      fault.message ≠ RuntimeFault.returnOutsideFunction.message := by
  have hfirst : ∀ m : String, m.toList.head? ≠ some 'C' →
      m ≠ RuntimeFault.breakOutsideLoop.message ∧
        m ≠ RuntimeFault.returnOutsideFunction.message := by
    intro m hm
    constructor
    · rintro rfl
      exact hm (by decide)
    · rintro rfl
      exact hm (by decide)
  cases fault with
  | breakOutsideLoop => cases hfault
  | returnOutsideFunction => cases hfault
  | raised message => cases role <;> cases hraises
  -- where a name or a number is put into the text, its beginning is still the fault's own
  | undefinedVariable name => exact hfirst ("Undefined variable '" ++ name ++ "'.") (by simp)
  | wrongArgumentCount expected given =>
    exact hfirst
      ("Expected " ++ toString expected ++ " arguments but got " ++ toString given ++ ".") (by simp)
  | testNotFunction name => exact hfirst ("Test error: '" ++ name ++ "' is not a function.") (by simp)
  | testArgumentCount name expected given =>
    exact hfirst ("Test error: function '" ++ name ++ "' expects " ++ toString expected ++
      " args but got " ++ toString given) (by simp)
  | _ => exact ⟨by decide, by decide⟩

/-- Between the runs of a session every function it holds has its tokens in roles that the grammar
gives. -/
theorem after_placed (host : Host) (inputs : List Session.Input) :
    (Session.fresh.after .standard host inputs).state.Sound placed :=
  after_sound host inputs fun _ _ _ _ _ hrole => hrole

/-! ## The theorem -/

/-- **No run fails at a misplaced `break` or `return`.** In whatever session and after whatever
runs, under any budget and with any limit on the output, what a run tells about the time it ran is
worded neither as the fault of a `break` outside of loops nor as that of a `return` outside of
functions. -/
theorem run_never_misplaced (host : Host) (inputs : List Session.Input) (n : Nat)
    (limit : Option Nat) (source : String) :
    ∀ d ∈ ((Session.fresh.after .standard host inputs).run host n limit source).diagnostics,
      d.isRuntime = true →
      d.message ≠ "Can't use 'break' outside of a loop." ∧
        d.message ≠ "Can't return from top-level code." := by
  intro d hd hruntime
  obtain ⟨-, htold⟩ := Session.run_sound host (after_placed host inputs) n limit source
    fun _ _ _ hrole => hrole
  obtain ⟨role, e, hraises, hplaced, rfl⟩ := htold d hd hruntime
  exact message_ne_of_raises hraises (isMisplaced_of_raises hplaced hraises)

/-- A function that breaks out of a loop and then fails. -/
def failsAfterBreak : String :=
  "fun f() { while (true) break; return -nil; }"

/-- Called from a loop of the next run, it breaks out of its own loop and fails at the operator. -/
theorem run_never_misplaced_failsAfterBreak :
    let session := Session.fresh.after .standard idleHost [⟨failsAfterBreak, 2, none⟩]
    let d : Diagnostic := .runtime "Operand must be a number." 1 ⟨37, 38⟩
    d ∈ (session.run idleHost 8 none "while (true) f();").diagnostics ∧ d.isRuntime = true ∧
      d.message ≠ "Can't use 'break' outside of a loop." ∧
      d.message ≠ "Can't return from top-level code." := by
  intro session d
  have hending : (session.run idleHost 8 none "while (true) f();").ending =
      .halted (.fault ⟨.operandNotNumber, .minus, "-", none, 1, 37, 38⟩) := by
    show (Session.run (Session.fresh.after .standard idleHost [⟨failsAfterBreak, 2, none⟩]) idleHost
      8 none "while (true) f();").ending = _
    cbv
  have hd : d ∈ (session.run idleHost 8 none "while (true) f();").diagnostics := by
    rw [Session.Run.diagnostics, hending]
    exact List.mem_singleton_self d
  exact ⟨hd, rfl, run_never_misplaced idleHost _ 8 none _ d hd rfl⟩

end GradedScript
