import GradedScript.Proofs.Machine.Restoration
import GradedScript.Proofs.Parser.Soundness

/-!
# Nothing gets stuck

Whatever tokens are parsed, the trees that come out have operators where operators belong, even
those left over after faults. So their statements can be executed or evaluated one after the other,
going on after every halt, and the machine never gets stuck: it knows each operator, holds each
scope it asks for, and leaves no loop or call it has not entered (`parsed_never_stuck`).
-/

namespace GradedScript

open Exec

/-- The states between statements that are tried in order: each one is executed or, if it is an
expression, evaluated, and the next one is tried in the state it ended in, whether it halted or
not. -/
inductive Tried (host : Host) (start : State) : List Stmt → State → Prop
  | start : Tried host start [] start
  | execute {statements s} (h : Tried host start statements s) (budget : Nat) (statement : Stmt) :
      Tried host start (statements ++ [statement]) (stateAfter (exec host budget statement s))
  | evaluate {statements s} (h : Tried host start statements s) (budget : Nat) (e : Expr) :
      Tried host start (statements ++ [.expression e]) (stateAfter (eval host budget e s))

/-- A step that ended, or halted for a reason of the program or its surroundings. -/
def Exec.NotStuck {α : Type} : EStateM.Result Halt State α → Prop
  | .error (.stuck _) _ => False
  | _ => True

section

variable {host : Host} {s : State} {α : Type}

/-- Where operators are where they belong, a sound step is not stuck. -/
theorem EndsSound.notStuck {Q : State → α → Prop} {r : EStateM.Result Halt State α}
    (h : EndsSound Role.Admits true s Q r) : NotStuck r := by
  match r, h with
  | .ok _ _, _ => trivial
  | .error (.fault _) _, _ => trivial
  | .error .outputClosed _, _ => trivial
  | .error .outOfBudget _, _ => trivial
  | .error (.stuck (.noOperator t)) _, ⟨_, _, role, hno, hyes⟩ =>
    exact Bool.false_ne_true (hno.symm.trans hyes)
  | .error (.stuck (.missingScope _)) _, ⟨_, _, hfalse⟩ => exact Bool.false_ne_true hfalse.symm

theorem Stmt.Every.expression_inv {P : Role → Token → Prop} {p : Place} {e : Expr}
    (h : (Stmt.expression e).Every P p) : e.Every P := by
  cases h with
  | expression he => exact he

/-- Trying statements keeps the state sound. -/
theorem Tried.sound {start : State} {statements : List Stmt} (h : Tried host start statements s)
    (hstart : start.Sound Role.Admits)
    (hstatements : ∀ statement ∈ statements, statement.Every Role.Admits .top) :
    s.Sound Role.Admits := by
  induction h with
  | start => exact hstart
  | execute _ n statement ih =>
    rw [List.forall_mem_append, List.forall_mem_singleton] at hstatements
    exact (exec_endsSound (ih hstatements.1) n hstatements.2).stateAfter.2
  | evaluate _ n e ih =>
    rw [List.forall_mem_append, List.forall_mem_singleton] at hstatements
    exact (eval_endsSound (ih hstatements.1) n hstatements.2.expression_inv).stateAfter.2

end

/-- **No input leads to a stuck machine.** All tokens of all trees that any parse yields fit their
roles. When the first of these statements have been tried in a fresh session, with any limit on its
output, the names in sight can be listed, and the next statement does not get stuck, nor the
expression it consists of. -/
theorem parsed_never_stuck (tokens : List Token) :
    (∀ statement ∈ (parse tokens).statements, statement.Every Role.Admits .top) ∧
    ∀ host limit statements s, statements <+: (parse tokens).statements →
      Tried host { Session.fresh.state with output := { limit } } statements s →
      (∃ names, s.store.names s.current = .ok names) ∧
      ∀ statement, statements ++ [statement] <+: (parse tokens).statements →
        (∀ n, NotStuck (exec host n statement s)) ∧
        ∀ e, statement = .expression e → ∀ n, NotStuck (eval host n e s) := by
  have hparse : ∀ statement ∈ (parse tokens).statements, statement.Every Role.Admits .top :=
    fun statement hmem => (Parser.parse_obeys tokens).1 statement hmem .top
  refine ⟨hparse, ?_⟩
  intro host limit statements s hdone htried
  have hstart : State.Sound Role.Admits { Session.fresh.state with output := { limit } } :=
    (fresh_sound Role.Admits).of_same rfl rfl
  have hsound := htried.sound hstart fun statement hmem => hparse statement (hdone.subset hmem)
  refine ⟨ScopeStore.exists_namesFrom hsound.store.nested hsound.current [], ?_⟩
  intro statement hnext
  have hstatement := hparse statement (hnext.subset (by simp))
  refine ⟨fun n => (exec_endsSound hsound n hstatement).notStuck, ?_⟩
  rintro e rfl n
  exact (eval_endsSound hsound n hstatement.expression_inv).notStuck

end GradedScript
