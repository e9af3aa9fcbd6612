import GradedScript.Proofs.Machine.CallDepth

/-!
# A finished answer does not depend on the budget

A step that is built from parts with larger budgets does the same, unless the budget of the first
one ran out. That relation is a congruence (`reachesFurther`), with loops that may go round more
often besides, so it holds of the whole machine: `exec_of_ended` is the consequence for statements.
-/

namespace GradedScript

open Exec

namespace Exec

variable {α : Type}

/-- A step came to an end, with a result or a halt, before its budget was spent. -/
def Ended (r : EStateM.Result Halt State α) : Prop :=
  ∀ s, r ≠ .error .outOfBudget s

theorem ended_ok (a : α) (s : State) : Ended (.ok a s) := by
  intro t h
  cases h

theorem ended_inState_iff {f : State → State} {r : EStateM.Result Halt State α} :
    Ended (inState f r) ↔ Ended r := by
  cases r with
  | ok a s => exact ⟨fun _ => ended_ok a s, fun _ => ended_ok a (f s)⟩
  | error halt s =>
    constructor
    · rintro h _ ⟨⟩
      exact h (f s) rfl
    · rintro h _ ⟨⟩
      exact h s rfl

end Exec

/-- Steps that come back to where they began, and of which the second does what the first does if
that comes to an end. -/
def reachesFurther : Congruence where
  Rel k x y := ∀ s, s.callDepth = k → s.Returns (stateAfter (x s)) ∧ (Ended (x s) → y s = x s)
  quiet h s _ := ⟨h.returns s, fun _ => rfl⟩
  write text s _ := ⟨returns_writeLine text s, fun _ => rfl⟩
  bind {α β k x y f g} hx hf s hk := by
    obtain ⟨hreturns, hsame⟩ := hx s hk
    have hnext : ∀ a s', x s = .ok a s' →
        s'.Returns (stateAfter (f a s')) ∧ (Ended (f a s') → g a s' = f a s') := by
      intro a s' hok
      rw [hok] at hreturns
      exact hf a s' (hreturns.callDepth.trans hk)
    refine ⟨returns_bind hreturns fun a s' hok => (hnext a s' hok).1, ?_⟩
    show Ended (EStateM.bind x f s) → EStateM.bind y g s = EStateM.bind x f s
    unfold EStateM.bind
    cases hok : x s with
    | ok a s' =>
      rw [hok] at hsame
      rw [hsame (ended_ok a s')]
      exact (hnext a s' hok).2
    | error halt s' =>
      rw [hok] at hsame
      intro hended
      rw [hsame fun t ht => hended t (by cases ht; rfl)]
  look h s hk := by
    subst hk
    exact h s.loopDepth s rfl
  inside {α k k' x y} p hp h s hk := by
    obtain ⟨hreturns, hsame⟩ := h (p.enter s) (hp s hk)
    refine ⟨p.returns_step hreturns, ?_⟩
    -- the way out succeeds, so what runs inside came to an end if the whole did
    obtain ⟨s₂, hs₂, -⟩ := p.leadsBack s _ hreturns
    intro hended
    unfold Passage.step at hended ⊢
    rw [thenLeave_eq hs₂, ended_inState_iff] at hended
    unfold thenLeave
    rw [hsame hended]

/-- A spent budget says nothing about larger ones. -/
theorem spent_reachesFurther {α : Type} (k : Nat) (y : Exec α) :
    reachesFurther.Rel k (fun s => .error .outOfBudget s) y :=
  fun s _ => ⟨.refl s, fun hended => absurd rfl (hended s)⟩

/-- A loop that may go round more often. -/
theorem repeatWhile_reachesFurther {k n m : Nat} (hnm : n ≤ m) {x x' : Exec Value}
    {y y' : Exec Flow} (hx : reachesFurther.Rel k x x') (hy : reachesFurther.Rel k y y') :
    reachesFurther.Rel k (repeatWhile x y n) (repeatWhile x' y' m) := by
  induction n generalizing m with
  | zero => exact spent_reachesFurther k _
  | succ n ih =>
    cases m with
    | zero => exact absurd hnm (Nat.not_succ_le_zero n)
    | succ m =>
      refine reachesFurther.bind hx fun value => ?_
      split
      · refine reachesFurther.bind hy fun flow => ?_
        cases flow with
        | normal => exact ih (Nat.le_of_succ_le_succ hnm)
        | broke => exact reachesFurther.pure _
        | returned value => exact reachesFurther.pure _
      · exact reachesFurther.pure _

/-- **The machine reaches further with a larger budget**, at every depth. -/
theorem machine_reachesFurther (host : Host) {n m : Nat} (hnm : n ≤ m) (k : Nat) :
    reachesFurther.EvalRelated k (eval host n) (eval host m) ∧
      reachesFurther.ExecRelated k (exec host n) (exec host m) ∧
      reachesFurther.CallRelated k (call host n) (call host m) := by
  have hrules := reachesFurther.respects_standard
  induction n generalizing m k with
  | zero =>
    exact ⟨fun _ => spent_reachesFurther k _, fun _ => spent_reachesFurther k _,
      fun _ _ _ => spent_reachesFurther k _⟩
  | succ n ih =>
    cases m with
    | zero => exact absurd hnm (Nat.not_succ_le_zero n)
    | succ m =>
      have hle : n ≤ m := Nat.le_of_succ_le_succ hnm
      obtain ⟨heval, hexec, hcall⟩ := ih hle k
      obtain ⟨-, hbody, -⟩ := ih hle (k + 1)
      refine ⟨reachesFurther.evalNode_related hrules heval hcall, ?_,
        reachesFurther.callNode_related hrules host hbody hcall⟩
      -- how often loops go round is a budget too; other statements take no notice of it
      intro statement
      have hnode := reachesFurther.execNode_related hrules heval hexec n statement
      cases statement with
      | whileLoop condition body =>
        have hrounds := repeatWhile_reachesFurther hle (heval condition) (hexec body)
        exact reachesFurther.inside .loop (fun _ hk => hk) hrounds
      | _ => exact hnode

/-- What a statement does, once it comes to an end, it does under every larger budget. -/
theorem exec_of_ended {host : Host} {n m : Nat} (hnm : n ≤ m) {statement : Stmt} {s : State}
    (h : Ended (exec host n statement s)) : exec host m statement s = exec host n statement s :=
  ((machine_reachesFurther host hnm s.callDepth).2.1 statement s rfl).2 h

end GradedScript
