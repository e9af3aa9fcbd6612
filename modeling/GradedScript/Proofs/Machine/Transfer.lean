import GradedScript.Proofs.Machine.Restoration

/-!
# Transfers of control stop at their boundary

A `break` goes no further than the loop around it and a `return` no further than the function
around it, in any tree: a statement ends in one of them only if a loop, or a function, is running
where it begins (`exec_permitted`). So a loop never passes a `break` on, a function body never ends
in one, and between the statements of a program there is nothing to pass on at all
(`transfer_confined`).
-/

namespace GradedScript

open Exec

/-! ## Ways to end that a state permits -/

/-- The ways to end for which the depths of a state have room. -/
def State.Permits (s : State) : Flow → Prop
  | .normal => True
  | .broke => 0 < s.loopDepth
  | .returned _ => 0 < s.callDepth

/-- A step that ends, if it does not halt, in a way its first state permits. -/
def EndsPermitted (s : State) : EStateM.Result Halt State Flow → Prop
  | .ok flow _ => s.Permits flow
  | .error _ _ => True

section

variable {P : Role → Token → Prop} {nested : Bool} {host : Host} {s s' : State} {α : Type}

/-- Permission depends on the depths only. -/
theorem State.Permits.of_depths (hloop : s'.loopDepth = s.loopDepth)
    (hcall : s'.callDepth = s.callDepth) {flow : Flow} (h : s'.Permits flow) : s.Permits flow := by
  cases flow with
  | normal => trivial
  | broke =>
    show 0 < s.loopDepth
    rw [← hloop]
    exact h
  | returned value =>
    show 0 < s.callDepth
    rw [← hcall]
    exact h

/-- A sound step that ends in a permitted way does so where it ends, too. -/
theorem EndsSound.permitted {Q : State → Flow → Prop} {r : EStateM.Result Halt State Flow}
    (h : EndsSound P nested s Q r) (hr : EndsPermitted s r) :
    EndsSound P nested s State.Permits r := by
  cases r with
  | error halt s' => exact h
  | ok flow s' =>
    obtain ⟨hfollows, hsound, -⟩ := h
    refine ⟨hfollows, hsound, hr.of_depths ?_ ?_⟩
    · exact hfollows.restores.loopDepth.symm
    · exact hfollows.restores.callDepth.symm

theorem EndsSound.endsPermitted {r : EStateM.Result Halt State Flow}
    (h : EndsSound P nested s State.Permits r) : EndsPermitted s r := by
  cases r with
  | error halt s' => trivial
  | ok flow s' =>
    obtain ⟨hfollows, -, hflow⟩ := h
    exact hflow.of_depths hfollows.restores.loopDepth hfollows.restores.callDepth

/-- A sound step, and then one that ends in a permitted way. -/
theorem EndsPermitted.bind {Q : State → α → Prop} {x : Exec α} {f : α → Exec Flow}
    (hx : EndsSound P nested s Q (x s))
    (hf : ∀ s' a, s.Follows nested s' → s'.Sound P → Q s' a → EndsPermitted s' (f a s')) :
    EndsPermitted s ((x >>= f) s) := by
  show EndsPermitted s (EStateM.bind x f s)
  unfold EStateM.bind
  cases hxs : x s with
  | error halt s' => trivial
  | ok a s' =>
    rw [hxs] at hx
    obtain ⟨hfollows, hsound, hQ⟩ := hx
    have hrest := hf s' a hfollows hsound hQ
    show EndsPermitted s (f a s')
    revert hrest
    cases f a s' with
    | error halt s'' => exact id
    | ok flow s'' =>
      apply State.Permits.of_depths
      · exact hfollows.restores.loopDepth
      · exact hfollows.restores.callDepth

/-- A step that ends normally if it does not halt. -/
def EndsNormal : EStateM.Result Halt State Flow → Prop
  | .ok flow _ => flow = .normal
  | .error _ _ => True

theorem EndsNormal.endsPermitted {r : EStateM.Result Halt State Flow} (h : EndsNormal r) :
    EndsPermitted s r := by
  cases r with
  | error halt s' => trivial
  | ok flow s' =>
    cases h
    trivial

/-- Any step, and then one that ends normally. -/
theorem EndsNormal.bind {x : Exec α} {f : α → Exec Flow} (hf : ∀ a s', EndsNormal (f a s')) :
    EndsNormal ((x >>= f) s) := by
  show EndsNormal (EStateM.bind x f s)
  unfold EStateM.bind
  cases x s with
  | error halt s' => trivial
  | ok a s' => exact hf a s'

/-- Leaving does not change how a step ended. -/
theorem exists_of_thenLeave {step : Exec α} {leave : Exec Unit} {a : α}
    (h : thenLeave step leave s = .ok a s') : ∃ s₁, step s = .ok a s₁ := by
  unfold thenLeave at h
  cases hstep : step s with
  | error halt s₁ =>
    rw [hstep] at h
    dsimp only at h
    split at h <;> cases h
  | ok b s₁ =>
    rw [hstep] at h
    dsimp only at h
    split at h
    · cases h
      exact ⟨s₁, rfl⟩
    · cases h

/-! ## Statements -/

/-- Statements end in permitted ways, wherever the machine is sound. -/
def ExecPermitted (exec : Stmt → Exec Flow) : Prop :=
  ∀ s statement, s.Sound anyToken → EndsSound anyToken true s State.Permits (exec statement s)

theorem execEach_permitted {exec : Stmt → Exec Flow} (hexec : ExecPermitted exec)
    (h : s.Sound anyToken) (statements : List Stmt) :
    EndsPermitted s (execEach exec statements s) := by
  induction statements generalizing s with
  | nil => trivial
  | cons statement statements ih =>
    apply EndsPermitted.bind (hexec s statement h)
    intro s' flow _ hsound hflow
    cases flow with
    | normal => exact ih hsound
    | broke => exact hflow
    | returned value => exact hflow

/-- Going round a loop never ends in a `break`, whatever its body does. -/
theorem repeatWhile_ne_broke (condition : Exec Value) (body : Exec Flow) (n : Nat) :
    repeatWhile condition body n s ≠ .ok .broke s' := by
  intro h
  induction n generalizing s with
  | zero => cases h
  | succ n ih =>
    change EStateM.bind condition _ s = _ at h
    unfold EStateM.bind at h
    split at h
    · rename_i value s₁ _
      change (if value.truthy = true then EStateM.bind body _ else pure .normal : Exec Flow) s₁ = _
        at h
      split at h
      · change EStateM.bind body _ s₁ = _ at h
        unfold EStateM.bind at h
        split at h
        · rename_i flow s₂ _
          cases flow with
          | normal => exact ih h
          | broke => cases h
          | returned value => cases h
        · cases h
      · cases h
    · cases h

/-- Going round a loop ends in a `return` only if a function is running. -/
theorem repeatWhile_permitted {exec : Stmt → Exec Flow} (hexec : ExecPermitted exec) {n : Nat}
    (h : s.Sound anyToken) (condition : Expr) (body : Stmt) (m : Nat) :
    EndsPermitted s (repeatWhile (eval host n condition) (exec body) m s) := by
  induction m generalizing s with
  | zero => trivial
  | succ m ih =>
    apply EndsPermitted.bind (eval_endsSound h n condition.every_anyToken)
    intro s₁ value _ hsound₁ _
    split
    · apply EndsPermitted.bind (hexec s₁ body hsound₁)
      intro s₂ flow _ hsound₂ hflow
      cases flow with
      | normal => exact ih hsound₂
      | broke => trivial
      | returned value => exact hflow
    · trivial

/-- A loop ends normally, or with a `return` of the function it is in. -/
theorem whileLoop_permitted {n : Nat} (hexec : ExecPermitted (exec host n)) (h : s.Sound anyToken)
    (condition : Expr) (body : Stmt) :
    EndsPermitted s (exec host (n + 1) (.whileLoop condition body) s) := by
  cases hres : exec host (n + 1) (.whileLoop condition body) s with
  | error halt s' => trivial
  | ok flow s' =>
    obtain ⟨s₁, hs₁⟩ := exists_of_thenLeave hres
    change repeatWhile (eval host n condition) (exec host n body) n _ = _ at hs₁
    have hsound : State.Sound anyToken { s with loopDepth := s.loopDepth + 1 } :=
      h.of_same rfl rfl
    have hloop : EndsPermitted _ (repeatWhile (eval host n condition) (exec host n body) n _) :=
      repeatWhile_permitted hexec hsound condition body n
    rw [hs₁] at hloop
    cases flow with
    | normal => trivial
    | broke => exact absurd hs₁ (repeatWhile_ne_broke _ _ n)
    | returned value => exact hloop

/-- A block ends as its statements do, at the depths it began at. -/
theorem block_permitted {exec : Stmt → Exec Flow} (hexec : ExecPermitted exec)
    (h : s.Sound anyToken) (statements : List Stmt) :
    EndsPermitted s (insideBlock .standard (execEach exec statements) s) := by
  have henter := h.enter h.current s.loopDepth s.callDepth
  have hinside := execEach_permitted hexec henter statements
  rw [insideBlock_apply]
  cases hres : thenLeave (execEach exec statements) _ _ with
  | error halt s' => trivial
  | ok flow s' =>
    obtain ⟨s₁, hs₁⟩ := exists_of_thenLeave hres
    rw [hs₁] at hinside
    exact hinside.of_depths rfl rfl

/-- **A statement ends in a `break` only inside a running loop, and in a `return` only inside a
running function**, by induction on the budget. -/
theorem exec_permitted (host : Host) (n : Nat) : ExecPermitted (exec host n) := by
  induction n with
  | zero =>
    intro s statement h
    exact (exec_endsSound h 0 (statement.every_anyToken .top)).permitted trivial
  | succ n ih =>
    intro s statement h
    apply (exec_endsSound h (n + 1) (statement.every_anyToken .top)).permitted
    cases statement with
    | expression e => exact EndsNormal.endsPermitted (.bind fun _ _ => rfl)
    | print e => exact EndsNormal.endsPermitted (.bind fun _ _ => .bind fun _ _ => rfl)
    | varDecl name initializer =>
      apply EndsNormal.endsPermitted
      cases initializer with
      | none => exact .bind fun _ _ => .bind fun _ _ => rfl
      | some e => exact .bind fun _ _ => .bind fun _ _ => rfl
    | block statements => exact block_permitted ih h statements
    | ifElse condition thenBranch elseBranch =>
      apply EndsPermitted.bind (eval_endsSound h n condition.every_anyToken)
      intro s₁ value _ hsound _
      split
      · exact (ih s₁ thenBranch hsound).endsPermitted
      · cases elseBranch with
        | none => trivial
        | some elseBranch => exact (ih s₁ elseBranch hsound).endsPermitted
    | whileLoop condition body => exact whileLoop_permitted ih h condition body
    | breakOut keyword =>
      show EndsPermitted s (ite (s.loopDepth = 0) (failAt keyword .breakOutsideLoop) (pure .broke) s)
      split
      · trivial
      · rename_i hloop
        exact Nat.pos_of_ne_zero hloop
    | funDecl name params body => exact EndsNormal.endsPermitted (.bind fun _ _ => rfl)
    | giveBack keyword value =>
      show EndsPermitted s (ite (s.callDepth = 0) (failAt keyword .returnOutsideFunction) _ s)
      split
      · trivial
      · rename_i hcall
        have hpos : 0 < s.callDepth := Nat.pos_of_ne_zero hcall
        cases value with
        | none => exact hpos
        | some e =>
          apply EndsPermitted.bind (eval_endsSound h n e.every_anyToken)
          intro s₁ value hfollows _ _
          show 0 < s₁.callDepth
          rw [hfollows.restores.callDepth]
          exact hpos

/-! ## Programs -/

/-- Where no loop and no function is running, all ways to end but one are ruled out. -/
theorem State.Permits.eq_normal {flow : Flow} (h : s.Permits flow) (hloop : s.loopDepth = 0)
    (hcall : s.callDepth = 0) : flow = .normal := by
  cases flow with
  | normal => rfl
  | broke =>
    have hpos : 0 < s.loopDepth := h
    omega
  | returned value =>
    have hpos : 0 < s.callDepth := h
    omega

/-- At depth zero, statements executed until one does not end normally are all executed: it makes
no difference that a program does not look at how they end. -/
theorem execEach_eq_execProgram (h : s.Sound anyToken) (hloop : s.loopDepth = 0)
    (hcall : s.callDepth = 0) (n : Nat) (statements : List Stmt) :
    execEach (exec host n) statements s =
      (do execProgramWith .standard host n statements; return Flow.normal : Exec Flow) s := by
  induction statements generalizing s with
  | nil => rfl
  | cons statement statements ih =>
    have hends := exec_permitted host n s statement h
    show EStateM.bind (exec host n statement) _ s =
      EStateM.bind (EStateM.bind (exec host n statement) _) _ s
    cases hres : exec host n statement s with
    | error halt s' =>
      simp only [EStateM.bind, exec] at hres ⊢
      simp only [hres]
    | ok flow s' =>
      rw [hres] at hends
      obtain ⟨hfollows, hsound, hflow⟩ := hends
      have hloop' : s'.loopDepth = 0 := hfollows.restores.loopDepth.trans hloop
      have hcall' : s'.callDepth = 0 := hfollows.restores.callDepth.trans hcall
      rw [hflow.eq_normal hloop' hcall'] at hres
      simp only [EStateM.bind, exec] at hres ⊢
      simp only [hres]
      exact ih hsound hloop' hcall'

end

/-! ## The theorem -/

/-- **Transfers of control stop at their boundary.** From every reachable state and for any trees:
a statement ends in a `break` only if a loop is running, and in a `return` only if a function is;
a loop never ends in a `break`; nor does the body of a function, from wherever it is called; and
where neither a loop nor a function is running, every statement ends normally or halts, so that a
program executed without a look at how its statements end is executed as a list of statements that
stops at the first which does not end normally. -/
theorem transfer_confined (host : Host) {s : State} (hs : Reachable host s) (n : Nat) :
    (∀ statement s', exec host n statement s = .ok .broke s' → 0 < s.loopDepth) ∧
    (∀ statement value s', exec host n statement s = .ok (.returned value) s' →
      0 < s.callDepth) ∧
    (∀ condition body s', exec host n (.whileLoop condition body) s ≠ .ok .broke s') ∧
    (∀ closure params arguments body s', s.store.Captured closure →
      (∀ v ∈ arguments, v.Held s.store) →
      insideBody .standard closure params arguments (execEach (exec host n) body) s ≠
        .ok .broke s') ∧
    (s.loopDepth = 0 → s.callDepth = 0 →
      (∀ statement flow s', exec host n statement s = .ok flow s' → flow = .normal) ∧
      ∀ statements, execEach (exec host n) statements s =
        (do execProgramWith .standard host n statements; return Flow.normal : Exec Flow) s) := by
  have hsound := hs.sound
  have hpermitted : ∀ {statement flow s'}, exec host n statement s = .ok flow s' →
      s.Permits flow := by
    intro statement flow s' hres
    have hends := (exec_permitted host n s statement hsound).endsPermitted
    rw [hres] at hends
    exact hends
  refine ⟨?_, ?_, ?_, ?_, ?_⟩
  · intro statement s' hres
    exact hpermitted hres
  · intro statement value s' hres
    exact hpermitted hres
  · intro condition body s' hres
    cases n with
    | zero => cases hres
    | succ n =>
      obtain ⟨s₁, hs₁⟩ := exists_of_thenLeave hres
      exact repeatWhile_ne_broke _ _ n hs₁
  · -- a body begins with no loop running
    intro closure params arguments body s' hclosure harguments hres
    have hbegin : State.Sound anyToken _ := (bindAll_sound true s.store.size params
      (hsound.enter hclosure.lt_size 0 (s.callDepth + 1)) fun v hv =>
        ⟨v, (harguments v hv).matches_self.mono
          (ScopeStore.links_mono fun i hi => ScopeStore.captured_push_iff.2 hi) fun _ _ => id⟩).2
    have hbody := execEach_permitted (exec_permitted host n) hbegin body
    rw [insideBody_apply fun _ _ _ => ⟨_, rfl⟩] at hres
    obtain ⟨s₁, hs₁⟩ := exists_of_thenLeave hres
    rw [hs₁] at hbody
    exact Nat.lt_irrefl 0 hbody
  · intro hloop hcall
    refine ⟨?_, execEach_eq_execProgram hsound hloop hcall n⟩
    intro statement flow s' hres
    exact (hpermitted hres).eq_normal hloop hcall

/-- A `break` in a block, with no loop around them. -/
def strayBreak : Stmt :=
  .block [.breakOut ⟨.kwBreak, "break", none, 1, ⟨0, 5⟩⟩]

/-- It ends in a `break` where a loop is running, and even so the loop around it ends normally. -/
theorem transfer_confined_strayBreak :
    let s : State := { Session.fresh.state with loopDepth := 1 }
    Reachable idleHost s ∧ exec idleHost 2 strayBreak s = .ok .broke s ∧ 0 < s.loopDepth ∧
      ∀ s', exec idleHost 4 (.whileLoop (.literal (.bool true) 1) strayBreak) s ≠
        .ok .broke s' := by
  intro s
  have hs : Reachable idleHost s := .inLoop .start
  have hres : exec idleHost 2 strayBreak s = .ok .broke s := by
    cbv
  obtain ⟨hbroke, -⟩ := transfer_confined idleHost hs 2
  obtain ⟨-, -, hloop, -⟩ := transfer_confined idleHost hs 4
  exact ⟨hs, hres, hbroke strayBreak s hres, hloop _ _⟩

end GradedScript
