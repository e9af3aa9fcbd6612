import GradedScript.Parser
import GradedScript.Proofs.Machine.Budgets
import GradedScript.Proofs.Machine.Detours
import Mathlib

/-!
# Trees of `for` loops

A `for` loop is read into a `while` loop whose body is a block of the body and the increment
(`ForLoop.tree`), so the increment runs inside a scope that the loop itself does not ask for.
`ForLoop.run` says what the loop means: one scope for the initializer, and in it the condition, the
body and the increment, over and over. The scope around the increment is a detour, since nothing
that is read as the body of a loop declares a name in it. `for_trees_run_as_loops` draws the
conclusion.
-/

namespace GradedScript

open Exec

/-! ## What a `for` loop means -/

namespace Exec

/-- Whether a loop goes on: its condition holds, or it has none. -/
def goesOn : (condition : Option (Exec Value)) → Exec Bool
  | some condition => do return (← condition).truthy
  | none => return true

/-- Takes a step if there is one. -/
def perhaps : (step : Option (Exec Value)) → Exec Unit
  | some step => do
    let _ ← step
    return
  | none => return

/-- Goes round a `for` loop at most `budget` times. The increment follows a body that ended
normally, and only that. -/
def forRounds (condition increment : Option (Exec Value)) (body : Exec Flow) :
    (budget : Nat) → Exec Flow
  | 0 => fun s => .error .outOfBudget s
  | n + 1 => do
    if ← goesOn condition then
      match ← body with
      | .normal => do
        perhaps increment
        forRounds condition increment body n
      | .broke => return .normal
      | .returned value => return .returned value
    else
      return .normal

/-- A `for` loop: its initializer, if there is one, is run once in a scope of its own, and the loop
is run in that scope. -/
def runFor (initializer : Option (Exec Flow)) (condition increment : Option (Exec Value))
    (body : Exec Flow) (budget : Nat) : Exec Flow :=
  let loop := insideLoop (forRounds condition increment body budget)
  match initializer with
  | some initializer => insideBlock .standard do
    match ← initializer with
    | .normal => loop
    | flow => return flow
  | none => loop

end Exec

/-- The parts of a `for` loop. As in every program that is read, the body declares nothing in the
scope it stands in. -/
structure ForLoop where
  keyword : Token
  initializer : Option Stmt
  condition : Option Expr
  increment : Option Expr
  body : Stmt
  plain : body.Plain

namespace ForLoop

variable (f : ForLoop) (host : Host)

/-- The tree that the parser builds. -/
def tree : Stmt :=
  Parser.forLoop f.keyword f.initializer f.condition f.increment f.body

/-- The loop, with a budget for each of its parts. -/
def runParts (initially condition increment body rounds : Nat) : Exec Flow :=
  runFor (f.initializer.map (exec host initially)) (f.condition.map (eval host condition))
    (f.increment.map (eval host increment)) (exec host body f.body) rounds

/-- The loop, with one budget. -/
def run (budget : Nat) : Exec Flow :=
  f.runParts host budget budget budget budget budget

end ForLoop

/-! ## What the parser builds

The body of a loop is read where no declaration may stand, so it is plain. -/

namespace Parser

variable {α β : Type} {P : α → Prop} {Q : β → Prop} {p : Parser α}

/-- Every result of a parser has a property. -/
def Yields (P : α → Prop) (p : Parser α) : Prop :=
  ∀ s a s', p s = .ok a s' → P a

theorem Yields.pure {a : α} (h : P a) : Yields P (pure a) := by
  rintro s _ _ ⟨⟩
  exact h

/-- A parser that succeeds has succeeded in its first part and in the rest. -/
theorem bind_eq_ok {f : α → Parser β} {s s' : State} {b : β} (h : (p >>= f) s = .ok b s') :
    ∃ a s₁, p s = .ok a s₁ ∧ f a s₁ = .ok b s' := by
  have h : EStateM.bind p f s = .ok b s' := h
  unfold EStateM.bind at h
  split at h
  · rename_i a s₁ hok
    exact ⟨a, s₁, hok, h⟩
  · cases h

theorem Yields.bind {f : α → Parser β} (hp : Yields P p) (hf : ∀ a, P a → Yields Q (f a)) :
    Yields Q (p >>= f) := by
  intro s b s' h
  obtain ⟨a, s₁, hok, hrest⟩ := bind_eq_ok h
  exact hf a (hp s a s₁ hok) s₁ b s' hrest

/-- What a parser yields in the end, whatever comes first. -/
theorem Yields.after {f : α → Parser β} (hf : ∀ a, Yields Q (f a)) : Yields Q (p >>= f) :=
  Yields.bind (P := fun _ => True) (fun _ _ _ _ => trivial) fun a _ => hf a

theorem Yields.insideLoop (h : Yields P p) : Yields P (Parser.insideLoop p) := by
  intro s a s' hok
  unfold Parser.insideLoop at hok
  split at hok
  · rename_i b s₁ hb
    cases hok
    exact h _ a s₁ hb
  · cases hok

end Parser

/-- The parts of a loop are what was read after its keyword: the clauses in parentheses, and then
the body. -/
def ForLoop.ReadFrom (f : ForLoop) (statement : Parser Stmt) (m : Nat) (s s' : Parser.State) :
    Prop :=
  ∃ left semicolon right s₁ s₂ s₃ s₄ s₅ s₆,
    Parser.expect .leftParen .parenAfterFor s = .ok left s₁ ∧
    Parser.forInitializer m s₁ = .ok f.initializer s₂ ∧
    Parser.expressionUnless .semicolon m s₂ = .ok f.condition s₃ ∧
    Parser.expect .semicolon .semicolonAfterLoopCondition s₃ = .ok semicolon s₄ ∧
    Parser.expressionUnless .rightParen m s₄ = .ok f.increment s₅ ∧
    Parser.expect .rightParen .parenAfterForClauses s₅ = .ok right s₆ ∧
    Parser.insideLoop statement s₆ = .ok f.body s'

/-- A `for` statement is read into the tree of a loop with the parts that were read. -/
theorem Parser.forStatement_eq_ok {statement : Parser Stmt} (h : Yields Stmt.Plain statement)
    {m : Nat} {keyword : Token} {tree : Stmt} {s s' : State}
    (hok : forStatement statement m keyword s = .ok tree s') :
    ∃ f : ForLoop, f.keyword = keyword ∧ tree = f.tree ∧ f.ReadFrom statement m s s' := by
  obtain ⟨left, s₁, hleft, hok⟩ := bind_eq_ok hok
  obtain ⟨initializer, s₂, hinitializer, hok⟩ := bind_eq_ok hok
  obtain ⟨condition, s₃, hcondition, hok⟩ := bind_eq_ok hok
  obtain ⟨semicolon, s₄, hsemicolon, hok⟩ := bind_eq_ok hok
  obtain ⟨increment, s₅, hincrement, hok⟩ := bind_eq_ok hok
  obtain ⟨right, s₆, hright, hok⟩ := bind_eq_ok hok
  obtain ⟨body, s₇, hbody, hok⟩ := bind_eq_ok hok
  cases hok
  exact ⟨⟨keyword, initializer, condition, increment, body, h.insideLoop s₆ body s' hbody⟩, rfl,
    rfl, left, semicolon, right, s₁, s₂, s₃, s₄, s₅, s₆, hleft, hinitializer, hcondition,
    hsemicolon, hincrement, hright, hbody⟩

theorem ForLoop.tree_plain (f : ForLoop) : f.tree.Plain := by
  obtain ⟨keyword, initializer, condition, increment, body, hbody⟩ := f
  cases initializer with
  | some initializer => exact .block _
  | none =>
    cases increment with
    | some increment => exact .whileLoop (.block _)
    | none => exact .whileLoop hbody

namespace Parser

/-- Where no declaration may stand, what is read is plain. -/
theorem plainStatement_yields {statement : Parser Stmt} (h : Yields Stmt.Plain statement)
    (block : Parser (List Stmt)) (m : Nat) :
    Yields Stmt.Plain (plainStatement statement block m) := by
  refine .after fun token => ?_
  -- `break`, `for`, `if`, `print`, `return`, `while`, a block, and an expression
  split
  case h_1 =>
    refine .after fun _ => .after fun state => ?_
    split
    · exact .after fun _ => .after fun _ => .pure (.breakOut _)
    · exact .after fun _ => .pure (.breakOut _)
  case h_2 =>
    refine .after fun _ s tree s' hok => ?_
    obtain ⟨f, -, rfl, -⟩ := forStatement_eq_ok h hok
    exact f.tree_plain
  case h_3 =>
    refine .after fun _ => .after fun _ => .after fun _ => .after fun _ => ?_
    refine h.bind fun thenBranch hthen => .after fun other? => ?_
    cases other? with
    | some other =>
      refine h.bind fun elseBranch helse => .pure (.ifElse hthen ?_)
      rintro _ ⟨⟩
      exact helse
    | none =>
      refine .pure (.ifElse hthen ?_)
      rintro _ ⟨⟩
  case h_4 => exact .after fun _ => .after fun _ => .after fun _ => .pure (.print _)
  case h_5 =>
    refine .after fun _ => .after fun state => ?_
    split
    · exact .after fun _ => .after fun _ => .after fun _ => .pure (.giveBack _ _)
    · exact .after fun _ => .after fun _ => .pure (.giveBack _ _)
  case h_6 =>
    refine .after fun _ => .after fun _ => .after fun _ => .after fun _ => ?_
    exact h.insideLoop.bind fun body hbody => .pure (.whileLoop hbody)
  case h_7 => exact .after fun _ => .after fun statements => .pure (.block statements)
  case h_8 => exact .after fun e => .after fun _ => .pure (.expression e)

/-- So the bodies of loops are plain, and the branches of an `if`. -/
theorem statement_yields (n : Nat) : Yields Stmt.Plain (statement n false) := by
  induction n with
  | zero =>
    rintro s a s' ⟨⟩
  | succ n ih => exact plainStatement_yields ih _ _

end Parser

/-! ## Rounds -/

section

variable {condition increment : Option (Exec Value)} {body : Exec Flow}

/-- The body of a round, and the increment after it. -/
def Exec.forBody (increment : Option (Exec Value)) (body : Exec Flow) : Exec Flow := do
  match ← body with
  | .normal => do
    perhaps increment
    return .normal
  | flow => return flow

theorem Exec.forBody_none : forBody none body = body := by
  have hsame : forBody none body = body >>= pure := bind_congr fun flow => by cases flow <;> rfl
  rw [hsame, bind_pure]

theorem Exec.execEach_singleton (execute : Stmt → Exec Flow) (statement : Stmt) :
    execEach execute [statement] = execute statement := by
  have hsame : execEach execute [statement] = execute statement >>= pure :=
    bind_congr fun flow => by cases flow <;> rfl
  rw [hsame, bind_pure]

/-- A `for` loop goes round as a `while` loop does whose condition may be absent. -/
theorem Exec.forRounds_eq_repeatWhile (n : Nat) :
    forRounds condition increment body n =
      repeatWhile (condition.getD (pure (.bool true))) (forBody increment body) n := by
  induction n with
  | zero => rfl
  | succ n ih =>
    have hcondition : goesOn condition =
        (do return (← condition.getD (pure (.bool true))).truthy : Exec Bool) := by
      cases condition <;> rfl
    rw [forRounds, repeatWhile, hcondition, ← ih, forBody]
    simp only [bind_assoc, pure_bind]
    refine bind_congr fun value => ?_
    split
    · refine bind_congr fun flow => ?_
      cases flow with
      | normal => simp only [bind_assoc, pure_bind]
      | broke => simp only [pure_bind]
      | returned value => simp only [pure_bind]
    · rfl

end

/-! ## The tree beside the loop

The two differ by the block around the body and the increment, which is a detour for the tree. -/

namespace ForLoop

variable (f : ForLoop) (host : Host)

/-- What the tree has as the body of its `while` loop. -/
def bodyTree : Stmt :=
  match f.increment with
  | some increment => .block [f.body, .expression increment]
  | none => f.body

/-- The `while` loop in the tree. -/
def loopTree : Stmt :=
  .whileLoop (f.condition.getD (.literal (.bool true) f.keyword.line)) f.bodyTree

theorem tree_eq : f.tree =
    match f.initializer with
    | some initializer => .block [initializer, f.loopTree]
    | none => f.loopTree := by
  obtain ⟨keyword, initializer, condition, increment, body, hbody⟩ := f
  cases initializer <;> cases increment <;> rfl

/-- The body with the increment after it, in the scope of the loop and on a detour. -/
theorem bodyTree_endsAlike (m : Nat) : ∃ increment body, (increment ≤ m ∧ m ≤ increment + 2) ∧
    (body ≤ m ∧ m ≤ body + 1) ∧ ∀ w : Detour, w.Sound →
      w.EndsAlike Detour.Flows
        (forBody (f.increment.map (eval host increment)) (exec host body f.body) w.left)
        (exec host m f.bodyTree w.right) := by
  unfold bodyTree
  cases f.increment with
  | none =>
    refine ⟨m, m, by omega, by omega, fun w hw => ?_⟩
    rw [Option.map_none, forBody_none]
    exact plain_endsAlike host m hw f.plain
  | some e =>
    cases m with
    | zero => exact ⟨0, 0, by omega, by omega, fun w hw => .halted hw rfl⟩
    | succ m =>
      refine ⟨m - 1, m, by omega, by omega, fun w hw => ?_⟩
      refine Detour.blockRight_endsAlike hw fun w₁ hw₁ => ?_
      refine (plain_endsAlike host m hw₁ f.plain).bind fun w₂ flow flow' _ hw₂ hflow => ?_
      cases hflow with
      | broke => exact .pure hw₂ .broke
      | returned hv => exact .pure hw₂ (.returned hv)
      | normal =>
        cases m with
        | zero => exact .halted hw₂ rfl
        | succ m =>
          have hincrement : w₂.EndsAlike (fun _ _ flow => flow = .normal)
              (perhaps (some (eval host m e)) w₂.left)
              (exec host (m + 1) (.expression e) w₂.right) :=
            (eval_endsAlike host m hw₂ e).bind fun w₃ _ _ _ hw₃ _ => .pure hw₃ rfl
          refine hincrement.bind ?_
          rintro w₃ _ _ _ hw₃ rfl
          exact .pure hw₃ .normal

/-- The `while` loop of the tree, beside the rounds of the `for` loop. -/
theorem loopTree_endsAlike (m : Nat) : ∃ condition increment body rounds,
    (condition ≤ m ∧ m ≤ condition + 1) ∧ (increment ≤ m ∧ m ≤ increment + 3) ∧
    (body ≤ m ∧ m ≤ body + 2) ∧ (rounds ≤ m ∧ m ≤ rounds + 1) ∧
    ∀ w : Detour, w.Sound → w.EndsAlike Detour.Flows
      (insideLoop (forRounds (f.condition.map (eval host condition))
        (f.increment.map (eval host increment)) (exec host body f.body) rounds) w.left)
      (exec host m f.loopTree w.right) := by
  cases m with
  | zero => exact ⟨0, 0, 0, 0, by omega, by omega, by omega, by omega, fun w hw => .halted hw rfl⟩
  | succ m =>
    obtain ⟨increment, body, hincrement, hbody, halike⟩ := f.bodyTree_endsAlike host m
    refine ⟨m, increment, body, m, by omega, by omega, by omega, by omega, fun w hw => ?_⟩
    refine Detour.insideLoop_endsAlike hw fun w₁ hw₁ _ _ _ => ?_
    rw [forRounds_eq_repeatWhile]
    cases m with
    | zero => exact .halted hw₁ rfl
    | succ m =>
      refine repeatWhile_endsAlike ?_ halike (m + 1) hw₁
      intro w₂ hw₂
      cases f.condition with
      | some e => exact eval_endsAlike host (m + 1) hw₂ e
      | none => exact .pure hw₂ (.bool true)

/-- **The tree ends as the loop does**, with budgets for its parts that are a little smaller. -/
theorem tree_endsAlike (n : Nat) : ∃ initially condition increment body rounds,
    (initially ≤ n + 1 ∧ n ≤ initially + 3) ∧ (condition ≤ n + 1 ∧ n ≤ condition + 3) ∧
    (increment ≤ n + 1 ∧ n ≤ increment + 3) ∧ (body ≤ n + 1 ∧ n ≤ body + 3) ∧
    (rounds ≤ n + 1 ∧ n ≤ rounds + 3) ∧
    ∀ w : Detour, w.Sound → w.EndsAlike Detour.Flows
      (f.runParts host initially condition increment body rounds w.left)
      (exec host (n + 1) f.tree w.right) := by
  unfold runParts
  rw [tree_eq]
  cases f.initializer with
  | none =>
    obtain ⟨condition, increment, body, rounds, hc, hi, hb, hr, halike⟩ :=
      f.loopTree_endsAlike host (n + 1)
    exact ⟨n, condition, increment, body, rounds, by omega, by omega, by omega, by omega, by omega,
      halike⟩
  | some initializer =>
    obtain ⟨condition, increment, body, rounds, hc, hi, hb, hr, halike⟩ :=
      f.loopTree_endsAlike host n
    refine ⟨n, condition, increment, body, rounds, by omega, by omega, by omega, by omega,
      by omega, fun w hw => ?_⟩
    refine Detour.insideBlock_endsAlike hw fun w₁ hw₁ hexact _ _ => ?_
    refine (exec_endsAlike host n hw₁ hexact initializer).bind fun w₂ flow flow' _ hw₂ hflow => ?_
    cases hflow with
    | broke => exact .pure hw₂ .broke
    | returned hv => exact .pure hw₂ (.returned hv)
    | normal =>
      rw [execEach_singleton]
      exact halike w₂ hw₂

/-! ## Budgets

The tree has a few levels more than the loop, and takes a larger budget to come to an end. What is
done under one budget is done under every larger one, which closes the gap. -/

/-- With larger budgets for its parts the loop reaches further. -/
theorem runParts_reachesFurther (k : Nat) {a a' c c' i i' b b' r r' : Nat} (ha : a ≤ a')
    (hc : c ≤ c') (hi : i ≤ i') (hb : b ≤ b') (hr : r ≤ r') :
    reachesFurther.Rel k (f.runParts host a c i b r) (f.runParts host a' c' i' b' r') := by
  have hcondition : reachesFurther.Rel k
      ((f.condition.map (eval host c)).getD (pure (.bool true)))
      ((f.condition.map (eval host c')).getD (pure (.bool true))) := by
    cases f.condition with
    | none => exact reachesFurther.pure _
    | some e => exact (machine_reachesFurther host hc k).1 e
  have hperhaps : reachesFurther.Rel k (perhaps (f.increment.map (eval host i)))
      (perhaps (f.increment.map (eval host i'))) := by
    cases f.increment with
    | none => exact reachesFurther.pure _
    | some e =>
      exact reachesFurther.bind ((machine_reachesFurther host hi k).1 e) fun _ =>
        reachesFurther.pure _
  have hbody : reachesFurther.Rel k
      (forBody (f.increment.map (eval host i)) (exec host b f.body))
      (forBody (f.increment.map (eval host i')) (exec host b' f.body)) := by
    refine reachesFurther.bind ((machine_reachesFurther host hb k).2.1 f.body) fun flow => ?_
    cases flow with
    | normal => exact reachesFurther.bind hperhaps fun _ => reachesFurther.pure _
    | broke => exact reachesFurther.pure _
    | returned value => exact reachesFurther.pure _
  have hloop := reachesFurther.inside .loop (fun _ hk => hk)
    (repeatWhile_reachesFurther hr hcondition hbody)
  unfold runParts runFor
  simp only [forRounds_eq_repeatWhile, Passage.loop_step, Passage.block_step]
  cases f.initializer with
  | none => exact hloop
  | some initializer =>
    refine reachesFurther.inside .block (fun _ hk => hk) ?_
    refine reachesFurther.bind ((machine_reachesFurther host ha k).2.1 initializer) fun flow => ?_
    cases flow with
    | normal => exact hloop
    | broke => exact reachesFurther.pure _
    | returned value => exact reachesFurther.pure _

/-- What the loop does, once it comes to an end, it does with larger budgets for its parts. -/
theorem runParts_of_ended {a a' c c' i i' b b' r r' : Nat} (ha : a ≤ a') (hc : c ≤ c')
    (hi : i ≤ i') (hb : b ≤ b') (hr : r ≤ r') {s : State}
    (h : Ended (f.runParts host a c i b r s)) :
    f.runParts host a' c' i' b' r' s = f.runParts host a c i b r s :=
  (f.runParts_reachesFurther host s.callDepth ha hc hi hb hr s rfl).2 h

end ForLoop

theorem Detour.EndsAlike.ended_iff {α β : Type} {w : Detour} {Q : Detour → α → β → Prop}
    {r : EStateM.Result Halt State α} {r' : EStateM.Result Halt State β}
    (h : w.EndsAlike Q r r') : Ended r ↔ Ended r' := by
  cases h with
  | ok _ _ _ _ _ _ => exact ⟨fun _ => ended_ok _ _, fun _ => ended_ok _ _⟩
  | halt _ _ _ _ _ hhalt =>
    cases hhalt
    constructor
    · rintro h _ ⟨⟩
      exact h _ rfl
    · rintro h _ ⟨⟩
      exact h _ rfl

namespace ForLoop

variable (f : ForLoop) (host : Host) {s : State}

/-- If the tree comes to an end, so does the loop under the same budget. -/
theorem run_of_tree_ended (hs : s.Sound anyToken) {n : Nat} (h : Ended (exec host n f.tree s)) :
    (Detour.same s).EndsAlike Detour.Flows (f.run host n s) (exec host n f.tree s) := by
  cases n with
  | zero => exact absurd rfl (h s)
  | succ n =>
    obtain ⟨a, c, i, b, r, ha, hc, hi, hb, hr, halike⟩ := f.tree_endsAlike host n
    have halike := halike (Detour.same s) (Detour.same_sound hs)
    have hparts : f.run host (n + 1) s = f.runParts host a c i b r s :=
      f.runParts_of_ended host ha.1 hc.1 hi.1 hb.1 hr.1 (halike.ended_iff.2 h)
    rw [hparts]
    exact halike

/-- If the loop comes to an end, so does the tree under a budget for four levels more. -/
theorem tree_of_run_ended (hs : s.Sound anyToken) {n : Nat} (h : Ended (f.run host n s)) :
    (Detour.same s).EndsAlike Detour.Flows (f.run host n s) (exec host (n + 4) f.tree s) := by
  obtain ⟨a, c, i, b, r, ha, hc, hi, hb, hr, halike⟩ := f.tree_endsAlike host (n + 3)
  have hparts : f.runParts host a c i b r s = f.run host n s :=
    f.runParts_of_ended host (by omega) (by omega) (by omega) (by omega) (by omega) h
  rw [← hparts]
  exact halike (Detour.same s) (Detour.same_sound hs)

end ForLoop

/-! ## The theorem -/

/-- What two runs from a state have come to is the same but for the scopes of functions, which
correspond along a map. -/
structure State.SameSince (s : State) (map : List ScopeId) (s' t' : State) : Prop where
  /-- the scopes that were there before correspond to themselves -/
  kept : ∀ i < s.store.size, map[i]? = some i
  /-- and bind the same names to the same values -/
  bindings : ∀ i < s.store.size, ∃ scope scope', s'.store.scope? i = some scope ∧
    t'.store.scope? i = some scope' ∧ List.Forall₂
      (EntriesMatch (.only anyToken) (s'.store.linksVia map)) scope.bindings.entries
        scope'.bindings.entries
  current : s'.current = s.current ∧ t'.current = s.current
  output : t'.output = s'.output
  /-- what else the second has are blank scopes, so what runs next runs alike too -/
  sound : Detour.Sound ⟨map, s', t'⟩

/-- Two ways to run from a state end with the same result, or halt in the same way. -/
inductive SameOutcome (s : State) :
    EStateM.Result Halt State Flow → EStateM.Result Halt State Flow → Prop
  | ended {flow flow' s' t' map} (h : s.SameSince map s' t')
      (hflow : flow.Matches (.only anyToken) (s'.store.linksVia map) flow') :
      SameOutcome s (.ok flow s') (.ok flow' t')
  | halted {halt s' t' map} (h : s.SameSince map s' t') :
      SameOutcome s (.error halt s') (.error halt t')

/-- What comes after a state beside itself is the same since. -/
theorem Detour.Later.sameSince {s s' t' : State} {map : List ScopeId}
    (h : (same s).Later ⟨map, s', t'⟩) (hsound : Sound ⟨map, s', t'⟩) :
    s.SameSince map s' t' := by
  have hkept : ∀ i < s.store.size, map[i]? = some i := fun i hi =>
    getElem?_of_prefix h.map (range_getElem?_iff.2 ⟨hi, rfl⟩)
  refine ⟨hkept, fun i hi => ?_, ⟨h.left.current, h.right.current⟩, hsound.output, hsound⟩
  obtain ⟨scope, scope', hscope, hscope', hentries, -⟩ := hsound.stores.scopes i i (hkept i hi)
  exact ⟨scope, scope', hscope, hscope', hentries⟩

theorem Detour.EndsAlike.sameOutcome {s : State} {r r' : EStateM.Result Halt State Flow}
    (h : (same s).EndsAlike Flows r r') : SameOutcome s r r' := by
  cases h with
  | ok w' hleft hright hlater hsound hflow =>
    subst hleft hright
    exact .ended (Later.sameSince hlater hsound) hflow
  | halt w' hleft hright hlater hsound hhalt =>
    subst hleft hright hhalt
    exact .halted (Later.sameSince hlater hsound)

/-- **Trees of `for` loops run as loops.** A `for` statement is read into the tree of a loop with
the parts that were read, and its body declares nothing in the scope of the loop. In every state
that is reached, the tree comes to an end if and only if the loop does: the initializer once in a
scope of its own; then, over and over, the condition, the body and the increment in that scope,
until the condition fails or the body breaks out, gives back or halts. Both then end in the same
way, have written the same, and leave the same bindings in all scopes that were there before. -/
theorem for_trees_run_as_loops (host : Host) :
    (∀ n m keyword state tree state',
      Parser.forStatement (Parser.statement n false) m keyword state = .ok tree state' →
      ∃ f : ForLoop, f.keyword = keyword ∧ tree = f.tree ∧
        f.ReadFrom (Parser.statement n false) m state state') ∧
    ∀ s, Reachable host s → ∀ f : ForLoop,
      ((∃ n, Ended (f.run host n s)) ↔ ∃ m, Ended (exec host m f.tree s)) ∧
      ∀ n m, Ended (f.run host n s) → Ended (exec host m f.tree s) →
        SameOutcome s (f.run host n s) (exec host m f.tree s) := by
  refine ⟨?_, ?_⟩
  · intro n m keyword state tree state' hok
    exact Parser.forStatement_eq_ok (Parser.statement_yields n) hok
  · intro s hs f
    refine ⟨⟨?_, ?_⟩, ?_⟩
    · rintro ⟨n, hn⟩
      exact ⟨n + 4, (f.tree_of_run_ended host hs.sound hn).ended_iff.1 hn⟩
    · rintro ⟨m, hm⟩
      exact ⟨m, (f.run_of_tree_ended host hs.sound hm).ended_iff.2 hm⟩
    · intro n m hn hm
      have halike := f.tree_of_run_ended host hs.sound hn
      have hend := halike.ended_iff.1 hn
      -- under a budget for both, the tree does what it does under each
      have hsame : exec host m f.tree s = exec host (n + 4) f.tree s :=
        (exec_of_ended (Nat.le_max_left m (n + 4)) hm).symm.trans
          (exec_of_ended (Nat.le_max_right m (n + 4)) hend)
      rw [hsame]
      exact halike.sameOutcome

/-- A loop whose body declares a function that outlives it. -/
def keepsFunction : String :=
  "for (var go = true; go; go = false) { fun f() { return go; } clock = f; }"

/-- The parts of that loop. -/
def keepingLoop : ForLoop where
  keyword := ⟨.kwFor, "for", none, 1, ⟨0, 3⟩⟩
  initializer := some (.varDecl ⟨.identifier, "go", none, 1, ⟨9, 11⟩⟩
    (some (.literal (.bool true) 1)))
  condition := some (.var ⟨.identifier, "go", none, 1, ⟨20, 22⟩⟩)
  increment := some (.assign ⟨.identifier, "go", none, 1, ⟨24, 26⟩⟩ (.literal (.bool false) 1))
  body := .block [
    .funDecl ⟨.identifier, "f", none, 1, ⟨42, 43⟩⟩ []
      [.giveBack ⟨.kwReturn, "return", none, 1, ⟨48, 54⟩⟩
        (some (.var ⟨.identifier, "go", none, 1, ⟨55, 57⟩⟩))],
    .expression (.assign ⟨.identifier, "clock", none, 1, ⟨61, 66⟩⟩
      (.var ⟨.identifier, "f", none, 1, ⟨69, 70⟩⟩))]
  plain := .block _

/-- The scope of the function that is left in a global variable. -/
def State.closure? (s : State) (name : String) : Option ScopeId :=
  match s.store.getLocal? ScopeStore.globalId name with
  | some (.function ⟨_, .script _ _ _ closure⟩) => some closure
  | _ => none

/-- The function is declared in the second scope opened, in the tree in the third: the outcome is
the same but for that. -/
theorem for_trees_run_as_loops_keepsFunction :
    let s := Session.fresh.state
    let r := keepingLoop.run idleHost 6 s
    let r' := exec idleHost 10 keepingLoop.tree s
    (Program.ofSource keepsFunction).statements = [keepingLoop.tree] ∧
      r = .ok .normal (stateAfter r) ∧ r' = .ok .normal (stateAfter r') ∧
      (stateAfter r).closure? "clock" = some 2 ∧ (stateAfter r').closure? "clock" = some 3 ∧
      SameOutcome s r r' := by
  intro s r r'
  have hread : (Program.ofSource keepsFunction).statements = [keepingLoop.tree] := by cbv
  have hr : r = .ok .normal (stateAfter r) := by
    show keepingLoop.run idleHost 6 Session.fresh.state =
      .ok .normal (stateAfter (keepingLoop.run idleHost 6 Session.fresh.state))
    cbv
  have hr' : r' = .ok .normal (stateAfter r') := by
    show exec idleHost 10 keepingLoop.tree Session.fresh.state =
      .ok .normal (stateAfter (exec idleHost 10 keepingLoop.tree Session.fresh.state))
    cbv
  have hclosure : (stateAfter r).closure? "clock" = some 2 := by
    show (stateAfter (keepingLoop.run idleHost 6 Session.fresh.state)).closure? "clock" = some 2
    cbv
  have hclosure' : (stateAfter r').closure? "clock" = some 3 := by
    show (stateAfter (exec idleHost 10 keepingLoop.tree Session.fresh.state)).closure? "clock" =
      some 3
    cbv
  have hended : Ended r := by
    rw [hr]
    exact ended_ok _ _
  have hended' : Ended r' := by
    rw [hr']
    exact ended_ok _ _
  obtain ⟨-, hsame⟩ := (for_trees_run_as_loops idleHost).2 s .start keepingLoop
  exact ⟨hread, hr, hr', hclosure, hclosure', hsame 6 10 hended hended'⟩

end GradedScript
