import GradedScript.Proofs.Machine.Soundness
import GradedScript.Session
import Mathlib

/-!
# Every way out restores the machine

Whatever a statement, an expression or a call does and however it ends, the machine is back in the
scope and at the depths it was in, the scopes that were held still are, and what was added for good
is released and lies under a captured scope (`reachable_restored`). Between the runs of a session
the machine is therefore in the global scope and at depth zero.
-/

namespace GradedScript

open Exec

/-! ## Trees without a property to ask for -/

/-- Nothing is asked of a token. -/
def anyToken (_ : Role) (_ : Token) : Prop :=
  True

theorem Expr.every_anyToken (e : Expr) : e.Every anyToken := by
  match e with
  | .literal value line => exact .literal value line
  | .grouping inner => exact .grouping inner.every_anyToken
  | .unary _ right => exact .unary trivial right.every_anyToken
  | .binary left _ right => exact .binary left.every_anyToken trivial right.every_anyToken
  | .logical left _ right => exact .logical left.every_anyToken trivial right.every_anyToken
  | .var _ => exact .var trivial
  | .assign _ value => exact .assign trivial value.every_anyToken
  | .call callee _ arguments =>
    exact .call callee.every_anyToken trivial fun e _ => e.every_anyToken

theorem Stmt.every_anyToken (p : Place) (s : Stmt) : s.Every anyToken p := by
  match s with
  | .expression e => exact .expression e.every_anyToken
  | .print e => exact .print e.every_anyToken
  | .varDecl _ _ => exact .varDecl trivial fun e _ => e.every_anyToken
  | .block statements => exact .block fun s _ => s.every_anyToken p
  | .ifElse condition thenBranch elseBranch =>
    exact .ifElse condition.every_anyToken (thenBranch.every_anyToken p) fun s _ =>
      s.every_anyToken p
  | .whileLoop condition body =>
    exact .whileLoop condition.every_anyToken (body.every_anyToken p.loopBody)
  | .breakOut _ => exact .breakOut trivial
  | .funDecl _ _ body => exact .funDecl trivial (fun _ _ => trivial) fun s _ => s.every_anyToken _
  | .giveBack _ _ => exact .giveBack trivial fun e _ => e.every_anyToken

/-! ## Values of a state -/

/-- The functions in a value are built in, or declared in captured scopes of the store. -/
inductive Value.Held (store : ScopeStore) : Value → Prop
  | nil : Held store .nil
  | bool (value) : Held store (.bool value)
  | number (value) : Held store (.number value)
  | string (value) : Held store (.string value)
  | script {i name params body closure} (hclosure : store.Captured closure) :
      Held store (.function ⟨i, .script name params body closure⟩)
  | native {i name arity native} (hnative : native.isInstalled = true) :
      Held store (.function ⟨i, .native name arity native⟩)
  | testCase {i name arguments expected} (harguments : ∀ v ∈ arguments, Held store v)
      (hexpected : Held store expected) : Held store (.testCase i name arguments expected)

theorem Value.Held.matches_self {store : ScopeStore} {v : Value} (h : v.Held store) :
    v.Matches (.only anyToken) store.links v := by
  induction h with
  | nil => exact .nil
  | bool value => exact .bool value
  | number value => exact .number value
  | string value => exact .string value
  | script hclosure =>
    refine .function (.script rfl ⟨rfl, trivial⟩ ?_ ?_ ⟨rfl, hclosure⟩)
    · exact List.forall₂_same.2 fun t _ => ⟨rfl, trivial⟩
    · exact List.forall₂_same.2 fun s _ => (s.every_anyToken .body).matches_self
  | native hnative => exact .function (.native rfl hnative)
  | testCase _ _ iharguments ihexpected =>
    refine .testCase rfl rfl ?_ ihexpected
    intro v v' hv
    obtain ⟨rfl, hmem⟩ := mem_zip_self hv
    exact iharguments v hmem

theorem Value.Held.of_matches {store : ScopeStore} {v v' : Value}
    (h : v.Matches (.only anyToken) store.links v') : v.Held store := by
  induction h with
  | nil => exact .nil
  | bool value => exact .bool value
  | number value => exact .number value
  | string value => exact .string value
  | function hf =>
    cases hf with
    | script _ _ _ _ hclosure => exact .script hclosure.2
    | native _ hnative => exact .native hnative
  | testCase _ hlength _ _ iharguments ihexpected =>
    refine .testCase (fun v hv => ?_) ihexpected
    obtain ⟨v', hmem⟩ := exists_mem_zip hlength hv
    exact iharguments v v' hmem

/-! ## Reachable states -/

/-- The state a step ended in. -/
def Exec.stateAfter {α : Type} : EStateM.Result Halt State α → State
  | .ok _ s => s
  | .error _ s => s

/-- The states in which a machine may begin a statement, an expression or a call while it runs a
session: the first one; those after a statement, an expression or a call, however it ended; and
those at the start of a block, of a loop and of a function body. -/
inductive Reachable (host : Host) : State → Prop
  | start : Reachable host Session.fresh.state
  /-- something is written, or the next run begins with an output of its own -/
  | output {s} (h : Reachable host s) (output : Output) : Reachable host { s with output }
  | afterStmt {s} (h : Reachable host s) (budget : Nat) (statement : Stmt) :
      Reachable host (stateAfter (exec host budget statement s))
  | afterExpr {s} (h : Reachable host s) (budget : Nat) (e : Expr) :
      Reachable host (stateAfter (eval host budget e s))
  | afterCall {s} (h : Reachable host s) (budget : Nat) {f : Function} {arguments : List Value}
      (paren : Token) (hf : (Value.function f).Held s.store)
      (harguments : ∀ v ∈ arguments, v.Held s.store) :
      Reachable host (stateAfter (call host budget f arguments paren s))
  | inBlock {s} (h : Reachable host s) :
      Reachable host { s with store := s.store.push s.current, current := s.store.size }
  | inLoop {s} (h : Reachable host s) : Reachable host { s with loopDepth := s.loopDepth + 1 }
  | inBody {s} (h : Reachable host s) {closure : ScopeId} (hclosure : s.store.Captured closure)
      (params : List Token) {arguments : List Value}
      (harguments : ∀ v ∈ arguments, v.Held s.store) (hdepth : s.callDepth < maxCallDepth) :
      Reachable host { s with
        store := (s.store.push closure).bindAll s.store.size params arguments
        current := s.store.size, loopDepth := 0, callDepth := s.callDepth + 1 }

/-- A state after a step that began in another: it restores the state, and there are more scopes
only if the top one is captured. -/
structure State.Restored (s s' : State) : Prop extends State.Restores s s' where
  size_eq : s'.store.size = s.store.size ∨
    ∃ top, s'.store.scope? (s'.store.size - 1) = some top ∧ top.captured = true

section

variable {P : Role → Token → Prop} {nested : Bool} {host : Host} {s s' : State} {α : Type}

/-- The state after a sound step follows the one before and is sound. -/
theorem EndsSound.stateAfter {Q : State → α → Prop} {r : EStateM.Result Halt State α}
    (h : EndsSound P nested s Q r) :
    s.Follows nested (stateAfter r) ∧ (stateAfter r).Sound P := by
  cases r with
  | ok a s' => exact ⟨h.1, h.2.1⟩
  | error halt s' => exact ⟨h.1, h.2.1⟩

/-- A scope that was added is released, and so the top one is captured, or it were dead. -/
theorem State.Restores.restored (h : s.Restores s') (htop : s'.store.TopAlive) :
    s.Restored s' := by
  refine ⟨h, ?_⟩
  rcases Nat.eq_or_lt_of_le h.keeps.size_le with heq | hlt
  · exact .inl heq.symm
  · right
    obtain ⟨top, hs⟩ := ScopeStore.exists_scope (Nat.sub_one_lt_of_lt hlt)
    have hreleased := h.keeps.added _ top hs (Nat.le_sub_one_of_lt hlt)
    have halive := htop top hs
    simp only [Scope.dead, hreleased, Bool.true_and, Bool.not_eq_false'] at halive
    exact ⟨top, hs, halive⟩

theorem call_endsSound (h : s.Sound anyToken) (n : Nat) {f : Function} {arguments : List Value}
    (paren : Token) (hf : (Value.function f).Held s.store)
    (harguments : ∀ v ∈ arguments, v.Held s.store) :
    EndsSound anyToken true s (fun s' v => v.Fits anyToken s'.store)
      (call host n f arguments paren s) := by
  rw [call, ← Rules.nesting_true]
  obtain ⟨-, -, hcall⟩ := (soundness anyToken true host).machine_related n
  refine hcall s f f arguments arguments paren paren ?_ ?_ ⟨rfl, trivial⟩ h
  · cases hf.matches_self with
    | function hf => exact hf
  · exact List.forall₂_same.2 fun v hv => (harguments v hv).matches_self

end

/-! ## Sessions -/

/-- The store of a new session is well formed, and what it binds is built in. -/
theorem fresh_sound (P : Role → Token → Prop) : Session.fresh.state.Sound P := by
  have hblank : Session.blankState.Sound P := by
    refine ⟨ScopeStore.wellFormed_fresh, Nat.zero_lt_one, ?_⟩
    intro i s hs entry hentry
    obtain ⟨-, rfl⟩ := ScopeStore.scope?_fresh hs
    cases hentry
  have hinstall : ∀ (session : Session) (name : String) (arity : Arity) (native : Native),
      native.isInstalled = true → session.state.Sound P →
      (session.install name arity native).state.Sound P := by
    intro session name arity native hnative h
    have hfits : (Value.function ⟨session.state.nextIdentity, .native name arity native⟩).Fits P
        session.state.store := ⟨_, .function (.native rfl hnative)⟩
    exact (h.bind ScopeStore.globalId name hfits).of_same rfl rfl
  unfold Session.fresh
  exact hinstall _ _ _ _ rfl (hinstall _ _ _ _ rfl (hinstall _ _ _ _ rfl hblank))

/-- Every reachable state is sound. -/
theorem Reachable.sound {host : Host} {s : State} (h : Reachable host s) : s.Sound anyToken := by
  induction h with
  | start => exact fresh_sound anyToken
  | output _ output ih => exact ih.of_same rfl rfl
  | afterStmt _ n statement ih => exact (exec_endsSound ih n (statement.every_anyToken .top)).stateAfter.2
  | afterExpr _ n e ih => exact (eval_endsSound ih n e.every_anyToken).stateAfter.2
  | afterCall _ n paren hf harguments ih =>
    exact (call_endsSound ih n paren hf harguments).stateAfter.2
  | @inBlock s _ ih => exact ih.enter ih.current s.loopDepth s.callDepth
  | inLoop _ ih => exact ih.of_same rfl rfl
  | @inBody s _ closure hclosure params arguments harguments _ ih =>
    have henter := ih.enter hclosure.lt_size 0 (s.callDepth + 1)
    refine (bindAll_sound true s.store.size params henter fun v hv => ?_).2
    exact ⟨v, (harguments v hv).matches_self.mono
      (ScopeStore.links_mono fun i hi => ScopeStore.captured_push_iff.2 hi) fun _ _ => id⟩

/-- A source to run, with the budget of its run and the limit of its output. -/
structure Session.Input where
  source : String
  budget : Nat
  limit : Option Nat := none

/-- The session after inputs were run one after the other under some rules. -/
def Session.after (session : Session) (rules : Rules) (host : Host) (inputs : List Input) :
    Session :=
  inputs.foldl (fun session input =>
    (session.runWith rules host input.budget input.limit input.source).session) session

/-- The state of a session after a run is the one its statements ended in. -/
theorem runStatementsWith_state (session : Session) (rules : Rules) (host : Host) (n : Nat)
    (limit : Option Nat) (statements : List Stmt) :
    (session.runStatementsWith rules host n limit statements).session.state =
      { stateAfter (execProgramWith rules host n statements
          { session.state with output := { limit } }) with output := {} } := by
  unfold Session.runStatementsWith
  dsimp only
  split
  · rename_i heq
    rw [heq]
    rfl
  · rename_i heq
    rw [heq]
    rfl

/-- A run follows its session, whether it was rejected, completed or halted. -/
theorem runWith_follows (nested : Bool) (host : Host) {session : Session}
    (h : session.state.Sound anyToken) (n : Nat) (limit : Option Nat) (source : String) :
    session.state.Follows nested
      (session.runWith (.nesting nested) host n limit source).session.state ∧
    (session.runWith (.nesting nested) host n limit source).session.state.Sound anyToken := by
  unfold Session.runWith
  dsimp only
  split
  · let start : State := { session.state with output := { limit } }
    have hstart : start.Sound anyToken := h.of_same rfl rfl
    have hmatches : List.Forall₂ (Stmt.Matches (.only anyToken) .top)
        (Program.ofSource source).statements (Program.ofSource source).statements :=
      List.forall₂_same.2 fun s _ => (s.every_anyToken .top).matches_self
    have htop : (soundness anyToken nested host).Allows start .top :=
      ⟨fun hf => absurd hf Bool.false_ne_true, fun hf => absurd hf Bool.false_ne_true⟩
    have hrun := (soundness anyToken nested host).execProgram_related n hmatches htop hstart
    obtain ⟨hfollows, hsound⟩ := hrun.stateAfter
    rw [runStatementsWith_state]
    have hbegin : session.state.Follows nested start := .of_same rfl rfl rfl rfl
    exact ⟨(hbegin.trans hfollows).trans (.of_same rfl rfl rfl rfl), hsound.of_same rfl rfl⟩
  · exact ⟨.refl _, h⟩

/-- Between runs the machine is sound, in the global scope and at depth zero. -/
theorem after_idle (host : Host) (inputs : List Session.Input) :
    let state := (Session.fresh.after .standard host inputs).state
    state.Sound anyToken ∧ state.current = ScopeStore.globalId ∧ state.loopDepth = 0 ∧
      state.callDepth = 0 := by
  induction inputs using List.reverseRecOn with
  | nil => exact ⟨fresh_sound anyToken, rfl, rfl, rfl⟩
  | append_singleton inputs input ih =>
    obtain ⟨hsound, hcurrent, hloop, hcall⟩ := ih
    unfold Session.after
    -- the last run follows the session before it
    rw [List.foldl_concat, ← Rules.nesting_true]
    rw [Session.after, ← Rules.nesting_true] at hsound hcurrent hloop hcall
    obtain ⟨hfollows, hsound'⟩ :=
      runWith_follows true host hsound input.budget input.limit input.source
    exact ⟨hsound', hfollows.restores.current.trans hcurrent,
      hfollows.restores.loopDepth.trans hloop, hfollows.restores.callDepth.trans hcall⟩

/-- Where nothing is captured anew, nothing is added for good. -/
theorem State.Restored.size_eq_of_captured {s s' : State} (h : s.Restored s')
    (hcaptured : ∀ i, s'.store.Captured i → s.store.Captured i) :
    s'.store.size = s.store.size := by
  rcases h.size_eq with heq | ⟨top, htop, hcap⟩
  · exact heq
  · have hheld : s'.store.size - 1 < s.store.size := (hcaptured _ ⟨top, htop, hcap⟩).lt_size
    have hpos : s'.store.size - 1 < s'.store.size := ScopeStore.lt_size htop
    have hle := h.keeps.size_le
    omega

/-! ## The theorem -/

/-- **Every way out restores the machine.** From every reachable state, a statement, an expression
or a call leaves the current scope and both depths as they were, keeps every scope that was held,
has released what it added, and has grown the store only under a captured top scope. So between the
runs of a session the machine is idle in the global scope; and a run that would be the same if
functions could not be declared outside of the global scope leaves no scope behind. -/
theorem reachable_restored (host : Host) :
    (∀ s, Reachable host s →
      (∀ n statement, s.Restored (stateAfter (exec host n statement s))) ∧
      (∀ n e, s.Restored (stateAfter (eval host n e s))) ∧
      (∀ n f arguments paren, (Value.function f).Held s.store →
        (∀ v ∈ arguments, v.Held s.store) →
        s.Restored (stateAfter (call host n f arguments paren s)))) ∧
    (∀ inputs, let session := Session.fresh.after .standard host inputs
      session.state.current = ScopeStore.globalId ∧ session.state.loopDepth = 0 ∧
      session.state.callDepth = 0 ∧
      ∀ n limit source,
        session.run host n limit source =
          session.runWith (.nesting false) host n limit source →
        (session.run host n limit source).session.state.store.size =
          session.state.store.size) := by
  have hrestored : ∀ {α : Type} {s : State} {Q : State → α → Prop}
      {r : EStateM.Result Halt State α},
      EndsSound anyToken true s Q r → s.Restored (stateAfter r) := by
    intro α s Q r hr
    obtain ⟨hfollows, hsound⟩ := hr.stateAfter
    exact hfollows.restores.restored hsound.store.top
  refine ⟨?_, ?_⟩
  · intro s hs
    refine ⟨?_, ?_, ?_⟩
    · intro n statement
      exact hrestored (exec_endsSound hs.sound n (statement.every_anyToken .top))
    · intro n e
      exact hrestored (eval_endsSound hs.sound n e.every_anyToken)
    · intro n f arguments paren hf harguments
      exact hrestored (call_endsSound hs.sound n paren hf harguments)
  · intro inputs
    obtain ⟨hsound, hcurrent, hloop, hcall⟩ := after_idle host inputs
    refine ⟨hcurrent, hloop, hcall, ?_⟩
    -- where functions are declared in the global scope only, no scope is captured anew
    intro n limit source heq
    obtain ⟨hfollows, hsound'⟩ := runWith_follows false host hsound n limit source
    rw [heq]
    exact (hfollows.restores.restored hsound'.store.top).size_eq_of_captured
      (hfollows.captured rfl)

/-- A host whose clock stands still and whose functions give back `nil`. -/
def idleHost : Host :=
  ⟨fun _ => 0, fun _ _ => .yield .nil⟩

/-- A function of the global scope that is called from a block. -/
def calledFromBlock : String :=
  "fun f(x) { return x; } { f(nil); }"

/-- The block and the call open a scope each, the run completes, and no scope is left behind. -/
theorem reachable_restored_calledFromBlock :
    ∀ host, let run := Session.fresh.run host 10 none calledFromBlock
      run = Session.fresh.runWith (.nesting false) host 10 none calledFromBlock ∧
        run.ending = .completed ∧ run.session.state.store.size = 1 := by
  intro host
  have hsame : Session.fresh.run host 10 none calledFromBlock =
      Session.fresh.runWith (.nesting false) host 10 none calledFromBlock := by
    cbv
  have hending : (Session.fresh.run host 10 none calledFromBlock).ending = .completed := by
    cbv
  obtain ⟨-, -, -, hsize⟩ := (reachable_restored host).2 []
  exact ⟨hsame, hending, hsize 10 none calledFromBlock hsame⟩

end GradedScript
