import GradedScript.Proofs.Machine.Restoration

/-!
# Relations the machine respects

A `Congruence` relates steps, given how many declared functions are running when they begin. It is
closed under sequencing and under the ways into blocks, loops and function bodies; a step is related
to itself if it is quiet, which most primitive steps are, or writes a line. Then one level of the
machine is related to another if what they are built from is (`Congruence.evalNode_related` and so
on), whatever the values and the state, and with functions of the host as well. The two may have
different rules, if these are related at names.
-/

namespace GradedScript

open Exec

/-! ## Quiet steps

Most primitive steps take no notice of the output and end in the scope and at the depths they began
in. -/

/-- A state in the same scope and at the same depths as another. -/
structure State.Returns (s s' : State) : Prop where
  current : s'.current = s.current
  loopDepth : s'.loopDepth = s.loopDepth
  callDepth : s'.callDepth = s.callDepth

theorem State.Returns.refl (s : State) : s.Returns s :=
  ⟨rfl, rfl, rfl⟩

theorem State.Returns.trans {s s' s'' : State} (h : s.Returns s') (h' : s'.Returns s'') :
    s.Returns s'' :=
  ⟨h'.current.trans h.current, h'.loopDepth.trans h.loopDepth, h'.callDepth.trans h.callDepth⟩

namespace Exec

variable {α β : Type}

/-- The same result in another state. -/
def inState (f : State → State) : EStateM.Result Halt State α → EStateM.Result Halt State α
  | .ok a s => .ok a (f s)
  | .error halt s => .error halt (f s)

/-- A step that takes no notice of the output. -/
def Blind (x : Exec α) : Prop :=
  ∀ (s : State) output, x { s with output } = inState (fun s' => { s' with output }) (x s)

/-- A step that takes no notice of the output and stays where it is. -/
structure Quiet (x : Exec α) : Prop where
  blind : Blind x
  returns : ∀ s : State, s.Returns (stateAfter (x s))

theorem stateAfter_ok (a : α) (s : State) : stateAfter (.ok a s) = s :=
  rfl

theorem stateAfter_inState (f : State → State) (r : EStateM.Result Halt State α) :
    stateAfter (inState f r) = f (stateAfter r) := by
  cases r <;> rfl

/-- A step that can be left keeps its result. -/
theorem thenLeave_eq {x : Exec α} {leave : Exec Unit} {s s' : State}
    (h : leave (stateAfter (x s)) = .ok () s') :
    thenLeave x leave s = inState (fun _ => s') (x s) := by
  unfold thenLeave
  revert h
  cases x s with
  | ok a s₁ =>
    intro h
    have h : leave s₁ = .ok () s' := h
    simp only [h, inState]
  | error halt s₁ =>
    intro h
    have h : leave s₁ = .ok () s' := h
    simp only [h, inState]

/-- A blind step leaves the output as it is. -/
theorem Blind.output_eq {x : Exec α} (h : Blind x) (s : State) :
    (stateAfter (x s)).output = s.output := by
  have hsame := congrArg (fun r => (stateAfter r).output) (h s s.output)
  simp only [stateAfter_inState] at hsame
  exact hsame

theorem Blind.bind {x : Exec α} {f : α → Exec β} (hx : Blind x) (hf : ∀ a, Blind (f a)) :
    Blind (x >>= f) := by
  intro s output
  show EStateM.bind x f { s with output } = inState _ (EStateM.bind x f s)
  simp only [EStateM.bind, hx s output]
  cases x s with
  | ok a s' => exact hf a s' output
  | error halt s' => rfl

/-- Two steps come back if each of them does. -/
theorem returns_bind {x : Exec α} {f : α → Exec β} {s : State} (hx : s.Returns (stateAfter (x s)))
    (hf : ∀ a s', x s = .ok a s' → s'.Returns (stateAfter (f a s'))) :
    s.Returns (stateAfter ((x >>= f) s)) := by
  show s.Returns (stateAfter (EStateM.bind x f s))
  unfold EStateM.bind
  cases hres : x s with
  | ok a s' =>
    rw [hres] at hx
    exact hx.trans (hf a s' hres)
  | error halt s' =>
    rw [hres] at hx
    exact hx

theorem Quiet.bind {x : Exec α} {f : α → Exec β} (hx : Quiet x) (hf : ∀ a, Quiet (f a)) :
    Quiet (x >>= f) :=
  ⟨hx.blind.bind fun a => (hf a).blind,
    fun s => returns_bind (hx.returns s) fun a s' _ => (hf a).returns s'⟩

theorem quiet_pure (a : α) : Quiet (pure a : Exec α) :=
  ⟨fun _ _ => rfl, fun s => .refl s⟩

theorem quiet_failAt (token : Token) (fault : RuntimeFault) :
    Quiet (failAt token fault : Exec α) :=
  ⟨fun _ _ => rfl, fun s => .refl s⟩

theorem quiet_getStuck (how : Stuck) : Quiet (getStuck how : Exec α) :=
  ⟨fun _ _ => rfl, fun s => .refl s⟩

theorem quiet_spent : Quiet (fun s => .error .outOfBudget s : Exec α) :=
  ⟨fun _ _ => rfl, fun s => .refl s⟩

theorem quiet_newIdentity : Quiet newIdentity :=
  ⟨fun _ _ => rfl, fun _ => ⟨rfl, rfl, rfl⟩⟩

theorem quiet_countReading : Quiet countReading :=
  ⟨fun _ _ => rfl, fun _ => ⟨rfl, rfl, rfl⟩⟩

theorem quiet_global? (name : String) : Quiet (global? name) :=
  ⟨fun _ _ => rfl, fun s => .refl s⟩

theorem quiet_readName (name : Token) : Quiet (readName name) := by
  refine ⟨?_, ?_⟩
  · intro s output
    unfold readName
    dsimp only
    split <;> rfl
  · intro s
    unfold readName
    split <;> exact .refl s

theorem quiet_assignName (name : Token) (value : Value) : Quiet (assignName name value) := by
  refine ⟨?_, ?_⟩
  · intro s output
    unfold assignName
    dsimp only
    split <;> rfl
  · intro s
    unfold assignName
    split <;> exact ⟨rfl, rfl, rfl⟩

theorem quiet_defineName (name : String) (value : Value) : Quiet (defineName name value) := by
  refine ⟨?_, ?_⟩
  · intro s output
    unfold defineName defineIn
    dsimp only
    split <;> rfl
  · intro s
    unfold defineName defineIn
    split <;> exact ⟨rfl, rfl, rfl⟩

theorem quiet_captureScope : Quiet captureScope := by
  refine ⟨?_, ?_⟩
  · intro s output
    unfold captureScope
    dsimp only
    split <;> rfl
  · intro s
    unfold captureScope
    split <;> exact ⟨rfl, rfl, rfl⟩

theorem quiet_declareFunction (name : Token) (params : List Token) (body : List Stmt) :
    Quiet (declareFunction name params body) := by
  refine quiet_captureScope.bind fun _ => ?_
  -- the rest reads the current scope, which a change of the output leaves alone
  have hrest : ∀ closure, Quiet (do
      let identity ← newIdentity
      defineName name.lexeme (.function ⟨identity, .script name params body closure⟩)) :=
    fun closure => quiet_newIdentity.bind fun identity => quiet_defineName _ _
  exact ⟨fun s output => (hrest s.current).blind s output,
    fun s => (hrest s.current).returns s⟩

theorem quiet_onNumbers (t : Token) (x y : Value) (f : Float → Float → Value) :
    Quiet (onNumbers t x y f) := by
  unfold onNumbers
  split
  · exact quiet_pure _
  · exact quiet_failAt _ _

theorem quiet_sum (t : Token) (x y : Value) : Quiet (sum t x y) := by
  unfold sum
  split
  · exact quiet_pure _
  · exact quiet_pure _
  · exact quiet_failAt _ _

theorem quiet_unaryOperator (t : Token) (x : Value) : Quiet (unaryOperator t x) := by
  unfold unaryOperator
  split
  · split
    · exact quiet_pure _
    · exact quiet_failAt _ _
  · exact quiet_pure _
  · exact quiet_getStuck _

theorem quiet_binaryOperator (t : Token) (x y : Value) : Quiet (binaryOperator t x y) := by
  unfold binaryOperator
  split
  case h_4 => exact quiet_sum _ _ _
  case h_9 => exact quiet_pure _
  case h_10 => exact quiet_pure _
  case h_11 => exact quiet_getStuck _
  all_goals exact quiet_onNumbers _ _ _ _

theorem quiet_readClock (host : Host) (paren : Token) : Quiet (readClock host paren) := by
  refine quiet_countReading.bind fun reads => ?_
  dsimp only
  split
  · exact quiet_failAt _ _
  · exact quiet_pure _

theorem quiet_makeTestCase (paren : Token) (arguments : List Value) :
    Quiet (makeTestCase paren arguments) := by
  unfold makeTestCase
  split
  · split
    · exact quiet_newIdentity.bind fun _ => quiet_pure _
    · exact quiet_failAt _ _
  · exact quiet_failAt _ _

end Exec

/-! ## Passages

Blocks, loops and bodies of functions have in common a way in and a way out that is taken however
the part inside ends. A relation need be closed under these only, not under each of the three. -/

theorem Exec.blind_leaveLoop : Blind leaveLoop := by
  intro s output
  unfold leaveLoop
  dsimp only
  split <;> rfl

theorem Exec.blind_leaveCall (loopDepth : Nat) : Blind (leaveCall loopDepth) := by
  intro s output
  unfold leaveCall
  dsimp only
  split <;> rfl

/-- Of the rules only the one for leaving scopes matters to a block, -/
theorem Exec.insideBlock_congr {rules rules' : Rules} (h : rules.leaveScope = rules'.leaveScope)
    (x : Exec Flow) : insideBlock rules x = insideBlock rules' x := by
  unfold insideBlock
  rw [h]

/-- and to the body of a function. -/
theorem Exec.insideBody_congr {rules rules' : Rules} (h : rules.leaveScope = rules'.leaveScope)
    (closure : ScopeId) (params : List Token) (arguments : List Value) (x : Exec Flow) :
    insideBody rules closure params arguments x =
      insideBody rules' closure params arguments x := by
  unfold insideBody
  rw [h]

/-- A way into a part of a program and out of it again. It takes no notice of the output; a step
that stays where it is inside comes back out to where the way began. -/
structure Passage where
  enter : State → State
  leave : State → Exec Unit
  enter_output : ∀ s output, enter { s with output } = { enter s with output }
  leave_output : ∀ s output, leave { s with output } = leave s
  blind : ∀ s, Blind (leave s)
  leadsBack : ∀ s s₁, (enter s).Returns s₁ → ∃ s₂, leave s s₁ = .ok () s₂ ∧ s.Returns s₂

namespace Passage

/-- A step with the way in before it and the way out after it, however it ended. -/
def step {α : Type} (p : Passage) (x : Exec α) : Exec α := fun s =>
  thenLeave x (p.leave s) (p.enter s)

/-- The way into a block. -/
def block : Passage where
  enter s := { s with store := s.store.push s.current, current := s.store.size }
  leave s := leaveScope s.current s.store.size
  enter_output _ _ := rfl
  leave_output _ _ := rfl
  blind _ _ _ := rfl
  leadsBack _ _ h := ⟨_, rfl, rfl, h.loopDepth, h.callDepth⟩

/-- The way into a loop. -/
def loop : Passage where
  enter s := { s with loopDepth := s.loopDepth + 1 }
  leave _ := leaveLoop
  enter_output _ _ := rfl
  leave_output _ _ := rfl
  blind _ := blind_leaveLoop
  leadsBack _ _ h := ⟨_, leaveLoop_of_succ h.loopDepth, h.current, rfl, h.callDepth⟩

/-- The way into the body of a declared function. -/
def body (closure : ScopeId) (params : List Token) (arguments : List Value) : Passage where
  enter s :=
    { s with
      store := (s.store.push closure).bindAll s.store.size params arguments
      current := s.store.size
      loopDepth := 0
      callDepth := s.callDepth + 1 }
  leave s := do
    leaveScope s.current s.store.size
    leaveCall s.loopDepth
  enter_output _ _ := rfl
  leave_output _ _ := rfl
  blind s := Blind.bind (fun _ _ => rfl) fun _ => blind_leaveCall s.loopDepth
  leadsBack s s₁ h :=
    let left : State := { s₁ with current := s.current, store := s₁.store.release s.store.size }
    ⟨_, leaveCall_of_succ (s := left) h.callDepth s.loopDepth, rfl, rfl, rfl⟩

theorem block_step (x : Exec Flow) : insideBlock .standard x = block.step x :=
  funext (insideBlock_apply .standard x)

theorem loop_step (x : Exec Flow) : insideLoop x = loop.step x :=
  rfl

theorem body_step (closure : ScopeId) (params : List Token) (arguments : List Value)
    (x : Exec Flow) :
    insideBody .standard closure params arguments x = (body closure params arguments).step x :=
  funext (insideBody_apply (fun _ _ _ => ⟨_, rfl⟩) closure params arguments x)

/-- The output is the same inside. -/
theorem output_enter (p : Passage) (s : State) : (p.enter s).output = s.output :=
  (congrArg State.output (p.enter_output s s.output) :)

/-- The way out writes nothing. -/
theorem output_leave (p : Passage) {s s₁ s₂ : State} (h : p.leave s s₁ = .ok () s₂) :
    s₂.output = s₁.output := by
  have hsame := (p.blind s).output_eq s₁
  rwa [h] at hsame

/-- What stays where it is inside comes back out. -/
theorem returns_step (p : Passage) {α : Type} {x : Exec α} {s : State}
    (h : (p.enter s).Returns (stateAfter (x (p.enter s)))) :
    s.Returns (stateAfter (p.step x s)) := by
  obtain ⟨s₂, hs₂, hreturns⟩ := p.leadsBack s _ h
  rw [step, thenLeave_eq hs₂, stateAfter_inState]
  exact hreturns

end Passage

/-! ## Congruences -/

/-- A relation on the steps that begin when so many declared functions are running, which the parts
of the machine respect. -/
structure Congruence where
  Rel : {α : Type} → Nat → Exec α → Exec α → Prop
  quiet : ∀ {α k} {x : Exec α}, Quiet x → Rel k x x
  write : ∀ {k} (text), Rel k (writeLine text) (writeLine text)
  bind : ∀ {α β k} {x y : Exec α} {f g : α → Exec β}, Rel k x y → (∀ a, Rel k (f a) (g a)) →
    Rel k (x >>= f) (y >>= g)
  /-- a step that depends on the depths -/
  look : ∀ {α k} {f g : Nat → Nat → Exec α}, (∀ loops, Rel k (f loops k) (g loops k)) →
    Rel k (fun s => f s.loopDepth s.callDepth s) (fun s => g s.loopDepth s.callDepth s)
  /-- a step with a way in before it and the way out after it -/
  inside : ∀ {α k k'} {x y : Exec α} (p : Passage),
    (∀ s, s.callDepth = k → (p.enter s).callDepth = k') → Rel k' x y → Rel k (p.step x) (p.step y)

namespace Congruence

variable (C : Congruence)

section

variable (k : Nat)

/-- Evaluators that are related on every expression. -/
def EvalRelated (eval eval' : Expr → Exec Value) : Prop :=
  ∀ e, C.Rel k (eval e) (eval' e)

/-- Executors that are related on every statement. -/
def ExecRelated (exec exec' : Stmt → Exec Flow) : Prop :=
  ∀ statement, C.Rel k (exec statement) (exec' statement)

/-- Ways to call that are related on every function. -/
def CallRelated (call call' : Caller) : Prop :=
  ∀ f arguments paren, C.Rel k (call f arguments paren) (call' f arguments paren)

end

/-- Rules that are related at names and leave scopes as usual. -/
structure Respects (rules rules' : Rules) : Prop where
  read : ∀ k name, C.Rel k (rules.readName name) (rules'.readName name)
  assign : ∀ k name value, C.Rel k (rules.assignName name value) (rules'.assignName name value)
  declareVariable : ∀ k name value,
    C.Rel k (rules.declareVariable name value) (rules'.declareVariable name value)
  declareFunction : ∀ k name params body,
    C.Rel k (rules.declareFunction name params body) (rules'.declareFunction name params body)
  leaves : rules.leaveScope = Rules.standard.leaveScope
  leaves' : rules'.leaveScope = Rules.standard.leaveScope

/-- The rules of the language are quiet at names. -/
theorem respects_standard : C.Respects .standard .standard where
  read _ name := C.quiet (quiet_readName name)
  assign _ name value := C.quiet (quiet_assignName name value)
  declareVariable _ name value := C.quiet (quiet_defineName name.lexeme value)
  declareFunction _ name params body := C.quiet (quiet_declareFunction name params body)
  leaves := rfl
  leaves' := rfl

variable {k : Nat}

theorem pure {α : Type} (a : α) : C.Rel k (pure a) (pure a) :=
  C.quiet (quiet_pure a)

theorem fail {α : Type} (token : Token) (fault : RuntimeFault) :
    C.Rel k (failAt token fault : Exec α) (failAt token fault) :=
  C.quiet (quiet_failAt token fault)

/-- A step that fails at some depths. -/
theorem outside {α : Type} (p : Nat → Nat → Prop) [∀ loops calls, Decidable (p loops calls)]
    (token : Token) (fault : RuntimeFault) {x y : Exec α} (h : C.Rel k x y) :
    C.Rel k (fun s => (if p s.loopDepth s.callDepth then failAt token fault else x) s)
      (fun s => (if p s.loopDepth s.callDepth then failAt token fault else y) s) := by
  refine C.look (f := fun loops calls => if p loops calls then failAt token fault else x)
    (g := fun loops calls => if p loops calls then failAt token fault else y) fun loops => ?_
  split
  · exact C.fail token fault
  · exact h

section

variable {rules rules' : Rules} {paren : Token}
variable {eval eval' : Expr → Exec Value} {exec exec' : Stmt → Exec Flow} {call call' : Caller}

/-! ### Built-in functions

Whatever a built-in function does is quiet, or writes a line, or is a call. -/

theorem perform_related (hcall : C.CallRelated k call call') (action : HostAction) :
    C.Rel k (perform call paren action) (perform call' paren action) := by
  induction action with
  | yield value => exact C.pure value
  | raise message => exact C.fail _ _
  | write line next ih => exact C.bind (C.write line) fun _ => ih
  | readGlobal name next ih => exact C.bind (C.quiet (quiet_global? name)) ih
  | call f arguments next ih => exact C.bind (hcall f arguments paren) ih

theorem callByName_related (hcall : C.CallRelated k call call') (name : String)
    (arguments : List Value) :
    C.Rel k (callByName call paren name arguments) (callByName call' paren name arguments) := by
  refine C.bind (C.quiet (quiet_global? name)) fun found => ?_
  split
  · split
    · split
      · exact hcall _ _ _
      · exact C.fail _ _
    · exact hcall _ _ _
  · exact C.fail _ _

theorem runEach_related (hcall : C.CallRelated k call call') (cases : List Value)
    (passed total : Nat) :
    C.Rel k (runEach call paren cases passed total) (runEach call' paren cases passed total) := by
  induction cases generalizing passed total with
  | nil => exact C.pure _
  | cons v cases ih =>
    cases v with
    | testCase i name arguments expected =>
      refine C.bind (C.callByName_related hcall name arguments) fun result => ?_
      split
      · exact C.bind (C.write _) fun _ => ih _ _
      · exact C.bind (C.write _) fun _ => ih _ _
    | _ => exact C.bind (C.write _) fun _ => ih _ _

theorem callNative_related (host : Host) (hcall : C.CallRelated k call call') (native : Native)
    (arguments : List Value) :
    C.Rel k (callNative host call paren native arguments)
      (callNative host call' paren native arguments) := by
  cases native with
  | clock => exact C.quiet (quiet_readClock host paren)
  | testCase => exact C.quiet (quiet_makeTestCase paren arguments)
  | runTests =>
    refine C.bind (C.runEach_related hcall arguments 0 0) fun counts => ?_
    exact C.bind (C.write _) fun _ => C.bind (C.write _) fun _ => C.pure _
  | host key => exact C.perform_related hcall _

/-! ### Expressions and statements -/

theorem evalEach_related (heval : C.EvalRelated k eval eval') (es : List Expr) :
    C.Rel k (evalEach eval es) (evalEach eval' es) := by
  induction es with
  | nil => exact C.pure []
  | cons e es ih => exact C.bind (heval e) fun _ => C.bind ih fun _ => C.pure _

theorem callValue_related (hcall : C.CallRelated k call call') (callee : Value)
    (arguments : List Value) :
    C.Rel k (callValue call callee arguments paren) (callValue call' callee arguments paren) := by
  unfold callValue
  split
  · split
    · split
      · exact hcall _ _ _
      · exact C.fail _ _
    · exact hcall _ _ _
  · exact C.fail _ _

/-- One level of evaluation is related if the levels below are. -/
theorem evalNode_related (hrules : C.Respects rules rules') (heval : C.EvalRelated k eval eval')
    (hcall : C.CallRelated k call call') :
    C.EvalRelated k (evalNode rules eval call) (evalNode rules' eval' call') := by
  intro e
  cases e with
  | literal value line => exact C.pure _
  | grouping inner => exact heval inner
  | unary operator right =>
    exact C.bind (heval right) fun x => C.quiet (quiet_unaryOperator operator x)
  | binary left operator right =>
    exact C.bind (heval left) fun x => C.bind (heval right) fun y =>
      C.quiet (quiet_binaryOperator operator x y)
  | logical left operator right =>
    refine C.bind (heval left) fun x => ?_
    split
    · exact C.pure x
    · exact heval right
  | var name => exact hrules.read k name
  | assign name value =>
    exact C.bind (heval value) fun x => C.bind (hrules.assign k name x) fun _ => C.pure x
  | call callee paren arguments =>
    exact C.bind (heval callee) fun f => C.bind (C.evalEach_related heval arguments) fun xs =>
      C.callValue_related hcall f xs

theorem execEach_related (hexec : C.ExecRelated k exec exec') (statements : List Stmt) :
    C.Rel k (execEach exec statements) (execEach exec' statements) := by
  induction statements with
  | nil => exact C.pure _
  | cons statement statements ih =>
    refine C.bind (hexec statement) fun flow => ?_
    cases flow with
    | normal => exact ih
    | broke => exact C.pure _
    | returned value => exact C.pure _

theorem repeatWhile_related {x x' : Exec Value} {y y' : Exec Flow} (hx : C.Rel k x x')
    (hy : C.Rel k y y') (n : Nat) : C.Rel k (repeatWhile x y n) (repeatWhile x' y' n) := by
  induction n with
  | zero => exact C.quiet quiet_spent
  | succ n ih =>
    refine C.bind hx fun value => ?_
    split
    · refine C.bind hy fun flow => ?_
      cases flow with
      | normal => exact ih
      | broke => exact C.pure _
      | returned value => exact C.pure _
    · exact C.pure _

/-- One level of execution is related if the levels below are. -/
theorem execNode_related (hrules : C.Respects rules rules') (heval : C.EvalRelated k eval eval')
    (hexec : C.ExecRelated k exec exec') (n : Nat) :
    C.ExecRelated k (execNode rules eval exec n) (execNode rules' eval' exec' n) := by
  intro statement
  cases statement with
  | expression e => exact C.bind (heval e) fun _ => C.pure _
  | print e =>
    exact C.bind (heval e) fun value => C.bind (C.write value.text) fun _ => C.pure _
  | varDecl name initializer =>
    have hdeclare : ∀ value, C.Rel k
        (do rules.declareVariable name value; return Flow.normal)
        (do rules'.declareVariable name value; return Flow.normal) :=
      fun value => C.bind (hrules.declareVariable k name value) fun _ => C.pure _
    cases initializer with
    | none => exact C.bind (C.pure _) hdeclare
    | some e => exact C.bind (heval e) hdeclare
  | block statements =>
    simp only [execNode, insideBlock_congr hrules.leaves, insideBlock_congr hrules.leaves',
      Passage.block_step]
    exact C.inside .block (fun _ hk => hk) (C.execEach_related hexec statements)
  | ifElse condition thenBranch elseBranch =>
    refine C.bind (heval condition) fun value => ?_
    split
    · exact hexec thenBranch
    · cases elseBranch with
      | none => exact C.pure _
      | some elseBranch => exact hexec elseBranch
  | whileLoop condition body =>
    simp only [execNode, Passage.loop_step]
    exact C.inside .loop (fun _ hk => hk) (C.repeatWhile_related (heval condition) (hexec body) n)
  | breakOut keyword =>
    exact C.outside (fun loops _ => loops = 0) _ _ (C.pure _)
  | funDecl name params body =>
    exact C.bind (hrules.declareFunction k name params body) fun _ => C.pure _
  | giveBack keyword value =>
    cases value with
    | none => exact C.outside (fun _ calls => calls = 0) _ _ (C.pure _)
    | some e =>
      exact C.outside (fun _ calls => calls = 0) _ _ (C.bind (heval e) fun _ => C.pure _)

/-- A function body is related if it is one call deeper. -/
theorem insideBody_related (hrules : C.Respects rules rules') (closure : ScopeId)
    (params : List Token) (arguments : List Value) {x y : Exec Flow} (h : C.Rel (k + 1) x y) :
    C.Rel k (insideBody rules closure params arguments x)
      (insideBody rules' closure params arguments y) := by
  rw [insideBody_congr hrules.leaves, insideBody_congr hrules.leaves', Passage.body_step,
    Passage.body_step]
  exact C.inside _ (fun _ hk => congrArg (· + 1) hk) h

/-- One level of calling is related if the levels below are; the body of a declared function runs
one call deeper. -/
theorem callNode_related (hrules : C.Respects rules rules') (host : Host)
    (hexec : C.ExecRelated (k + 1) exec exec') (hcall : C.CallRelated k call call') :
    C.CallRelated k (callNode rules host exec call) (callNode rules' host exec' call') := by
  rintro ⟨i, _ | _⟩ arguments paren
  case script name params body closure =>
    refine C.outside (fun _ calls => maxCallDepth ≤ calls) paren .stackOverflow ?_
    have hbody := C.execEach_related hexec body
    exact C.bind (C.insideBody_related hrules closure params arguments hbody) fun _ => C.pure _
  case native name arity native => exact C.callNative_related host hcall native arguments

end

/-! ### The machine -/

/-- **The machines of related rules are related in every step**, whatever the congruence. -/
theorem machine_related {rules rules' : Rules} (hrules : C.Respects rules rules') (host : Host)
    (n k : Nat) :
    C.EvalRelated k (evalWith rules host n) (evalWith rules' host n) ∧
      C.ExecRelated k (execWith rules host n) (execWith rules' host n) ∧
      C.CallRelated k (callWith rules host n) (callWith rules' host n) := by
  induction n generalizing k with
  | zero =>
    exact ⟨fun _ => C.quiet quiet_spent, fun _ => C.quiet quiet_spent,
      fun _ _ _ => C.quiet quiet_spent⟩
  | succ n ih =>
    obtain ⟨heval, hexec, hcall⟩ := ih k
    obtain ⟨-, hbody, -⟩ := ih (k + 1)
    exact ⟨C.evalNode_related hrules heval hcall, C.execNode_related hrules heval hexec n,
      C.callNode_related hrules host hbody hcall⟩

/-- Executing a program is related under related rules. -/
theorem execProgram_related {rules rules' : Rules} (hrules : C.Respects rules rules') (host : Host)
    (n k : Nat) (statements : List Stmt) :
    C.Rel k (execProgramWith rules host n statements)
      (execProgramWith rules' host n statements) := by
  induction statements with
  | nil => exact C.pure ()
  | cons statement statements ih =>
    exact C.bind ((C.machine_related hrules host n k).2.1 statement) fun _ => ih

end Congruence

end GradedScript
