import GradedScript.Proofs.Machine.CallDepth

/-!
# Runs without loops settle

A program without loops ends: there is a budget from which on its run is the same and not short of
budget (`calls_bound_runs`). Trees are finite, but functions come out of the state, and a built-in
function calls others without being counted. What ends the run is the bound on running functions,
and below it that a test case holds smaller ones: a call at some depth runs the bodies of functions
one call deeper, or the test cases among its arguments at the same depth.

How large a budget must be is not computed. A step settles when large budgets make no difference,
and that is closed under everything the machine does, since a level of the machine is built from the
levels below in the same way for every budget.
-/

namespace GradedScript

open Exec

/-! ## Trees and values without loops

A loop can only come from the tree of a function or of the program. So states are tame if the
functions they bind have none, and a program without loops keeps them tame. -/

mutual

/-- Whether a statement has no loop in it, nor in the functions it declares. -/
def Stmt.loopFree : Stmt → Bool
  | .block statements => Stmt.allLoopFree statements
  | .ifElse _ thenBranch elseBranch => thenBranch.loopFree && Stmt.optionLoopFree elseBranch
  | .whileLoop _ _ => false
  | .funDecl _ _ body => Stmt.allLoopFree body
  | .expression _ | .print _ | .varDecl _ _ | .breakOut _ | .giveBack _ _ => true

/-- Whether statements have no loop in them. -/
def Stmt.allLoopFree : List Stmt → Bool
  | [] => true
  | statement :: statements => statement.loopFree && Stmt.allLoopFree statements

/-- Whether a statement has no loop in it, if there is one. -/
def Stmt.optionLoopFree : Option Stmt → Bool
  | none => true
  | some statement => statement.loopFree

end

theorem Stmt.loopFree_of_mem {statements : List Stmt} (h : Stmt.allLoopFree statements = true)
    {statement : Stmt} (hmem : statement ∈ statements) : statement.loopFree = true := by
  induction statements with
  | nil => cases hmem
  | cons first rest ih =>
    rw [Stmt.allLoopFree, Bool.and_eq_true] at h
    rcases List.mem_cons.1 hmem with rfl | hrest
    · exact h.1
    · exact ih h.2 hrest

/-- The functions in a value are built in or have no loop in them. -/
inductive Value.Tame : Value → Prop
  | nil : Tame .nil
  | bool (value) : Tame (.bool value)
  | number (value) : Tame (.number value)
  | string (value) : Tame (.string value)
  | script {i name params body closure} (hbody : Stmt.allLoopFree body = true) :
      Tame (.function ⟨i, .script name params body closure⟩)
  | native {i name arity native} (hnative : native.isInstalled = true) :
      Tame (.function ⟨i, .native name arity native⟩)
  | testCase {i name arguments expected} (harguments : ∀ v ∈ arguments, Tame v) :
      Tame (.testCase i name arguments expected)

/-- A way to end whose value is tame. -/
def Flow.Tame : Flow → Prop
  | .returned value => value.Tame
  | .normal | .broke => True

/-- Every value bound in a state is tame. -/
def State.Tame (s : State) : Prop :=
  s.store.AllBound Value.Tame

theorem Flow.Tame.result {flow : Flow} (h : flow.Tame) : flow.result.Tame := by
  cases flow with
  | returned value => exact h
  | normal => exact .nil
  | broke => exact .nil

theorem Value.tame_ofLiteral (value : Literal) : (Value.ofLiteral value).Tame := by
  cases value <;> constructor

/-! ## Steps that settle

Here a step is a family over budgets, as a level of the machine is. It settles in a state if all
large budgets lead to one and the same result. -/

namespace Exec

variable {α β : Type} {P : α → Prop} {Q : β → Prop} {s : State}

/-- A step that ended with a result of some kind, or halted, but not for want of budget. -/
def Finished (P : α → Prop) : EStateM.Result Halt State α → Prop
  | .ok a _ => P a
  | .error halt _ => halt ≠ .outOfBudget

/-- What a step that began in a state comes to, if its budget is no matter. -/
structure Settled (P : α → Prop) (s : State) (r : EStateM.Result Halt State α) : Prop where
  returns : s.Returns (stateAfter r)
  tame : (stateAfter r).Tame
  finished : Finished P r

theorem Settled.ok {a : α} {s' : State} (hreturns : s.Returns s') (hs' : s'.Tame) (ha : P a) :
    Settled P s (.ok a s') :=
  ⟨hreturns, hs', ha⟩

/-- A fault ends the matter. -/
theorem Settled.fault (hs : s.Tame) (e : RuntimeError) : Settled P s (.error (.fault e) s) :=
  ⟨.refl s, hs, Halt.noConfusion⟩

theorem Settled.stuck (hs : s.Tame) (how : Stuck) : Settled P s (.error (.stuck how) s) :=
  ⟨.refl s, hs, Halt.noConfusion⟩

/-- With every budget that is large enough, a step comes to one and the same. -/
def Settles (P : α → Prop) (x : Nat → Exec α) (s : State) : Prop :=
  ∃ n r, (∀ m, n ≤ m → x m s = r) ∧ Settled P s r

namespace Settles

theorem of_settled {x : Exec α} (h : Settled P s (x s)) : Settles P (fun _ => x) s :=
  ⟨0, x s, fun _ _ => rfl, h⟩

theorem pure {a : α} (hs : s.Tame) (ha : P a) : Settles P (fun _ => Pure.pure a) s :=
  of_settled (.ok (.refl s) hs ha)

theorem fail (hs : s.Tame) (token : Token) (fault : RuntimeFault) :
    Settles P (fun _ => failAt token fault) s :=
  of_settled (.fault hs _)

theorem stuck (hs : s.Tame) (how : Stuck) : Settles P (fun _ => getStuck how) s :=
  of_settled (.stuck hs how)

theorem write (hs : s.Tame) (text : String) :
    Settles (fun _ => True) (fun _ => writeLine text) s := by
  refine of_settled ?_
  unfold writeLine
  split
  · exact .ok ⟨rfl, rfl, rfl⟩ hs trivial
  · exact ⟨⟨rfl, rfl, rfl⟩, hs, Halt.noConfusion⟩

theorem congr {x y : Nat → Exec α} (hxy : ∀ m, x m s = y m s) (h : Settles P y s) :
    Settles P x s := by
  obtain ⟨n, r, hr, hsettled⟩ := h
  exact ⟨n, r, fun m hm => (hxy m).trans (hr m hm), hsettled⟩

/-- The first level does not matter. -/
theorem succ {x : Nat → Exec α} (h : Settles P (fun m => x (m + 1)) s) : Settles P x s := by
  obtain ⟨n, r, hr, hsettled⟩ := h
  refine ⟨n + 1, r, ?_, hsettled⟩
  intro m hm
  obtain ⟨m, rfl⟩ := Nat.exists_eq_add_of_le' (Nat.le_of_add_left_le hm)
  exact hr m (by omega)

theorem bind {x : Nat → Exec α} {f : Nat → α → Exec β} (hx : Settles P x s)
    (hf : ∀ a s', P a → s'.Tame → s.Returns s' → Settles Q (fun m => f m a) s') :
    Settles Q (fun m => x m >>= f m) s := by
  obtain ⟨n, r, hr, hsettled⟩ := hx
  have hbind : ∀ m, (x m >>= f m) s = EStateM.bind (x m) (f m) s := fun _ => rfl
  cases r with
  | error halt s' =>
    refine ⟨n, .error halt s', ?_, hsettled.returns, hsettled.tame, hsettled.finished⟩
    intro m hm
    simp only [hbind, EStateM.bind, hr m hm]
  | ok a s' =>
    obtain ⟨n', r', hr', hsettled'⟩ := hf a s' hsettled.finished hsettled.tame hsettled.returns
    -- the second step begins in one state for all large budgets, so one bound for it is enough
    refine ⟨max n n', r', ?_, hsettled.returns.trans hsettled'.returns, hsettled'.tame,
      hsettled'.finished⟩
    intro m hm
    simp only [hbind, EStateM.bind, hr m (by omega)]
    exact hr' m (by omega)

/-- A step that fails at some depths settles. -/
theorem outside (p : Nat → Nat → Prop) [∀ loops calls, Decidable (p loops calls)] (hs : s.Tame)
    (token : Token) (fault : RuntimeFault) {x : Nat → Exec α} (h : Settles P x s) :
    Settles P (fun m s => (if p s.loopDepth s.callDepth then failAt token fault else x m) s) s := by
  by_cases hp : p s.loopDepth s.callDepth
  · exact .congr (fun m => by rw [if_pos hp]) (.fail hs token fault)
  · exact .congr (fun m => by rw [if_neg hp]) h

/-- A step inside settles, if the way out keeps states tame. -/
theorem inside (p : Passage) {x : Nat → Exec α} (hx : Settles P x (p.enter s))
    (hleave : ∀ s₁ s₂, p.leave s s₁ = .ok () s₂ → s₁.Tame → s₂.Tame) :
    Settles P (fun m => p.step (x m)) s := by
  obtain ⟨n, r, hr, hsettled⟩ := hx
  obtain ⟨s₂, hs₂, hreturns⟩ := p.leadsBack s _ hsettled.returns
  refine ⟨n, inState (fun _ => s₂) r, ?_, ?_, ?_, ?_⟩
  · intro m hm
    have hm := hr m hm
    have hleft : p.leave s (stateAfter (x m (p.enter s))) = .ok () s₂ := by
      rw [hm]
      exact hs₂
    exact (thenLeave_eq hleft).trans (congrArg _ hm)
  · rw [stateAfter_inState]
    exact hreturns
  · rw [stateAfter_inState]
    exact hleave _ s₂ hs₂ hsettled.tame
  · cases r <;> exact hsettled.finished

end Settles

end Exec

/-! ## Names and operators

These do not depend on a budget, so all there is to show is that they keep states tame. -/

section

variable {s : State}

theorem readName_settles (hs : s.Tame) (name : Token) :
    Settles Value.Tame (fun _ => readName name) s := by
  refine .of_settled ?_
  unfold readName ScopeStore.get
  cases hres : s.store.resolve name.lexeme s.current with
  | ok found => exact .ok (.refl s) hs (hs.resolve hres)
  | error absence =>
    cases absence with
    | unbound => exact .fault hs _
    | missing id => exact .stuck hs _

theorem assignName_settles (hs : s.Tame) (name : Token) {value : Value} (hvalue : value.Tame) :
    Settles (fun _ => True) (fun _ => assignName name value) s := by
  refine .of_settled ?_
  unfold assignName
  split
  · exact .ok ⟨rfl, rfl, rfl⟩ (hs.bind _ _ hvalue) trivial
  · exact .fault hs _
  · exact .stuck hs _

theorem defineName_settles (hs : s.Tame) (name : String) {value : Value} (hvalue : value.Tame) :
    Settles (fun _ => True) (fun _ => defineName name value) s := by
  refine .of_settled ?_
  unfold defineName defineIn
  split
  · exact .ok ⟨rfl, rfl, rfl⟩ (hs.bind _ _ hvalue) trivial
  · exact .stuck hs _

theorem captureScope_settles (hs : s.Tame) : Settles (fun _ => True) (fun _ => captureScope) s := by
  refine .of_settled ?_
  unfold captureScope
  split
  · exact .ok ⟨rfl, rfl, rfl⟩ (hs.markOutward _) trivial
  · exact .stuck hs _

theorem newIdentity_settles (hs : s.Tame) : Settles (fun _ => True) (fun _ => newIdentity) s :=
  .of_settled (.ok ⟨rfl, rfl, rfl⟩ hs trivial)

theorem declareFunction_settles (hs : s.Tame) (name : Token) (params : List Token)
    {body : List Stmt} (hbody : Stmt.allLoopFree body = true) :
    Settles (fun _ => True) (fun _ => declareFunction name params body) s := by
  refine .bind (captureScope_settles hs) fun _ s₁ _ hs₁ _ => ?_
  -- the rest makes a function of the scope that is current then
  have hrest : Settles (fun _ => True) (fun _ => do
      let identity ← newIdentity
      defineName name.lexeme (.function ⟨identity, .script name params body s₁.current⟩)) s₁ :=
    .bind (newIdentity_settles hs₁) fun _ _ _ hs₂ _ => defineName_settles hs₂ _ (.script hbody)
  exact .congr (fun _ => rfl) hrest

theorem onNumbers_settles (hs : s.Tame) (t : Token) (x y : Value) {f : Float → Float → Value}
    (hf : ∀ a b, (f a b).Tame) : Settles Value.Tame (fun _ => onNumbers t x y f) s := by
  unfold onNumbers
  split
  · exact .pure hs (hf _ _)
  · exact .fail hs _ _

theorem sum_settles (hs : s.Tame) (t : Token) (x y : Value) :
    Settles Value.Tame (fun _ => sum t x y) s := by
  unfold sum
  split
  · exact .pure hs (.number _)
  · exact .pure hs (.string _)
  · exact .fail hs _ _

theorem unaryOperator_settles (hs : s.Tame) (t : Token) (x : Value) :
    Settles Value.Tame (fun _ => unaryOperator t x) s := by
  unfold unaryOperator
  split
  · split
    · exact .pure hs (.number _)
    · exact .fail hs _ _
  · exact .pure hs (.bool _)
  · exact .stuck hs _

theorem binaryOperator_settles (hs : s.Tame) (t : Token) (x y : Value) :
    Settles Value.Tame (fun _ => binaryOperator t x y) s := by
  unfold binaryOperator
  split
  · exact onNumbers_settles hs _ _ _ fun _ _ => .number _
  · exact onNumbers_settles hs _ _ _ fun _ _ => .number _
  · exact onNumbers_settles hs _ _ _ fun _ _ => .number _
  · exact sum_settles hs _ _ _
  · exact onNumbers_settles hs _ _ _ fun _ _ => .bool _
  · exact onNumbers_settles hs _ _ _ fun _ _ => .bool _
  · exact onNumbers_settles hs _ _ _ fun _ _ => .bool _
  · exact onNumbers_settles hs _ _ _ fun _ _ => .bool _
  · exact .pure hs (.bool _)
  · exact .pure hs (.bool _)
  · exact .stuck hs _

/-! ## Built-in functions -/

theorem global?_settles (hs : s.Tame) (name : String) :
    Settles (fun found => ∀ v, found = some v → v.Tame) (fun _ => global? name) s :=
  .of_settled (.ok (.refl s) hs fun _ hfound => hs.getLocal? hfound)

theorem readClock_settles (hs : s.Tame) (host : Host) (paren : Token) :
    Settles Value.Tame (fun _ => readClock host paren) s := by
  have hcount : Settles (fun _ => True) (fun _ => countReading) s :=
    .of_settled (.ok ⟨rfl, rfl, rfl⟩ hs trivial)
  refine .bind hcount fun reads s₁ _ hs₁ _ => ?_
  dsimp only
  split
  · exact .fail hs₁ _ _
  · exact .pure hs₁ (.number _)

theorem makeTestCase_settles (hs : s.Tame) (paren : Token) {arguments : List Value}
    (harguments : ∀ v ∈ arguments, v.Tame) :
    Settles Value.Tame (fun _ => makeTestCase paren arguments) s := by
  unfold makeTestCase
  split
  · split
    · refine .bind (newIdentity_settles hs) fun _ s₁ _ hs₁ _ => .pure hs₁ (.testCase fun v hv => ?_)
      exact harguments v (List.mem_cons_of_mem _ (List.dropLast_subset _ hv))
    · exact .fail hs _ _
  · exact .fail hs _ _

end

/-- At a depth, calls of tame functions with some arguments settle. -/
def CallSettles (host : Host) (depth : Nat) (arguments : List Value) : Prop :=
  ∀ f paren s, (Value.function f).Tame → s.Tame → s.callDepth = depth →
    Settles Value.Tame (fun m => call host m f arguments paren) s

/-- At a depth, calls of tame functions with tame arguments settle. -/
def CallsSettle (host : Host) (depth : Nat) : Prop :=
  ∀ arguments, (∀ v ∈ arguments, v.Tame) → CallSettles host depth arguments

section

variable {host : Host} {depth : Nat} {s : State} {paren : Token}

theorem callByName_settles (hs : s.Tame) (hdepth : s.callDepth = depth) (name : String)
    {arguments : List Value} (hcall : CallSettles host depth arguments) :
    Settles Value.Tame (fun m => callByName (call host m) paren name arguments) s := by
  refine .bind (global?_settles hs name) fun found s₁ hfound hs₁ hreturns => ?_
  have hdepth₁ := hreturns.callDepth.trans hdepth
  split
  · rename_i f
    have hf := hfound _ rfl
    split
    · split
      · exact hcall f paren s₁ hf hs₁ hdepth₁
      · exact .fail hs₁ _ _
    · exact hcall f paren s₁ hf hs₁ hdepth₁
  · exact .fail hs₁ _ _

/-- Test cases are run one after the other, if the call of each settles. -/
theorem runEach_settles (hs : s.Tame) (hdepth : s.callDepth = depth) {cases : List Value}
    (hcases : ∀ i name arguments expected, .testCase i name arguments expected ∈ cases →
      CallSettles host depth arguments) (passed total : Nat) :
    Settles (fun _ => True) (fun m => runEach (call host m) paren cases passed total) s := by
  induction cases generalizing s passed total with
  | nil => exact .pure hs trivial
  | cons first rest ih =>
    have hrest : ∀ i name arguments expected, .testCase i name arguments expected ∈ rest →
        CallSettles host depth arguments :=
      fun i name arguments expected hmem => hcases i name arguments expected
        (List.mem_cons_of_mem _ hmem)
    -- a line is written, then the rest is run
    have hwrite : ∀ {s : State} (text passed total), s.Tame → s.callDepth = depth →
        Settles (fun _ => True)
          (fun m => do writeLine text; runEach (call host m) paren rest passed total) s :=
      fun text passed total hs hdepth => .bind (.write hs text) fun _ s₁ _ hs₁ hreturns =>
        ih hs₁ (hreturns.callDepth.trans hdepth) hrest passed total
    cases first with
    | testCase i name arguments expected =>
      have hcall := hcases i name arguments expected List.mem_cons_self
      refine .bind (callByName_settles hs hdepth name hcall) fun result s₁ _ hs₁ hreturns => ?_
      have hdepth₁ := hreturns.callDepth.trans hdepth
      split
      · exact hwrite _ _ _ hs₁ hdepth₁
      · exact hwrite _ _ _ hs₁ hdepth₁
    | _ => exact hwrite _ _ _ hs hdepth

theorem callNative_settles (hs : s.Tame) (hdepth : s.callDepth = depth) {native : Native}
    (hnative : native.isInstalled = true) {arguments : List Value}
    (harguments : ∀ v ∈ arguments, v.Tame)
    (hcases : ∀ i name given expected, .testCase i name given expected ∈ arguments →
      CallSettles host depth given) :
    Settles Value.Tame (fun m => callNative host (call host m) paren native arguments) s := by
  cases native with
  | clock => exact readClock_settles hs host paren
  | testCase => exact makeTestCase_settles hs paren harguments
  | runTests =>
    refine .bind (runEach_settles hs hdepth hcases 0 0) fun counts s₁ _ hs₁ _ => ?_
    refine .bind (.write hs₁ _) fun _ s₂ _ hs₂ _ => .bind (.write hs₂ _) fun _ s₃ _ hs₃ _ => ?_
    exact .pure hs₃ (.number _)
  | host key => simp [Native.isInstalled] at hnative

/-! ## Expressions -/

theorem evalEach_settles (hs : s.Tame) (hdepth : s.callDepth = depth) {es : List Expr}
    (hes : ∀ e ∈ es, ∀ s : State, s.Tame → s.callDepth = depth →
      Settles Value.Tame (fun m => eval host m e) s) :
    Settles (fun vs => ∀ v ∈ vs, v.Tame) (fun m => evalEach (eval host m) es) s := by
  induction es generalizing s with
  | nil => exact .pure hs fun _ hv => absurd hv List.not_mem_nil
  | cons e es ih =>
    refine .bind (hes e List.mem_cons_self s hs hdepth) fun v s₁ hv hs₁ hreturns => ?_
    refine .bind (ih hs₁ (hreturns.callDepth.trans hdepth) fun e he =>
      hes e (List.mem_cons_of_mem _ he)) fun vs s₂ hvs hs₂ _ => ?_
    exact .pure hs₂ (List.forall_mem_cons.2 ⟨hv, hvs⟩)

theorem callValue_settles (hs : s.Tame) (hdepth : s.callDepth = depth) {callee : Value}
    (hcallee : callee.Tame) {arguments : List Value} (hcall : CallSettles host depth arguments) :
    Settles Value.Tame (fun m => callValue (call host m) callee arguments paren) s := by
  unfold callValue
  split
  · split
    · split
      · exact hcall _ paren s hcallee hs hdepth
      · exact .fail hs _ _
    · exact hcall _ paren s hcallee hs hdepth
  · exact .fail hs _ _

/-- An expression settles where calls do. -/
theorem eval_settles (hcalls : CallsSettle host depth) (e : Expr) {s : State} (hs : s.Tame)
    (hdepth : s.callDepth = depth) : Settles Value.Tame (fun m => eval host m e) s := by
  refine .succ ?_
  match e with
  | .literal value line => exact .pure hs (Value.tame_ofLiteral value)
  | .grouping inner => exact eval_settles hcalls inner hs hdepth
  | .unary operator right =>
    refine .bind (eval_settles hcalls right hs hdepth) fun x s₁ _ hs₁ _ => ?_
    exact unaryOperator_settles hs₁ operator x
  | .binary left operator right =>
    refine .bind (eval_settles hcalls left hs hdepth) fun x s₁ _ hs₁ hreturns => ?_
    refine .bind (eval_settles hcalls right hs₁ (hreturns.callDepth.trans hdepth))
      fun y s₂ _ hs₂ _ => ?_
    exact binaryOperator_settles hs₂ operator x y
  | .logical left operator right =>
    refine .bind (eval_settles hcalls left hs hdepth) fun x s₁ hx hs₁ hreturns => ?_
    split
    · exact .pure hs₁ hx
    · exact eval_settles hcalls right hs₁ (hreturns.callDepth.trans hdepth)
  | .var name => exact readName_settles hs name
  | .assign name value =>
    refine .bind (eval_settles hcalls value hs hdepth) fun x s₁ hx hs₁ _ => ?_
    exact .bind (assignName_settles hs₁ name hx) fun _ s₂ _ hs₂ _ => .pure hs₂ hx
  | .call callee paren arguments =>
    refine .bind (eval_settles hcalls callee hs hdepth) fun f s₁ hf hs₁ hreturns => ?_
    have hdepth₁ := hreturns.callDepth.trans hdepth
    refine .bind (evalEach_settles hs₁ hdepth₁ fun e _ s hs hdepth =>
      eval_settles hcalls e hs hdepth) fun vs s₂ hvs hs₂ hreturns₂ => ?_
    exact callValue_settles hs₂ (hreturns₂.callDepth.trans hdepth₁) hf (hcalls vs hvs)

/-! ## Statements -/

theorem execEach_settles (hs : s.Tame) (hdepth : s.callDepth = depth) {statements : List Stmt}
    (hall : ∀ statement ∈ statements, ∀ s : State, s.Tame → s.callDepth = depth →
      Settles Flow.Tame (fun m => exec host m statement) s) :
    Settles Flow.Tame (fun m => execEach (exec host m) statements) s := by
  induction statements generalizing s with
  | nil => exact .pure hs trivial
  | cons statement statements ih =>
    refine .bind (hall statement List.mem_cons_self s hs hdepth)
      fun flow s₁ hflow hs₁ hreturns => ?_
    cases flow with
    | normal =>
      exact ih hs₁ (hreturns.callDepth.trans hdepth) fun statement hmem =>
        hall statement (List.mem_cons_of_mem _ hmem)
    | broke => exact .pure hs₁ trivial
    | returned value => exact .pure hs₁ hflow

/-- A statement without loops settles where calls do. -/
theorem exec_settles (hcalls : CallsSettle host depth) (statement : Stmt)
    (hfree : statement.loopFree = true) {s : State} (hs : s.Tame) (hdepth : s.callDepth = depth) :
    Settles Flow.Tame (fun m => exec host m statement) s := by
  have heval : ∀ (e : Expr) {s : State}, s.Tame → s.callDepth = depth →
      Settles Value.Tame (fun m => eval host m e) s := eval_settles hcalls
  refine .succ ?_
  match statement with
  | .expression e =>
    exact .bind (heval e hs hdepth) fun _ s₁ _ hs₁ _ => .pure hs₁ trivial
  | .print e =>
    refine .bind (heval e hs hdepth) fun value s₁ _ hs₁ _ => ?_
    exact .bind (.write hs₁ value.text) fun _ s₂ _ hs₂ _ => .pure hs₂ trivial
  | .varDecl name none =>
    refine .bind (.pure hs Value.Tame.nil) fun value s₁ hvalue hs₁ _ => ?_
    exact .bind (defineName_settles hs₁ _ hvalue) fun _ s₂ _ hs₂ _ => .pure hs₂ trivial
  | .varDecl name (some e) =>
    refine .bind (heval e hs hdepth) fun value s₁ hvalue hs₁ _ => ?_
    exact .bind (defineName_settles hs₁ _ hvalue) fun _ s₂ _ hs₂ _ => .pure hs₂ trivial
  | .block statements =>
    rw [Stmt.loopFree] at hfree
    have hinside : (Passage.block.enter s).Tame := ScopeStore.AllBound.push hs s.current
    refine .congr (fun m => congrFun (Passage.block_step _) s) ?_
    refine .inside .block (execEach_settles hinside hdepth fun statement hmem s hs hdepth =>
      exec_settles hcalls statement (Stmt.loopFree_of_mem hfree hmem) hs hdepth) ?_
    rintro s₁ _ ⟨⟩ hs₁
    exact ScopeStore.AllBound.release hs₁ _
  | .ifElse condition thenBranch none =>
    rw [Stmt.loopFree, Bool.and_eq_true] at hfree
    refine .bind (heval condition hs hdepth) fun value s₁ _ hs₁ hreturns => ?_
    split
    · exact exec_settles hcalls thenBranch hfree.1 hs₁ (hreturns.callDepth.trans hdepth)
    · exact .pure hs₁ trivial
  | .ifElse condition thenBranch (some elseBranch) =>
    rw [Stmt.loopFree, Bool.and_eq_true] at hfree
    refine .bind (heval condition hs hdepth) fun value s₁ _ hs₁ hreturns => ?_
    have hdepth₁ := hreturns.callDepth.trans hdepth
    split
    · exact exec_settles hcalls thenBranch hfree.1 hs₁ hdepth₁
    · exact exec_settles hcalls elseBranch hfree.2 hs₁ hdepth₁
  | .whileLoop condition body => cases hfree
  | .breakOut keyword => exact .outside (fun loops _ => loops = 0) hs _ _ (.pure hs trivial)
  | .funDecl name params body =>
    exact .bind (declareFunction_settles hs name params hfree) fun _ s₁ _ hs₁ _ =>
      .pure hs₁ trivial
  | .giveBack keyword none =>
    exact .outside (fun _ calls => calls = 0) hs _ _ (.pure hs Value.Tame.nil)
  | .giveBack keyword (some e) =>
    exact .outside (fun _ calls => calls = 0) hs _ _
      (.bind (heval e hs hdepth) fun _ s₁ hvalue hs₁ _ => .pure hs₁ hvalue)

/-! ## Calls

A declared function runs one call deeper, and this ends at the bound. A built-in one calls at the
same depth, but with smaller arguments: those held by a test case among its own. -/

theorem bindAll_tame {store : ScopeStore} (h : store.AllBound Value.Tame) (j : ScopeId)
    (params : List Token) {arguments : List Value} (harguments : ∀ v ∈ arguments, v.Tame) :
    (store.bindAll j params arguments).AllBound Value.Tame := by
  induction params generalizing store arguments with
  | nil => exact h
  | cons param params ih =>
    cases arguments with
    | nil => exact h
    | cons argument arguments =>
      rw [List.forall_mem_cons] at harguments
      exact ih (h.bind j param.lexeme harguments.1) harguments.2

/-- A call of a declared function settles where calls one deeper do, or overflows. -/
theorem callScript_settles (hdeeper : depth < maxCallDepth → CallsSettle host (depth + 1))
    (hs : s.Tame) (hdepth : s.callDepth = depth) (params : List Token) {body : List Stmt}
    (hbody : Stmt.allLoopFree body = true) (closure : ScopeId) {arguments : List Value}
    (harguments : ∀ v ∈ arguments, v.Tame) :
    Settles Value.Tame
      (fun m => callScript .standard (exec host m) params body closure arguments paren) s := by
  rcases Nat.lt_or_ge s.callDepth maxCallDepth with hroom | hfull
  · refine .congr (fun m => callScript_of_room _ _ _ _ _ _ _ hroom) ?_
    let p := Passage.body closure params arguments
    have hinside : (p.enter s).Tame :=
      bindAll_tame (ScopeStore.AllBound.push hs closure) _ params harguments
    have hrun : Settles Flow.Tame (fun m => execEach (exec host m) body) (p.enter s) :=
      execEach_settles hinside (congrArg (· + 1) hdepth) fun statement hmem s₁ hs₁ hdepth₁ =>
        exec_settles (hdeeper (hdepth ▸ hroom)) statement (Stmt.loopFree_of_mem hbody hmem)
          hs₁ hdepth₁
    have hleave : ∀ s₁ s₂, p.leave s s₁ = .ok () s₂ → s₁.Tame → s₂.Tame := by
      intro s₁ s₂ hleft hs₁
      change leaveCall s.loopDepth
        { s₁ with current := s.current, store := s₁.store.release s.store.size } = _ at hleft
      unfold leaveCall at hleft
      split at hleft
      · cases hleft
      · cases hleft
        exact ScopeStore.AllBound.release hs₁ _
    have hflow := Settles.inside p hrun hleave
    simp only [p, ← Passage.body_step] at hflow
    exact .bind hflow fun flow s₁ hflow hs₁ _ => .pure hs₁ hflow.result
  · exact .congr (fun m => callScript_of_full _ _ _ _ _ _ _ hfull) (.fail hs paren .stackOverflow)

/-- Calls settle at a depth if they do one deeper, by induction on the size of the arguments: the
test cases among them hold the arguments of further calls. -/
theorem call_settles (hdeeper : depth < maxCallDepth → CallsSettle host (depth + 1)) :
    CallsSettle host depth := by
  intro arguments harguments
  induction hsize : sizeOf arguments using Nat.strongRecOn generalizing arguments with
  | _ size ih =>
    intro f paren s hf hs hdepth
    refine .succ ?_
    cases hf with
    | script hbody => exact callScript_settles hdeeper hs hdepth _ hbody _ harguments
    | native hnative =>
      refine callNative_settles hs hdepth hnative harguments ?_
      intro i name given expected hmem
      have hgiven : ∀ v ∈ given, v.Tame := by
        cases harguments _ hmem with
        | testCase hgiven => exact hgiven
      have hsmaller : sizeOf given < size := by
        have hcase := List.sizeOf_lt_of_mem hmem
        rw [Value.testCase.sizeOf_spec] at hcase
        omega
      exact ih _ hsmaller given hgiven rfl

/-- Calls settle at every depth, by induction on how many more functions may be running. -/
theorem calls_settle (host : Host) (depth : Nat) : CallsSettle host depth := by
  induction hmore : maxCallDepth - depth generalizing depth with
  | zero => exact call_settles fun hroom => by omega
  | succ more ih => exact call_settles fun hroom => ih (depth + 1) (by omega)

/-- A program without loops settles. -/
theorem execProgram_settles (host : Host) {statements : List Stmt}
    (hfree : Stmt.allLoopFree statements = true) {s : State} (hs : s.Tame) :
    Settles (fun _ => True) (fun m => execProgramWith .standard host m statements) s := by
  induction statements generalizing s with
  | nil => exact .pure hs trivial
  | cons statement statements ih =>
    rw [Stmt.allLoopFree, Bool.and_eq_true] at hfree
    refine .bind (exec_settles (calls_settle host s.callDepth) statement hfree.1 hs rfl)
      fun _ s₁ _ hs₁ _ => ?_
    exact ih hfree.2 hs₁

end

/-! ## The theorem -/

/-- A new session knows built-in functions only. -/
theorem fresh_tame : Session.fresh.state.Tame := by
  have hblank : Session.blankState.Tame := by
    intro i s hs entry hentry
    obtain ⟨-, rfl⟩ := ScopeStore.scope?_fresh hs
    cases hentry
  have hinstall : ∀ (session : Session) (name : String) (arity : Arity) (native : Native),
      native.isInstalled = true → session.state.Tame →
      (session.install name arity native).state.Tame :=
    fun session name arity native hnative h => h.bind _ name (.native hnative)
  unfold Session.fresh
  exact hinstall _ _ _ _ rfl (hinstall _ _ _ _ rfl (hinstall _ _ _ _ rfl hblank))

/-- A run that ended: it completed, or the program or its output brought it to a halt. -/
def Session.Ending.IsFinal : Ending → Prop
  | .completed | .halted (.fault _) | .halted .outputClosed => True
  | .rejected _ | .halted (.stuck _) | .halted .outOfBudget => False

/-- A source without loops comes to an end, in a session without loops. -/
theorem Session.run_settles (host : Host) {session : Session} (htame : session.state.Tame)
    (hsound : session.state.Sound Role.Admits) {source : String}
    (hvalid : (Program.ofSource source).errors = [])
    (hfree : Stmt.allLoopFree (Program.ofSource source).statements = true) (limit : Option Nat) :
    ∃ n run, (∀ m, n ≤ m → session.run host m limit source = run) ∧ run.ending.IsFinal := by
  have hstart : State.Tame { session.state with output := { limit } } := htame
  obtain ⟨n, r, hr, hsettled⟩ := execProgram_settles host hfree hstart
  have hrun : ∀ m, n ≤ m → session.run host m limit source = .ofResult r := by
    intro m hm
    rw [Session.run_of_valid _ _ _ _ hvalid, Session.runStatementsWith_eq]
    exact congrArg Session.Run.ofResult (hr m hm)
  refine ⟨n, .ofResult r, hrun, ?_⟩
  have hnotStuck := (Session.run_admits host hsound n limit source).2
  rw [hrun n (Nat.le_refl n)] at hnotStuck
  cases r with
  | ok _ s => trivial
  | error halt s =>
    cases halt with
    | fault e => trivial
    | outputClosed => trivial
    | stuck how => exact hnotStuck how rfl
    | outOfBudget => exact hsettled.finished rfl

/-- **The bound on calls ends every run without loops.** For a source without static faults whose
statements have no loop in them, there is a budget from which on the run of a new session is the
same and has come to an end. And in every run of every session, at the beginning and at the end of
each expression, statement and call, the machine counts as many running functions as there are, and
no more than may be; and it lets the call of a declared function overflow exactly if there are that
many. For the counted machine, which checks all this by itself, does the same and is never stuck. -/
theorem calls_bound_runs (host : Host) :
    (∀ source, (Program.ofSource source).errors = [] →
      Stmt.allLoopFree (Program.ofSource source).statements = true →
      ∀ limit, ∃ n run, (∀ m, n ≤ m → Session.fresh.run host m limit source = run) ∧
        run.ending.IsFinal) ∧
    ∀ inputs n limit source, let session := Session.fresh.after .standard host inputs
      session.run host n limit source = session.runCounted host n limit source ∧
      ∀ how, (session.runCounted host n limit source).ending ≠ .halted (.stuck how) := by
  refine ⟨?_, ?_⟩
  · intro source hvalid hfree limit
    exact Session.run_settles host fresh_tame (fresh_sound _) hvalid hfree limit
  · intro inputs n limit source session
    obtain ⟨-, -, -, hdepth⟩ := after_idle host inputs
    rw [Session.runCounted_eq host hdepth]
    exact ⟨rfl, (Session.run_admits host (after_admits host inputs) n limit source).2⟩

/-- A function that calls itself without end, tested by a test that is run by another. -/
def endlessTest : String :=
  "fun f(x) { return f(x); } runTests(TestCase(\"runTests\", TestCase(\"f\", nil, nil), nil));"

/-- Only the bound on calls ends the test, and both `runTests` with it. -/
theorem calls_bound_runs_endlessTest :
    (Program.ofSource endlessTest).errors = [] ∧
    Stmt.allLoopFree (Program.ofSource endlessTest).statements = true ∧
    ∃ n run, (∀ m, n ≤ m → Session.fresh.run idleHost m none endlessTest = run) ∧
      run.ending.IsFinal := by
  have hvalid : (Program.ofSource endlessTest).errors = [] := by
    cbv
  have hfree : Stmt.allLoopFree (Program.ofSource endlessTest).statements = true := by
    cbv
  exact ⟨hvalid, hfree, (calls_bound_runs idleHost).1 endlessTest hvalid hfree none⟩

end GradedScript
