import GradedScript.Machine.Eval
import GradedScript.Proofs.Machine.Matching

/-!
# Comparing machines

A `Comparison` says when a step of one machine is related to a step of another: it is closed under
sequencing, and the primitive steps of the two machines are related. From that alone, running
matching programs under the same budget is related (`Comparison.machine_related`). The induction
over the machine is done here once; an invariant of one machine, or a simulation between two, is
an instance.

Relations are indexed by worlds, which say what is known of the two states. Time moves on to later
worlds, in which values that matched still do. Declarations need to be related only in worlds that
allow statements of some place.
-/

namespace GradedScript

/-- Which faults the machine raises at a token in a role. -/
def Role.raises : Role → RuntimeFault → Bool
  | .unary, .operandNotNumber => true
  | .binary, .operandsNotNumbers => true
  | .binary, .operandsNotAddable => true
  | .read, .undefinedVariable _ => true
  | .assigned, .undefinedVariable _ => true
  | .breakAt inLoop, .breakOutsideLoop => !inLoop
  | .returnAt inFunction, .returnOutsideFunction => !inFunction
  | .paren, .notCallable => true
  | .paren, .wrongArgumentCount _ _ => true
  | .paren, .stackOverflow => true
  | .paren, .testCaseTooShort => true
  | .paren, .testCaseUnnamed => true
  | .paren, .testNotFunction _ => true
  | .paren, .testArgumentCount _ _ _ => true
  | .paren, .timeBeforeEpoch => true
  | _, _ => false

open Exec

/-- A way to compare the steps of two machines that run matching trees. -/
structure Comparison (T : TokenMatch) (rules rules' : Rules) (host host' : Host) where
  World : Type
  Later : World → World → Prop
  links : World → Links
  /-- the statements of a place may run in the world -/
  Allows : World → Place → Prop
  /-- steps that are related, and how their results are, in the world they end in -/
  Rel : {α β : Type} → World → (World → α → β → Prop) → Exec α → Exec β → Prop
  scopes_later : ∀ {w w'}, Later w w' →
    ∀ c c', (links w).scopes c c' → (links w').scopes c c'
  identities_later : ∀ {w w'}, Later w w' →
    ∀ i i', (links w).identities i i' → (links w').identities i i'
  identities_iff : ∀ {w} i i' j j',
    (links w).identities i i' → (links w).identities j j' → (i = j ↔ i' = j')
  allows_later : ∀ {w w' p}, Later w w' → Allows w p → Allows w' p
  pure : ∀ {α β w} {Q : World → α → β → Prop} {a b}, Q w a b → Rel w Q (pure a) (pure b)
  bind : ∀ {α β γ δ w} {Q : World → α → β → Prop} {Q' : World → γ → δ → Prop} {x y f g},
    Rel w Q x y → (∀ w' a b, Later w w' → Q w' a b → Rel w' Q' (f a) (g b)) →
    Rel w Q' (x >>= f) (y >>= g)
  spent : ∀ {α β w} {Q : World → α → β → Prop},
    Rel w Q (fun s => .error .outOfBudget s) (fun s => .error .outOfBudget s)
  fail : ∀ {α β w} {Q : World → α → β → Prop} {role t t' fault},
    role.raises fault = true → T.Rel role t t' → Rel w Q (failAt t fault) (failAt t' fault)
  noOperator : ∀ {α β w} {Q : World → α → β → Prop} {role t t'},
    role.admits t.kind = false → T.Rel role t t' →
    Rel w Q (getStuck (.noOperator t)) (getStuck (.noOperator t'))
  depths : ∀ {w}, Rel w
    (fun w s s' => s.loopDepth = s'.loopDepth ∧ s.callDepth = s'.callDepth ∧
      ∀ p, Allows w p →
        (p.inLoop = true → s.loopDepth ≠ 0) ∧ (p.inFunction = true → s.callDepth ≠ 0))
    get get
  write : ∀ {w} (text), Rel w (fun _ _ _ => True) (writeLine text) (writeLine text)
  newIdentity : ∀ {w}, Rel w (fun w i i' => (links w).identities i i') newIdentity newIdentity
  clock : ∀ {w}, Rel w (fun _ reads reads' => host.clock reads = host'.clock reads')
    countReading countReading
  global : ∀ {w} (name), Rel w (fun w => Option.Rel (Value.Matches T (links w)))
    (global? name) (global? name)
  read : ∀ {w t t'}, T.Rel .read t t' →
    Rel w (fun w => Value.Matches T (links w)) (rules.readName t) (rules'.readName t')
  assign : ∀ {w t t' v v'}, T.Rel .assigned t t' → Value.Matches T (links w) v v' →
    Rel w (fun _ _ _ => True) (rules.assignName t v) (rules'.assignName t' v')
  declareVariable : ∀ {w p t t' v v'}, Allows w p → T.Rel .variableName t t' →
    Value.Matches T (links w) v v' →
    Rel w (fun _ _ _ => True) (rules.declareVariable t v) (rules'.declareVariable t' v')
  declareFunction : ∀ {w p t t' params params' body body'}, Allows w p → T.Rel .functionName t t' →
    List.Forall₂ (T.Rel .parameter) params params' →
    List.Forall₂ (Stmt.Matches T .body) body body' →
    Rel w (fun _ _ _ => True) (rules.declareFunction t params body)
      (rules'.declareFunction t' params' body')
  block : ∀ {w x y},
    (∀ w₁, (∀ p, Allows w p → Allows w₁ p) → Rel w₁ (fun w => Flow.Matches T (links w)) x y) →
    Rel w (fun w => Flow.Matches T (links w)) (insideBlock rules x) (insideBlock rules' y)
  loop : ∀ {w x y},
    (∀ w₁, (∀ p, Allows w p → Allows w₁ p.loopBody) →
      Rel w₁ (fun w => Flow.Matches T (links w)) x y) →
    Rel w (fun w => Flow.Matches T (links w)) (insideLoop x) (insideLoop y)
  body : ∀ {w c c' params params' arguments arguments' x y}, (links w).scopes c c' →
    List.Forall₂ (T.Rel .parameter) params params' →
    List.Forall₂ (Value.Matches T (links w)) arguments arguments' →
    (∀ w₁, Allows w₁ .body → Rel w₁ (fun w => Flow.Matches T (links w)) x y) →
    Rel w (fun w => Flow.Matches T (links w)) (insideBody rules c params arguments x)
      (insideBody rules' c' params' arguments' y)

namespace Comparison

variable {T : TokenMatch} {rules rules' : Rules} {host host' : Host}
variable (C : Comparison T rules rules' host host')

/-- Values that match in a world. -/
def Values (w : C.World) (v v' : Value) : Prop :=
  v.Matches T (C.links w) v'

/-- Lists of values that match in a world. -/
def ValueLists (w : C.World) (vs vs' : List Value) : Prop :=
  List.Forall₂ (C.Values w) vs vs'

/-- Ways to end that match in a world. -/
def Flows (w : C.World) (f f' : Flow) : Prop :=
  f.Matches T (C.links w) f'

/-- Nothing is asked of the results. -/
def Anything {α β : Type} (_ : C.World) (_ : α) (_ : β) : Prop :=
  True

variable {C} {w w' : C.World}

theorem Values.later (hw : C.Later w w') {v v' : Value} (h : C.Values w v v') :
    C.Values w' v v' :=
  Value.Matches.mono (C.scopes_later hw) (C.identities_later hw) h

theorem ValueLists.later (hw : C.Later w w') {vs vs' : List Value} (h : C.ValueLists w vs vs') :
    C.ValueLists w' vs vs' :=
  List.Forall₂.imp (fun _ _ hv => Values.later hw hv) h

theorem dropLast_matches {R : Value → Value → Prop} {vs vs' : List Value}
    (h : List.Forall₂ R vs vs') : List.Forall₂ R vs.dropLast vs'.dropLast := by
  rw [List.dropLast_eq_take, List.dropLast_eq_take, h.length_eq]
  exact List.forall₂_take _ h

theorem getLastD_matches {R : Value → Value → Prop} {vs vs' : List Value} {d d' : Value}
    (h : List.Forall₂ R vs vs') (hd : R d d') : R (vs.getLastD d) (vs'.getLastD d') := by
  induction h generalizing d d' with
  | nil => exact hd
  | cons hv _ ih =>
    rw [List.getLastD_cons, List.getLastD_cons]
    exact ih hv

/-! ## Operators

Operators see of a value only what it has in common with a matching one: its kind, its number or
text, and what it is equal to. -/

theorem onNumbers_related {t t' : Token} (ht : T.Rel .binary t t') {x x' y y' : Value}
    (hx : C.Values w x x') (hy : C.Values w y y') {f : Float → Float → Value}
    (hf : ∀ a b, C.Values w (f a b) (f a b)) :
    C.Rel w C.Values (onNumbers t x y f) (onNumbers t' x' y' f) := by
  have hfail : C.Rel w C.Values (failAt t .operandsNotNumbers) (failAt t' .operandsNotNumbers) :=
    C.fail rfl ht
  cases hx with
  | number a =>
    cases hy with
    | number b => exact C.pure (hf a b)
    | _ => exact hfail
  | _ => cases hy <;> exact hfail

theorem sum_related {t t' : Token} (ht : T.Rel .binary t t') {x x' y y' : Value}
    (hx : C.Values w x x') (hy : C.Values w y y') :
    C.Rel w C.Values (sum t x y) (sum t' x' y') := by
  have hfail : C.Rel w C.Values (failAt t .operandsNotAddable) (failAt t' .operandsNotAddable) :=
    C.fail rfl ht
  cases hx with
  | number a =>
    cases hy with
    | number b => exact C.pure (.number _)
    | _ => exact hfail
  | string a =>
    cases hy with
    | string b => exact C.pure (.string _)
    | _ => exact hfail
  | _ => cases hy <;> exact hfail

theorem unaryOperator_related {t t' : Token} (ht : T.Rel .unary t t') {x x' : Value}
    (hx : C.Values w x x') :
    C.Rel w C.Values (unaryOperator t x) (unaryOperator t' x') := by
  have hkind := T.kind_eq ht
  unfold unaryOperator
  rw [← hkind]
  split
  · cases hx with
    | number a => exact C.pure (.number _)
    | _ => exact C.fail rfl ht
  · rw [Value.Matches.truthy_eq hx]
    exact C.pure (.bool _)
  · refine C.noOperator ?_ ht
    grind [Role.admits]

theorem binaryOperator_related {t t' : Token} (ht : T.Rel .binary t t') {x x' y y' : Value}
    (hx : C.Values w x x') (hy : C.Values w y y') :
    C.Rel w C.Values (binaryOperator t x y) (binaryOperator t' x' y') := by
  have hkind := T.kind_eq ht
  have heq : x.equals y = x'.equals y' := Value.Matches.equals_eq C.identities_iff hx hy
  unfold binaryOperator
  rw [← hkind, heq]
  split
  · exact onNumbers_related ht hx hy fun _ _ => .number _
  · exact onNumbers_related ht hx hy fun _ _ => .number _
  · exact onNumbers_related ht hx hy fun _ _ => .number _
  · exact sum_related ht hx hy
  · exact onNumbers_related ht hx hy fun _ _ => .bool _
  · exact onNumbers_related ht hx hy fun _ _ => .bool _
  · exact onNumbers_related ht hx hy fun _ _ => .bool _
  · exact onNumbers_related ht hx hy fun _ _ => .bool _
  · exact C.pure (.bool _)
  · exact C.pure (.bool _)
  · refine C.noOperator ?_ ht
    simp only [Role.admits, List.mem_cons, List.not_mem_nil, or_false, not_or,
      decide_eq_false_iff_not]
    and_intros <;> assumption

theorem settledByLeft_eq {t t' : Token} (ht : T.Rel .logical t t') {x x' : Value}
    (hx : C.Values w x x') : settledByLeft t x = settledByLeft t' x' := by
  unfold settledByLeft
  rw [T.kind_eq ht, Value.Matches.truthy_eq hx]

/-! ## Built-in functions

Built-in functions are given a way to call, for the functions that test cases name. So they are
related if the ways to call are. -/

variable (C) in
/-- Evaluators that are related on matching expressions, in every world. -/
def EvalRelated (eval eval' : Expr → Exec Value) : Prop :=
  ∀ w e e', e.Matches T e' → C.Rel w C.Values (eval e) (eval' e')

variable (C) in
/-- Executors that are related on matching statements, in every world that allows their place. -/
def ExecRelated (exec exec' : Stmt → Exec Flow) : Prop :=
  ∀ w p s s', C.Allows w p → s.Matches T p s' → C.Rel w C.Flows (exec s) (exec' s')

variable (C) in
/-- Ways to call that are related on matching functions and arguments, in every world. -/
def CallRelated (call call' : Caller) : Prop :=
  ∀ w f f' arguments arguments' paren paren', f.Matches T (C.links w) f' →
    C.ValueLists w arguments arguments' → T.Rel .paren paren paren' →
    C.Rel w C.Values (call f arguments paren) (call' f' arguments' paren')

section

variable {call call' : Caller} {paren paren' : Token} {arguments arguments' : List Value}

theorem makeTestCase_related (hparen : T.Rel .paren paren paren')
    (harguments : C.ValueLists w arguments arguments') :
    C.Rel w C.Values (makeTestCase paren arguments) (makeTestCase paren' arguments') := by
  cases harguments with
  | nil => exact C.fail rfl hparen
  | @cons name name' rest rest' hname hrest =>
    cases hrest with
    | nil => exact C.fail rfl hparen
    | @cons first first' rest rest' hfirst hrest =>
      cases hname with
      | string name =>
        refine C.bind C.newIdentity ?_
        intro w' i i' hw hi
        have hall : C.ValueLists w' (first :: rest) (first' :: rest') :=
          ValueLists.later hw (.cons hfirst hrest)
        refine C.pure (.testCase hi ?_ ?_ ?_)
        · simp [hall.length_eq]
        · intro v v' hv
          exact (List.forall₂_iff_zip.1 (dropLast_matches hall)).2 hv
        · exact getLastD_matches hall .nil
      | _ => exact C.fail rfl hparen

theorem callByName_related (hcall : C.CallRelated call call') (hparen : T.Rel .paren paren paren')
    (name : String) (harguments : C.ValueLists w arguments arguments') :
    C.Rel w C.Values (callByName call paren name arguments)
      (callByName call' paren' name arguments') := by
  refine C.bind (C.global name) ?_
  intro w' v v' hw hv
  have hlater := ValueLists.later hw harguments
  cases hv with
  | none => exact C.fail rfl hparen
  | some hv =>
    cases hv with
    | function hf =>
      simp only [hf.arity_eq, hlater.length_eq]
      split
      · split
        · exact hcall w' _ _ _ _ _ _ hf hlater hparen
        · exact C.fail rfl hparen
      · exact hcall w' _ _ _ _ _ _ hf hlater hparen
    | _ => exact C.fail rfl hparen

theorem callText_eq (name : String) (harguments : C.ValueLists w arguments arguments') :
    callText name arguments = callText name arguments' := by
  have htexts : arguments.map Value.text = arguments'.map Value.text := by
    induction harguments with
    | nil => rfl
    | cons hv _ ih => rw [List.map_cons, List.map_cons, Value.Matches.text_eq hv, ih]
  rw [callText, callText, htexts]

/-- Running test cases is related, and the counts are the same. -/
theorem runEach_related (hcall : C.CallRelated call call') (hparen : T.Rel .paren paren paren')
    {cases cases' : List Value} (hcases : C.ValueLists w cases cases') (passed total : Nat) :
    C.Rel w (fun _ a b => a = b) (runEach call paren cases passed total)
      (runEach call' paren' cases' passed total) := by
  induction cases generalizing w cases' passed total with
  | nil =>
    cases hcases
    exact C.pure rfl
  | cons v rest ih =>
    obtain _ | ⟨hv, hrest⟩ := hcases
    -- an argument that is no test case brings a warning only
    have hwarn : ∀ text, C.Rel w (fun _ a b => a = b)
        (do writeLine text; runEach call paren rest passed total)
        (do writeLine text; runEach call' paren' _ passed total) := fun text =>
      C.bind (C.write text) fun w' _ _ hw _ => ih (ValueLists.later hw hrest) passed total
    cases hv with
    | @testCase i i' name arguments arguments' expected expected' hid hlength hall hexpected =>
      have harguments : C.ValueLists w arguments arguments' :=
        List.forall₂_iff_zip.2 ⟨hlength, fun h => hall _ _ h⟩
      refine C.bind (callByName_related hcall hparen name harguments) ?_
      intro w' r r' hw hr
      have hequals : r.equals expected = r'.equals expected' :=
        Value.Matches.equals_eq C.identities_iff hr (Values.later hw hexpected)
      simp only [hequals, callText_eq name harguments, Value.Matches.text_eq hexpected,
        Value.Matches.text_eq hr]
      have hrest' := ValueLists.later hw hrest
      split
      · exact C.bind (C.write _) fun w' _ _ hw _ => ih (ValueLists.later hw hrest') _ _
      · exact C.bind (C.write _) fun w' _ _ hw _ => ih (ValueLists.later hw hrest') _ _
    | function hf =>
      simp only [runEach, Value.text, hf.text_eq]
      exact hwarn _
    | _ => exact hwarn _

theorem runTests_related (hcall : C.CallRelated call call') (hparen : T.Rel .paren paren paren')
    (harguments : C.ValueLists w arguments arguments') :
    C.Rel w C.Values (runTests call paren arguments) (runTests call' paren' arguments') := by
  refine C.bind (runEach_related hcall hparen harguments 0 0) ?_
  rintro w' ⟨passed, total⟩ _ hw rfl
  refine C.bind (C.write _) fun _ _ _ _ _ => C.bind (C.write _) fun _ _ _ _ _ => ?_
  exact C.pure (.number _)

theorem readClock_related (hparen : T.Rel .paren paren paren') :
    C.Rel w C.Values (readClock host paren) (readClock host' paren') := by
  refine C.bind C.clock fun w' reads reads' _ hsame => ?_
  dsimp only
  rw [hsame]
  split
  · exact C.fail rfl hparen
  · exact C.pure (.number _)

theorem callNative_related (hcall : C.CallRelated call call') (hparen : T.Rel .paren paren paren')
    {native : Native} (hnative : native.isInstalled = true)
    (harguments : C.ValueLists w arguments arguments') :
    C.Rel w C.Values (callNative host call paren native arguments)
      (callNative host' call' paren' native arguments') := by
  cases native with
  | clock => exact readClock_related hparen
  | testCase => exact makeTestCase_related hparen harguments
  | runTests => exact runTests_related hcall hparen harguments
  | host key => simp [Native.isInstalled] at hnative

end

/-! ## Expressions

One level of the machine is a function of the evaluator and the way to call below it. So it is
related if those are; nothing is said of budgets yet. -/

section

variable {eval eval' : Expr → Exec Value} {exec exec' : Stmt → Exec Flow} {call call' : Caller}

theorem evalEach_related (heval : C.EvalRelated eval eval') {es es' : List Expr}
    (hes : List.Forall₂ (Expr.Matches T) es es') :
    C.Rel w C.ValueLists (evalEach eval es) (evalEach eval' es') := by
  induction hes generalizing w with
  | nil => exact C.pure .nil
  | cons he _ ih =>
    refine C.bind (heval w _ _ he) ?_
    intro w₁ v v' _ hv
    refine C.bind ih ?_
    intro w₂ vs vs' hw₂ hvs
    exact C.pure (.cons (Values.later hw₂ hv) hvs)

theorem callValue_related (hcall : C.CallRelated call call') {f f' : Value}
    {arguments arguments' : List Value} {paren paren' : Token} (hf : C.Values w f f')
    (harguments : C.ValueLists w arguments arguments') (hparen : T.Rel .paren paren paren') :
    C.Rel w C.Values (callValue call f arguments paren) (callValue call' f' arguments' paren') := by
  cases hf with
  | function hf =>
    simp only [callValue, hf.arity_eq, harguments.length_eq]
    split
    · split
      · exact hcall w _ _ _ _ _ _ hf harguments hparen
      · exact C.fail rfl hparen
    · exact hcall w _ _ _ _ _ _ hf harguments hparen
  | _ => exact C.fail rfl hparen

/-- One level of evaluation is related if the levels below are. -/
theorem evalNode_related (heval : C.EvalRelated eval eval') (hcall : C.CallRelated call call') :
    C.EvalRelated (evalNode rules eval call) (evalNode rules' eval' call') := by
  intro w e e' he
  cases he with
  | literal value line line' =>
    refine C.pure ?_
    cases value <;> constructor
  | grouping hinner => exact heval w _ _ hinner
  | unary hop hright =>
    exact C.bind (heval w _ _ hright) fun _ _ _ _ hv => unaryOperator_related hop hv
  | binary hleft hop hright =>
    refine C.bind (heval w _ _ hleft) ?_
    intro w₁ x x' _ hx
    refine C.bind (heval w₁ _ _ hright) ?_
    intro w₂ y y' hw₂ hy
    exact binaryOperator_related hop (Values.later hw₂ hx) hy
  | logical hleft hop hright =>
    refine C.bind (heval w _ _ hleft) ?_
    intro w₁ x x' _ hx
    rw [settledByLeft_eq hop hx]
    split
    · exact C.pure hx
    · exact heval w₁ _ _ hright
  | var hname => exact C.read hname
  | assign hname hvalue =>
    refine C.bind (heval w _ _ hvalue) ?_
    intro w₁ x x' _ hx
    refine C.bind (C.assign hname hx) ?_
    intro w₂ _ _ hw₂ _
    exact C.pure (Values.later hw₂ hx)
  | call hcallee hparen hlength hall =>
    refine C.bind (heval w _ _ hcallee) ?_
    intro w₁ f f' _ hf
    have harguments := List.forall₂_iff_zip.2 ⟨hlength, fun h => hall _ _ h⟩
    refine C.bind (evalEach_related heval harguments) ?_
    intro w₂ vs vs' hw₂ hvs
    exact callValue_related hcall (Values.later hw₂ hf) hvs hparen

/-! ## Statements and calls

Blocks, loops and bodies are entered and left by steps that a comparison relates by itself. Inside
them the place is another, which is where worlds that allow it come in. -/

theorem execEach_related (hexec : C.ExecRelated exec exec') {p : Place} (hp : C.Allows w p)
    {ss ss' : List Stmt} (hss : List.Forall₂ (Stmt.Matches T p) ss ss') :
    C.Rel w C.Flows (execEach exec ss) (execEach exec' ss') := by
  induction hss generalizing w with
  | nil => exact C.pure .normal
  | cons hs _ ih =>
    refine C.bind (hexec w p _ _ hp hs) ?_
    intro w₁ f f' hw₁ hf
    cases hf with
    | normal => exact ih (C.allows_later hw₁ hp)
    | broke => exact C.pure .broke
    | returned hv => exact C.pure (.returned hv)

/-- Going round a loop is related, by induction on how often it may. -/
theorem repeatWhile_related (heval : C.EvalRelated eval eval') (hexec : C.ExecRelated exec exec')
    {p : Place} (hp : C.Allows w p) {e e' : Expr} {s s' : Stmt} (he : e.Matches T e')
    (hs : s.Matches T p s') (n : Nat) :
    C.Rel w C.Flows (repeatWhile (eval e) (exec s) n) (repeatWhile (eval' e') (exec' s') n) := by
  induction n generalizing w with
  | zero => exact C.spent
  | succ n ih =>
    refine C.bind (heval w _ _ he) ?_
    intro w₁ v v' hw₁ hv
    have hp₁ := C.allows_later hw₁ hp
    rw [Value.Matches.truthy_eq hv]
    split
    · refine C.bind (hexec w₁ p _ _ hp₁ hs) ?_
      intro w₂ f f' hw₂ hf
      cases hf with
      | normal => exact ih (C.allows_later hw₂ hp₁)
      | broke => exact C.pure .normal
      | returned hv => exact C.pure (.returned hv)
    · exact C.pure .normal

/-- One level of execution is related if the levels below are. -/
theorem execNode_related (heval : C.EvalRelated eval eval') (hexec : C.ExecRelated exec exec')
    (n : Nat) : C.ExecRelated (execNode rules eval exec n) (execNode rules' eval' exec' n) := by
  intro w p s s' hp hs
  cases hs with
  | expression he => exact C.bind (heval w _ _ he) fun _ _ _ _ _ => C.pure .normal
  | print he =>
    refine C.bind (heval w _ _ he) ?_
    intro w₁ v v' _ hv
    rw [Value.Matches.text_eq hv]
    exact C.bind (C.write _) fun _ _ _ _ _ => C.pure .normal
  | varDecl hname hinit =>
    cases hinit with
    | none =>
      refine C.bind (C.pure (Q := C.Values) .nil) ?_
      intro w₁ v v' hw₁ hv
      have hp₁ := C.allows_later hw₁ hp
      exact C.bind (C.declareVariable hp₁ hname hv) fun _ _ _ _ _ => C.pure .normal
    | some he =>
      refine C.bind (heval w _ _ he) ?_
      intro w₁ v v' hw₁ hv
      have hp₁ := C.allows_later hw₁ hp
      exact C.bind (C.declareVariable hp₁ hname hv) fun _ _ _ _ _ => C.pure .normal
  | block hlength hall =>
    refine C.block fun w₁ hw₁ => ?_
    exact execEach_related hexec (hw₁ p hp) (List.forall₂_iff_zip.2 ⟨hlength, fun h => hall _ _ h⟩)
  | ifThen hcond hthen =>
    refine C.bind (heval w _ _ hcond) ?_
    intro w₁ v v' hw₁ hv
    rw [Value.Matches.truthy_eq hv]
    split
    · exact hexec w₁ p _ _ (C.allows_later hw₁ hp) hthen
    · exact C.pure .normal
  | ifElse hcond hthen helse =>
    refine C.bind (heval w _ _ hcond) ?_
    intro w₁ v v' hw₁ hv
    rw [Value.Matches.truthy_eq hv]
    split
    · exact hexec w₁ p _ _ (C.allows_later hw₁ hp) hthen
    · exact hexec w₁ p _ _ (C.allows_later hw₁ hp) helse
  | whileLoop hcond hbody =>
    refine C.loop fun w₁ hw₁ => ?_
    exact repeatWhile_related heval hexec (hw₁ p hp) hcond hbody n
  | breakOut hkey =>
    refine C.bind C.depths ?_
    rintro w₁ s s' hw₁ ⟨hloop, -, hplaces⟩
    simp only [← hloop]
    split
    · rename_i hzero
      -- a place inside a loop is not allowed here, so the fault is one of this role
      have hplace : p.inLoop = false := by
        by_contra hne
        exact (hplaces p (C.allows_later hw₁ hp)).1 (by simpa using hne) hzero
      rw [hplace] at hkey
      exact C.fail rfl hkey
    · exact C.pure .broke
  | funDecl hname hparams hlength hall =>
    have hbody := List.forall₂_iff_zip.2 ⟨hlength, fun h => hall _ _ h⟩
    exact C.bind (C.declareFunction hp hname hparams hbody) fun _ _ _ _ _ => C.pure .normal
  | giveBack hkey hvalue =>
    refine C.bind C.depths ?_
    rintro w₁ s s' hw₁ ⟨-, hcall, hplaces⟩
    simp only [← hcall]
    split
    · rename_i hzero
      -- as for `break`, with functions in the place of loops
      have hplace : p.inFunction = false := by
        by_contra hne
        exact (hplaces p (C.allows_later hw₁ hp)).2 (by simpa using hne) hzero
      rw [hplace] at hkey
      exact C.fail rfl hkey
    · cases hvalue with
      | none => exact C.pure (.returned .nil)
      | some he => exact C.bind (heval w₁ _ _ he) fun _ _ _ _ hv => C.pure (.returned hv)

/-- One level of calling is related if the levels below are. -/
theorem callNode_related (hexec : C.ExecRelated exec exec') (hcall : C.CallRelated call call') :
    C.CallRelated (callNode rules host exec call) (callNode rules' host' exec' call') := by
  intro w f f' arguments arguments' paren paren' hf harguments hparen
  cases hf with
  | script hid hname hparams hbody hclosure =>
    refine C.bind C.depths ?_
    rintro w₁ s s' hw₁ ⟨-, hdepth, -⟩
    simp only [← hdepth]
    split
    · exact C.fail rfl hparen
    · have hflow := C.body (C.scopes_later hw₁ _ _ hclosure) hparams
        (ValueLists.later hw₁ harguments) fun w₂ hw₂ => execEach_related hexec hw₂ hbody
      exact C.bind hflow fun _ _ _ _ hf => C.pure hf.result
  | native hid hnative => exact callNative_related hcall hparen hnative harguments

end

/-! ## The machine

The knot is tied by induction on the budget, for expressions, statements and calls at once. -/

/-- **Matching programs are related under the same budget**, whatever the comparison. -/
theorem machine_related (C : Comparison T rules rules' host host') (n : Nat) :
    C.EvalRelated (evalWith rules host n) (evalWith rules' host' n) ∧
    C.ExecRelated (execWith rules host n) (execWith rules' host' n) ∧
    C.CallRelated (callWith rules host n) (callWith rules' host' n) := by
  induction n with
  | zero =>
    refine ⟨?_, ?_, ?_⟩
    · intro w e e' _
      exact C.spent
    · intro w p s s' _ _
      exact C.spent
    · intro w f f' arguments arguments' paren paren' _ _ _
      exact C.spent
  | succ n ih =>
    -- each level uses all three of the level below
    obtain ⟨heval, hexec, hcall⟩ := ih
    exact ⟨evalNode_related heval hcall, execNode_related heval hexec n,
      callNode_related hexec hcall⟩

/-- Executing matching programs is related. -/
theorem execProgram_related (C : Comparison T rules rules' host host') (n : Nat)
    {ss ss' : List Stmt} (hss : List.Forall₂ (Stmt.Matches T .top) ss ss') {w : C.World}
    (hw : C.Allows w .top) :
    C.Rel w C.Anything (execProgramWith rules host n ss) (execProgramWith rules' host' n ss') := by
  induction hss generalizing w with
  | nil => exact C.pure trivial
  | cons hs _ ih =>
    refine C.bind ((machine_related C n).2.1 w _ _ _ hw hs) ?_
    intro w₁ _ _ hw₁ _
    exact ih (C.allows_later hw₁ hw)

end Comparison

end GradedScript
