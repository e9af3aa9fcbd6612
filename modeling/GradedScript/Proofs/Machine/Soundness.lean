import GradedScript.Proofs.Machine.Comparison
import GradedScript.Proofs.Scope.Store

/-!
# Sound states

A state is sound when its store is well formed, the current scope is held, and every function in a
value lies in a captured scope. The machine keeps states sound and restores them, however a step
ends (`exec_endsSound`, `eval_endsSound`); it halts at tokens of the program only, and gets stuck
only at an operator that is none.

All this is shown for programs whose tokens have some property `P`, and together with the machine
that refuses to declare functions outside of the global scope, where no scope is captured anew.
-/

namespace GradedScript

open Exec

/-! ## Values that fit a store

A function is called in the scope it was declared in, which must still be there then. Captured
scopes are never reclaimed, so functions belong in those. -/

/-- Functions are declared in captured scopes. -/
def ScopeStore.links (store : ScopeStore) : Links where
  scopes c c' := c = c' ∧ store.Captured c
  identities := Eq

/-- The functions in a value are built in, or their tokens have the property `P` and they are
declared in captured scopes. -/
def Value.Fits (P : Role → Token → Prop) (store : ScopeStore) (v : Value) : Prop :=
  ∃ v', v.Matches (.only P) store.links v'

section

variable {P : Role → Token → Prop} {a b : ScopeStore}

theorem ScopeStore.links_mono (h : ∀ i, a.Captured i → b.Captured i) (c c' : ScopeId)
    (hc : a.links.scopes c c') : b.links.scopes c c' :=
  ⟨hc.1, h c hc.2⟩

theorem Value.Fits.mono (h : ∀ i, a.Captured i → b.Captured i) {v : Value} (hv : v.Fits P a) :
    v.Fits P b := by
  obtain ⟨v', hv'⟩ := hv
  exact ⟨v', hv'.mono (ScopeStore.links_mono h) fun _ _ => id⟩

/-- Every value bound in a store fits it. -/
def ScopeStore.ValuesFit (P : Role → Token → Prop) (store : ScopeStore) : Prop :=
  ∀ i s, store.scope? i = some s → ∀ entry ∈ s.bindings.entries, entry.2.Fits P store

theorem ScopeStore.ValuesFit.bind (h : a.ValuesFit P) (j : ScopeId) (name : String) {value : Value}
    (hvalue : value.Fits P a) : (a.bind j name value).ValuesFit P := by
  have hmono : ∀ i, a.Captured i → (a.bind j name value).Captured i :=
    fun i hi => ScopeStore.captured_bind_iff.2 hi
  intro i s hs entry hentry
  rw [ScopeStore.scope?_bind] at hs
  split at hs
  · obtain ⟨s₀, hs₀, rfl⟩ := Option.map_eq_some_iff.1 hs
    rcases mem_insertEntry hentry with rfl | hold
    · exact hvalue.mono hmono
    · exact (h i s₀ hs₀ entry hold).mono hmono
  · exact (h i s hs entry hentry).mono hmono

theorem ScopeStore.ValuesFit.push (h : a.ValuesFit P) (e : ScopeId) : (a.push e).ValuesFit P := by
  intro i s hs entry hentry
  rw [ScopeStore.scope?_push] at hs
  split at hs
  · cases hs
    cases hentry
  · exact (h i s hs entry hentry).mono fun i hi => ScopeStore.captured_push_iff.2 hi

theorem ScopeStore.ValuesFit.marked (h : a.ValuesFit P) (hab : ScopeStore.Marked a b) :
    b.ValuesFit P := by
  intro i s' hs' entry hentry
  obtain ⟨s, hs, heq, -⟩ := hab.exists_of hs'
  rw [heq] at hentry
  exact (h i s hs entry hentry).mono fun i hi => hab.captured hi

theorem ScopeStore.ValuesFit.release (h : a.ValuesFit P) (j : ScopeId) :
    (a.release j).ValuesFit P := by
  intro i s hs entry hentry
  obtain ⟨s₀, hs₀, rfl⟩ := ScopeStore.scope?_release hs
  exact (h i s₀ hs₀ entry hentry).mono fun i hi => ScopeStore.captured_release_iff.2 hi

/-- A value found in a store fits it. -/
theorem ScopeStore.ValuesFit.find (h : a.ValuesFit P) {i : ScopeId} {s : Scope} {name : String}
    {value : Value} (hs : a.scope? i = some s) (hfind : s.bindings.find? name = some value) :
    value.Fits P a :=
  h i s hs (name, value) (mem_of_lookup hfind)

end

/-! ## Sound states and what steps do to them

A step that starts in a sound state ends in one that follows it, also if it halts: no scope is lost,
and the current scope and the depths are what they were. Steps like that can be put in sequence, and
left however they end. -/

/-- A state as the machine keeps it. -/
structure State.Sound (P : Role → Token → Prop) (s : State) : Prop where
  store : s.store.WellFormed
  current : s.current < s.store.size
  values : s.store.ValuesFit P

/-- A state that is back in the current scope and at the depths of another, and keeps its scopes. -/
structure State.Restores (s s' : State) : Prop where
  current : s'.current = s.current
  loopDepth : s'.loopDepth = s.loopDepth
  callDepth : s'.callDepth = s.callDepth
  keeps : s.store.Keeps s'.store

theorem State.Restores.trans {s s' s'' : State} (h : s.Restores s') (h' : s'.Restores s'') :
    s.Restores s'' where
  current := h'.current.trans h.current
  loopDepth := h'.loopDepth.trans h.loopDepth
  callDepth := h'.callDepth.trans h.callDepth
  keeps := h.keeps.trans h'.keeps

/-- As in the language, but functions may be declared outside of the global scope only if `nested`
is true. -/
def Exec.Rules.nesting (nested : Bool) : Rules :=
  { Rules.standard with
    declareFunction := fun name params body s =>
      if nested = true ∨ s.current = ScopeStore.globalId then
        Exec.declareFunction name params body s
      else .error (.stuck (.missingScope s.current)) s }

theorem Exec.Rules.nesting_true : Rules.nesting true = Rules.standard := by
  simp only [Rules.nesting, true_or, ↓reduceIte]
  rfl

/-- A later state: one that restores another, and has captured nothing more unless functions may be
declared anywhere. -/
structure State.Follows (nested : Bool) (s s' : State) : Prop where
  restores : s.Restores s'
  captured : nested = false → ∀ i, s'.store.Captured i → s.store.Captured i

/-- How the machine may halt on a program whose tokens have the property `P`. -/
def Halt.Allowed (P : Role → Token → Prop) (nested : Bool) : Halt → Prop
  | .fault e => ∃ role : Role, role.raises e.fault = true ∧ P role e.token
  | .stuck (.noOperator t) => ∃ role : Role, role.admits t.kind = false ∧ P role t
  | .stuck (.missingScope _) => nested = false
  | .stuck .depthUnderflow => False
  | .outputClosed => True
  | .outOfBudget => True

/-- What is known of the result of a step that starts in a state. -/
def EndsSound {α : Type} (P : Role → Token → Prop) (nested : Bool) (s : State)
    (Q : State → α → Prop) : EStateM.Result Halt State α → Prop
  | .ok a s' => s.Follows nested s' ∧ s'.Sound P ∧ Q s' a
  | .error halt s' => s.Follows nested s' ∧ s'.Sound P ∧ halt.Allowed P nested

section

variable {P : Role → Token → Prop} {nested : Bool} {α β : Type} {s s' : State}

theorem State.Follows.trans {s'' : State} (h : s.Follows nested s') (h' : s'.Follows nested s'') :
    s.Follows nested s'' :=
  ⟨h.restores.trans h'.restores, fun hn i hi => h.captured hn i (h'.captured hn i hi)⟩

/-- A change that touches neither scopes nor depths. -/
theorem State.Follows.of_same (hstore : s'.store = s.store) (hcurrent : s'.current = s.current)
    (hloop : s'.loopDepth = s.loopDepth) (hcall : s'.callDepth = s.callDepth) :
    s.Follows nested s' := by
  refine ⟨⟨hcurrent, hloop, hcall, ?_⟩, ?_⟩
  · rw [hstore]
    exact .refl _
  · intro _ i hi
    rwa [hstore] at hi

theorem State.Follows.refl (s : State) : s.Follows nested s :=
  .of_same rfl rfl rfl rfl

theorem State.Sound.of_same (h : s.Sound P) (hstore : s'.store = s.store)
    (hcurrent : s'.current = s.current) : s'.Sound P where
  store := hstore ▸ h.store
  current := by
    rw [hstore, hcurrent]
    exact h.current
  values := hstore ▸ h.values

theorem EndsSound.bind {Q : State → α → Prop} {Q' : State → β → Prop} {x : Exec α} {f : α → Exec β}
    (hx : EndsSound P nested s Q (x s))
    (hf : ∀ s' a, s.Follows nested s' → s'.Sound P → Q s' a → EndsSound P nested s' Q' (f a s')) :
    EndsSound P nested s Q' ((x >>= f) s) := by
  show EndsSound P nested s Q' (EStateM.bind x f s)
  unfold EStateM.bind
  cases hxs : x s with
  | error halt s' =>
    rw [hxs] at hx
    exact hx
  | ok a s' =>
    rw [hxs] at hx
    obtain ⟨hfollows, hsound, hQ⟩ := hx
    have hrest := hf s' a hfollows hsound hQ
    show EndsSound P nested s Q' (f a s')
    revert hrest
    cases f a s' with
    | ok b s'' => exact fun h => ⟨hfollows.trans h.1, h.2⟩
    | error halt s'' => exact fun h => ⟨hfollows.trans h.1, h.2⟩

theorem EndsSound.mono {Q Q' : State → α → Prop} {r : EStateM.Result Halt State α}
    (h : EndsSound P nested s Q r) (hQ : ∀ s' a, Q s' a → Q' s' a) : EndsSound P nested s Q' r := by
  cases r with
  | ok a s' => exact ⟨h.1, h.2.1, hQ s' a h.2.2⟩
  | error halt s' => exact h

/-- A step that is left however it ends. Leaving must succeed, lead back from where the step ended
to a state that follows the start, and keep what is known of the result. -/
theorem EndsSound.thenLeave {Q Q' : State → α → Prop} {step : Exec α} {leave : Exec Unit}
    {start : State} (hstep : EndsSound P nested start Q (step start))
    (hleave : ∀ s₁, start.Follows nested s₁ → s₁.Sound P →
      ∃ s₂, leave s₁ = .ok () s₂ ∧ s.Follows nested s₂ ∧ s₂.Sound P ∧ ∀ a, Q s₁ a → Q' s₂ a) :
    EndsSound P nested s Q' (thenLeave step leave start) := by
  unfold Exec.thenLeave
  cases hres : step start with
  | ok a s₁ =>
    rw [hres] at hstep
    obtain ⟨hfollows, hsound, hQ⟩ := hstep
    obtain ⟨s₂, hs₂, hfollows₂, hsound₂, hQ₂⟩ := hleave s₁ hfollows hsound
    simp only [hs₂]
    exact ⟨hfollows₂, hsound₂, hQ₂ a hQ⟩
  | error halt s₁ =>
    rw [hres] at hstep
    obtain ⟨hfollows, hsound, hhalt⟩ := hstep
    obtain ⟨s₂, hs₂, hfollows₂, hsound₂, -⟩ := hleave s₁ hfollows hsound
    simp only [hs₂]
    exact ⟨hfollows₂, hsound₂, hhalt⟩

/-! ## Names

What is found fits the store, and what is bound must fit it. Declaring a function captures the
current scope, so the function fits then. -/

theorem readName_endsSound (h : s.Sound P) {t : Token} (ht : P .read t) :
    EndsSound P nested s (fun s' v => v.Fits P s'.store) (readName t s) := by
  have hcases := ScopeStore.resolve_cases h.store.nested h.current t.lexeme
  unfold readName ScopeStore.get
  rcases hcases with ⟨owner, value, sc, hres, hsc, hfind⟩ | hres
  · simp only [hres, Except.map]
    exact ⟨.refl s, h, h.values.find hsc hfind⟩
  · simp only [hres, Except.map]
    exact ⟨.refl s, h, .read, rfl, ht⟩

theorem State.Follows.bind (s : State) (j : ScopeId) (name : String) (value : Value) :
    s.Follows nested { s with store := s.store.bind j name value } :=
  ⟨⟨rfl, rfl, rfl, .bind _ j name value⟩, fun _ _ hi => ScopeStore.captured_bind_iff.1 hi⟩

/-- Binding a value that fits leaves a sound state. -/
theorem State.Sound.bind (h : s.Sound P) (j : ScopeId) (name : String) {value : Value}
    (hvalue : value.Fits P s.store) :
    State.Sound P { s with store := s.store.bind j name value } where
  store := h.store.bind name value
  current := by
    rw [ScopeStore.size_bind]
    exact h.current
  values := h.values.bind j name hvalue

theorem assignName_endsSound (h : s.Sound P) {t : Token} (ht : P .assigned t) {value : Value}
    (hvalue : value.Fits P s.store) :
    EndsSound P nested s (fun _ _ => True) (assignName t value s) := by
  have hcases := ScopeStore.resolve_cases h.store.nested h.current t.lexeme
  unfold assignName
  rcases hcases with ⟨owner, old, sc, hres, -, -⟩ | hres
  · simp only [hres]
    exact ⟨.bind s owner t.lexeme value, h.bind owner t.lexeme hvalue, trivial⟩
  · simp only [hres]
    exact ⟨.refl s, h, .assigned, rfl, ht⟩

theorem defineIn_endsSound (h : s.Sound P) {j : ScopeId} (hj : j < s.store.size) (name : String)
    {value : Value} (hvalue : value.Fits P s.store) :
    EndsSound P nested s (fun _ _ => True) (defineIn j name value s) := by
  rw [defineIn, if_pos hj]
  exact ⟨.bind s j name value, h.bind j name hvalue, trivial⟩

/-- What declaring a function does to a state whose current scope is held. -/
theorem declareFunction_eq (hnested : s.store.Nested) (hcurrent : s.current < s.store.size)
    (hmarked : ScopeStore.Marked s.store (s.store.markOutward s.current))
    (name : Token) (params : List Token) (body : List Stmt) :
    Exec.declareFunction name params body s =
      .ok () { s with
        store := (s.store.markOutward s.current).bind s.current name.lexeme
          (.function ⟨s.nextIdentity, .script name params body s.current⟩)
        nextIdentity := s.nextIdentity + 1 } := by
  have hcapture : captureScope s =
      .ok () { s with store := s.store.markOutward s.current } := by
    simp only [captureScope, ScopeStore.missingOutward?_eq_none hnested hcurrent]
  have hheld : s.current < (s.store.markOutward s.current).size := by
    rw [hmarked.size_eq]
    exact hcurrent
  show EStateM.bind captureScope _ s = _
  simp only [EStateM.bind, hcapture]
  show defineIn s.current name.lexeme _ _ = _
  rw [defineIn, if_pos hheld]

theorem declareFunction_endsSound (h : s.Sound P) {name : Token} {params params' : List Token}
    {body body' : List Stmt} (hname : P .functionName name)
    (hparams : List.Forall₂ ((TokenMatch.only P).Rel .parameter) params params')
    (hbody : List.Forall₂ (Stmt.Matches (.only P) .body) body body') :
    EndsSound P nested s (fun _ _ => True)
      ((Rules.nesting nested).declareFunction name params body s) := by
  show EndsSound P nested s _ (ite _ _ _)
  split
  case isFalse hrefused =>
    have hn : nested = false := Bool.eq_false_iff.2 fun hn => hrefused (.inl hn)
    exact ⟨.refl s, h, hn⟩
  case isTrue hmay =>
    have hmarked := h.store.marked_markOutward h.current
    have hcaptured := h.store.captured_markOutward h.current
    rw [declareFunction_eq h.store.nested h.current hmarked]
    -- the state between the capture and the binding, where the new function fits already
    let s₁ : State :=
      { s with store := s.store.markOutward s.current, nextIdentity := s.nextIdentity + 1 }
    have hsound₁ : s₁.Sound P := by
      refine ⟨h.store.markOutward h.current, ?_, h.values.marked hmarked⟩
      show s.current < (s.store.markOutward s.current).size
      rw [hmarked.size_eq]
      exact h.current
    have hfollows₁ : s.Follows nested s₁ := by
      refine ⟨⟨rfl, rfl, rfl, .of_marked hmarked⟩, ?_⟩
      -- where functions are declared in the global scope only, it is captured already
      intro hn i hi
      have hglobal : s.current = ScopeStore.globalId := hmay.resolve_left (by simp [hn])
      have hsame : s.store.markOutward s.current = s.store :=
        ScopeStore.markOutward_of_captured (hglobal ▸ h.store.root)
      have hi : (s.store.markOutward s.current).Captured i := hi
      rwa [hsame] at hi
    have hfits : (Value.function ⟨s.nextIdentity, .script name params body s.current⟩).Fits P
        s₁.store :=
      ⟨_, .function (.script rfl ⟨rfl, hname⟩ hparams hbody ⟨rfl, hcaptured⟩)⟩
    exact ⟨hfollows₁.trans (.bind s₁ _ _ _), hsound₁.bind s.current name.lexeme hfits, trivial⟩

/-! ## Scopes, loops and calls

A scope is opened on top of the store and released in the end. What was there before stays, and what
was captured in between stays as well. -/

theorem Exec.leaveLoop_of_succ {s : State} {n : Nat} (h : s.loopDepth = n + 1) :
    leaveLoop s = .ok () { s with loopDepth := n } := by
  rw [leaveLoop, if_neg (by omega), h]
  rfl

theorem Exec.leaveCall_of_succ {s : State} {n : Nat} (h : s.callDepth = n + 1) (loopDepth : Nat) :
    leaveCall loopDepth s = .ok () { s with loopDepth, callDepth := n } := by
  rw [leaveCall, if_neg (by omega), h]
  rfl

/-- A block runs in a new scope, which is left in the end. -/
theorem insideBlock_apply (rules : Rules) (x : Exec Flow) (s : State) :
    insideBlock rules x s = thenLeave x (rules.leaveScope s.current s.store.size)
      { s with store := s.store.push s.current, current := s.store.size } :=
  rfl

/-- The store after parameters are bound in a scope. -/
def ScopeStore.bindAll (store : ScopeStore) (j : ScopeId) : List Token → List Value → ScopeStore
  | param :: params, argument :: arguments =>
    (store.bind j param.lexeme argument).bindAll j params arguments
  | _, _ => store

theorem ScopeStore.Keeps.bindAll (store : ScopeStore) (j : ScopeId) (params : List Token)
    (arguments : List Value) : store.Keeps (store.bindAll j params arguments) := by
  induction params generalizing store arguments with
  | nil => exact .refl store
  | cons param params ih =>
    cases arguments with
    | nil => exact .refl store
    | cons argument arguments => exact (ScopeStore.Keeps.bind ..).trans (ih ..)

theorem bindParams_eq {j : ScopeId} (params : List Token) (arguments : List Value) (s : State)
    (hj : j < s.store.size) :
    bindParams j params arguments s =
      .ok () { s with store := s.store.bindAll j params arguments } := by
  induction params generalizing s arguments with
  | nil => rfl
  | cons param params ih =>
    cases arguments with
    | nil => rfl
    | cons argument arguments =>
      have hdefine : defineIn j param.lexeme argument s =
          .ok () { s with store := s.store.bind j param.lexeme argument } := by
        rw [defineIn, if_pos hj]
      show EStateM.bind (defineIn j param.lexeme argument) _ s = _
      simp only [EStateM.bind, hdefine]
      refine ih arguments { s with store := s.store.bind j param.lexeme argument } ?_
      rw [ScopeStore.size_bind]
      exact hj

/-- Leaving twice is leaving once, if the first way out does not fail. -/
theorem thenLeave_thenLeave (x : Exec α) {leave leave' : Exec Unit}
    (htotal : ∀ s, ∃ s', leave s = .ok () s') (s : State) :
    thenLeave (thenLeave x leave) leave' s = thenLeave x (do leave; leave') s := by
  have hbind : ∀ s s', leave s = .ok () s' → EStateM.bind leave (fun _ => leave') s = leave' s' := by
    intro s s' hs
    simp only [EStateM.bind, hs]
  show thenLeave (thenLeave x leave) leave' s = thenLeave x (EStateM.bind leave fun _ => leave') s
  unfold Exec.thenLeave
  cases x s with
  | ok a s₁ =>
    obtain ⟨s₂, hs₂⟩ := htotal s₁
    simp only [hs₂, hbind s₁ s₂ hs₂]
  | error halt s₁ =>
    obtain ⟨s₂, hs₂⟩ := htotal s₁
    simp only [hs₂, hbind s₁ s₂ hs₂]

/-- A function body runs one call deeper, in a new scope with its parameters, which is left in the
end. -/
theorem insideBody_apply {rules : Rules}
    (htotal : ∀ previous scope s, ∃ s', rules.leaveScope previous scope s = .ok () s')
    (closure : ScopeId) (params : List Token) (arguments : List Value) (x : Exec Flow) (s : State) :
    insideBody rules closure params arguments x s =
      thenLeave x (do rules.leaveScope s.current s.store.size; leaveCall s.loopDepth)
        { s with
          store := (s.store.push closure).bindAll s.store.size params arguments
          current := s.store.size
          loopDepth := 0
          callDepth := s.callDepth + 1 } := by
  have hheld : s.store.size < (s.store.push closure).size := by
    rw [ScopeStore.size_push]
    exact Nat.lt_succ_self _
  have hbind := bindParams_eq params arguments { s with store := s.store.push closure } hheld
  show EStateM.bind (bindParams s.store.size params arguments) _
    { s with store := s.store.push closure } = _
  simp only [EStateM.bind, hbind]
  exact thenLeave_thenLeave x (htotal s.current s.store.size) _

/-- Leaving a scope that was opened on top of a sound state leads back to that state. In between
something ran in the scope, at other depths perhaps. -/
theorem State.Sound.leave (h : s.Sound P) {e : ScopeId} {s₁ : State} (hsound : s₁.Sound P)
    (hkeeps : (s.store.push e).Keeps s₁.store)
    (hcaptured : nested = false → ∀ i, s₁.store.Captured i → s.store.Captured i) :
    let s₂ : State :=
      { s₁ with current := s.current, store := s₁.store.release s.store.size,
                loopDepth := s.loopDepth, callDepth := s.callDepth }
    s.Follows nested s₂ ∧ s₂.Sound P := by
  refine ⟨⟨⟨rfl, rfl, rfl, hkeeps.release h.store.top⟩, ?_⟩, hsound.store.release, ?_,
    hsound.values.release _⟩
  · intro hn i hi
    exact hcaptured hn i (ScopeStore.captured_release_iff.1 hi)
  · exact Nat.lt_of_lt_of_le h.current (ScopeStore.size_le_release h.store.top hkeeps)

/-- Ways to end whose value fits. -/
def FlowFits (P : Role → Token → Prop) (s : State) (flow : Flow) : Prop :=
  ∃ flow', flow.Matches (.only P) s.store.links flow'

theorem FlowFits.mono (h : ∀ i, s.store.Captured i → s'.store.Captured i) {flow : Flow}
    (hflow : FlowFits P s flow) : FlowFits P s' flow := by
  obtain ⟨flow', hflow⟩ := hflow
  exact ⟨flow', hflow.mono (ScopeStore.links_mono h) fun _ _ => id⟩

/-- A sound state stays sound when a scope is opened in it and made the current one. -/
theorem State.Sound.enter (h : s.Sound P) {e : ScopeId} (he : e < s.store.size)
    (loopDepth callDepth : Nat) :
    State.Sound P { s with
      store := s.store.push e, current := s.store.size, loopDepth, callDepth } where
  store := h.store.push he
  current := by
    rw [ScopeStore.size_push]
    exact Nat.lt_succ_self _
  values := h.values.push e

theorem insideBlock_endsSound (h : s.Sound P) {x : Exec Flow}
    (hx : ∀ s₁ : State, s₁.Sound P → s₁.loopDepth = s.loopDepth → s₁.callDepth = s.callDepth →
      EndsSound P nested s₁ (FlowFits P) (x s₁)) :
    EndsSound P nested s (FlowFits P) (insideBlock (Rules.nesting nested) x s) := by
  have henter := h.enter h.current s.loopDepth s.callDepth
  rw [insideBlock_apply]
  refine EndsSound.thenLeave (hx _ henter rfl rfl) ?_
  intro s₁ hfollows hsound
  have hback := h.leave hsound hfollows.restores.keeps fun hn i hi =>
    ScopeStore.captured_push_iff.1 (hfollows.captured hn i hi)
  refine ⟨_, rfl, ?_, hback.2.of_same rfl rfl, ?_⟩
  · refine hback.1.trans (.of_same rfl rfl ?_ ?_)
    · exact hfollows.restores.loopDepth
    · exact hfollows.restores.callDepth
  · intro flow hflow
    exact hflow.mono fun i hi => ScopeStore.captured_release_iff.2 hi

theorem insideLoop_endsSound (h : s.Sound P) {x : Exec Flow}
    (hx : ∀ s₁ : State, s₁.Sound P → s₁.loopDepth ≠ 0 → s₁.callDepth = s.callDepth →
      EndsSound P nested s₁ (FlowFits P) (x s₁)) :
    EndsSound P nested s (FlowFits P) (insideLoop x s) := by
  refine EndsSound.thenLeave (hx _ (h.of_same rfl rfl) (Nat.succ_ne_zero _) rfl) ?_
  intro s₁ hfollows hsound
  have hdepth : s₁.loopDepth = s.loopDepth + 1 := hfollows.restores.loopDepth
  refine ⟨_, leaveLoop_of_succ hdepth, ?_, hsound.of_same rfl rfl, fun flow hflow => hflow⟩
  exact ⟨⟨hfollows.restores.current, rfl, hfollows.restores.callDepth, hfollows.restores.keeps⟩,
    hfollows.captured⟩

/-- What is in the first of two related lists has a partner in the second. -/
theorem exists_of_forall₂ {γ δ : Type} {R : γ → δ → Prop} {as : List γ} {bs : List δ}
    (h : List.Forall₂ R as bs) {a : γ} (ha : a ∈ as) : ∃ b, b ∈ bs ∧ R a b := by
  induction h with
  | nil => cases ha
  | cons hr _ ih =>
    rcases List.mem_cons.1 ha with rfl | ha
    · exact ⟨_, List.mem_cons_self, hr⟩
    · obtain ⟨b, hb, hr⟩ := ih ha
      exact ⟨b, List.mem_cons_of_mem _ hb, hr⟩

theorem bindAll_sound (nested : Bool) (j : ScopeId) (params : List Token) {arguments : List Value}
    (h : s.Sound P) (harguments : ∀ v ∈ arguments, v.Fits P s.store) :
    s.Follows nested { s with store := s.store.bindAll j params arguments } ∧
    State.Sound P { s with store := s.store.bindAll j params arguments } := by
  induction params generalizing s arguments with
  | nil => exact ⟨.refl s, h⟩
  | cons param params ih =>
    cases arguments with
    | nil => exact ⟨.refl s, h⟩
    | cons argument arguments =>
      have hsound := h.bind j param.lexeme (harguments _ List.mem_cons_self)
      obtain ⟨hfollows', hsound'⟩ := ih hsound fun v hv =>
        (harguments v (List.mem_cons_of_mem _ hv)).mono fun i hi =>
          ScopeStore.captured_bind_iff.2 hi
      exact ⟨.trans (.bind s j param.lexeme argument) hfollows', hsound'⟩

theorem insideBody_endsSound (h : s.Sound P) {closure : ScopeId} (hclosure : s.store.Captured closure)
    {params : List Token} {arguments : List Value} (harguments : ∀ v ∈ arguments, v.Fits P s.store)
    {x : Exec Flow} (hx : ∀ s₁ : State, s₁.Sound P → s₁.callDepth ≠ 0 →
      EndsSound P nested s₁ (FlowFits P) (x s₁)) :
    EndsSound P nested s (FlowFits P)
      (insideBody (Rules.nesting nested) closure params arguments x s) := by
  have htotal : ∀ previous scope s, ∃ s',
      (Rules.nesting nested).leaveScope previous scope s = .ok () s' := fun _ _ _ => ⟨_, rfl⟩
  rw [insideBody_apply htotal]
  have henter := h.enter hclosure.lt_size 0 (s.callDepth + 1)
  obtain ⟨hbound, hsound₀⟩ := bindAll_sound nested s.store.size params henter fun v hv =>
    (harguments v hv).mono fun i hi => ScopeStore.captured_push_iff.2 hi
  refine EndsSound.thenLeave (hx _ hsound₀ (Nat.succ_ne_zero _)) ?_
  -- the parameters are bound before the depths change, so both steps count from the entry
  intro s₁ hfollows hsound
  have hfollows := hbound.trans hfollows
  have hdepth : s₁.callDepth = s.callDepth + 1 := hfollows.restores.callDepth
  have hback := h.leave hsound hfollows.restores.keeps fun hn i hi =>
    ScopeStore.captured_push_iff.1 (hfollows.captured hn i hi)
  let left : State := { s₁ with current := s.current, store := s₁.store.release s.store.size }
  refine ⟨_, leaveCall_of_succ (s := left) hdepth s.loopDepth, hback.1, hback.2, ?_⟩
  intro flow hflow
  exact hflow.mono fun i hi => ScopeStore.captured_release_iff.2 hi

end

/-! ## The machine -/

/-- The steps of one machine from sound states, as a comparison: what a step meets is a world, and
the other machine plays no part. -/
def soundness (P : Role → Token → Prop) (nested : Bool) (host : Host) :
    Comparison (.only P) (Rules.nesting nested) (Rules.nesting nested) host host where
  World := State
  Later := State.Follows nested
  links s := s.store.links
  Allows s p := (p.inLoop = true → s.loopDepth ≠ 0) ∧ (p.inFunction = true → s.callDepth ≠ 0)
  Rel s Q x _ := s.Sound P → EndsSound P nested s (fun s' a => ∃ b, Q s' a b) (x s)
  scopes_later h := ScopeStore.links_mono fun _ hi => h.restores.keeps.captured hi
  identities_later _ _ _ hi := hi
  identities_iff _ _ _ _ := by
    rintro rfl rfl
    exact Iff.rfl
  allows_later h hp := by
    rw [h.restores.loopDepth, h.restores.callDepth]
    exact hp
  pure hQ h := ⟨.refl _, h, _, hQ⟩
  bind hx hf h := (hx h).bind fun s' a hfollows hsound ⟨b, hQ⟩ => hf s' a b hfollows hQ hsound
  spent h := ⟨.refl _, h, trivial⟩
  fail hraises ht h := ⟨.refl _, h, _, hraises, ht.2⟩
  noOperator hadmits ht h := ⟨.refl _, h, _, hadmits, ht.2⟩
  depths h := ⟨.refl _, h, _, rfl, rfl, fun _ hp => hp⟩
  write text h := by
    unfold writeLine
    split
    · exact ⟨.of_same rfl rfl rfl rfl, h.of_same rfl rfl, (), trivial⟩
    · exact ⟨.of_same rfl rfl rfl rfl, h.of_same rfl rfl, trivial⟩
  newIdentity h := ⟨.of_same rfl rfl rfl rfl, h.of_same rfl rfl, _, rfl⟩
  clock h := ⟨.of_same rfl rfl rfl rfl, h.of_same rfl rfl, _, rfl⟩
  global name h := by
    refine ⟨.refl _, h, ?_⟩
    show ∃ b, Option.Rel _ (ScopeStore.getLocal? _ _ _) b
    unfold ScopeStore.getLocal?
    obtain ⟨g, hg, -⟩ := h.store.root
    rw [hg, Option.bind_some]
    cases hfind : g.bindings.find? name with
    | none => exact ⟨none, .none⟩
    | some value =>
      obtain ⟨value', hvalue⟩ := h.values.find hg hfind
      exact ⟨some value', .some hvalue⟩
  read ht h := readName_endsSound h ht.2
  assign ht hv h := (assignName_endsSound h ht.2 ⟨_, hv⟩).mono fun _ _ _ => ⟨(), trivial⟩
  declareVariable _ ht hv h :=
    (defineIn_endsSound h h.current _ ⟨_, hv⟩).mono fun _ _ _ => ⟨(), trivial⟩
  declareFunction _ ht hparams hbody h :=
    (declareFunction_endsSound h ht.2 hparams hbody).mono fun _ _ _ => ⟨(), trivial⟩
  block hx h := insideBlock_endsSound h fun s₁ hs₁ hloop hcall =>
    hx s₁ (fun p hp => by rwa [hloop, hcall]) hs₁
  loop hx h := insideLoop_endsSound h fun s₁ hs₁ hloop hcall =>
    hx s₁ (fun p hp => ⟨fun _ => hloop, by rw [hcall]; exact hp.2⟩) hs₁
  body hc _ harguments hx h := by
    refine insideBody_endsSound h hc.2 ?_ fun s₁ hs₁ hcall =>
      hx s₁ ⟨fun hfalse => absurd hfalse Bool.false_ne_true, fun _ => hcall⟩ hs₁
    intro v hv
    obtain ⟨v', -, hmatch⟩ := exists_of_forall₂ harguments hv
    exact ⟨v', hmatch⟩

section

variable {P : Role → Token → Prop} {host : Host} {s : State}

theorem eval_endsSound (hs : s.Sound P) (n : Nat) {e : Expr} (he : e.Every P) :
    EndsSound P true s (fun s' v => v.Fits P s'.store) (eval host n e s) := by
  rw [eval, ← Rules.nesting_true]
  exact ((soundness P true host).machine_related n).1 s e e he.matches_self hs

theorem exec_endsSound (hs : s.Sound P) (n : Nat) {statement : Stmt}
    (hstatement : statement.Every P .top) :
    EndsSound P true s (FlowFits P) (exec host n statement s) := by
  rw [exec, ← Rules.nesting_true]
  refine ((soundness P true host).machine_related n).2.1 s .top statement statement ?_
    hstatement.matches_self hs
  exact ⟨fun hf => absurd hf Bool.false_ne_true, fun hf => absurd hf Bool.false_ne_true⟩

end

end GradedScript
