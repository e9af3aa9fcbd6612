import GradedScript.Proofs.Machine.Companions
import GradedScript.Proofs.Scope.Sharing

/-!
# Two runs in lockstep

Two machines run matching trees from two states of which they see the same: the scopes in sight are
alike, equally many functions are running, and both channels have the same room. They then do the
same, step by step (`lockstep`). They write the same text, their halts match, and the functions and
test cases they make correspond in the order they are made; scopes out of sight are left as they
were.

Which scopes are in sight and where the runs began is their `Setting`.
-/

namespace GradedScript

open Exec

/-! ## Output

What was written before does not matter, only how much room is left. -/

/-- How many bytes a channel still takes, if that is limited. -/
def Output.room (o : Output) : Option Nat :=
  o.limit.map (· - o.written.size)

/-- Channels with the same room take the same of what is written, and have the same room then. -/
theorem Output.write_alike {o o' : Output} (h : o'.room = o.room) (bytes : ByteArray) :
    ∃ text taken, o.write bytes = ({ o with written := o.written ++ text }, taken) ∧
      o'.write bytes = ({ o' with written := o'.written ++ text }, taken) ∧
      Output.room { o' with written := o'.written ++ text } =
        Output.room { o with written := o.written ++ text } := by
  obtain ⟨written, limit⟩ := o
  obtain ⟨written', limit'⟩ := o'
  unfold Output.room at h ⊢
  unfold Output.write
  dsimp only at h ⊢
  cases limit with
  | none =>
    obtain rfl : limit' = none := Option.map_eq_none_iff.1 h
    exact ⟨bytes, true, rfl, rfl, rfl⟩
  | some most =>
    obtain ⟨most', rfl, hroom⟩ := Option.map_eq_some_iff.1 h
    have hroom : most' - written'.size = most - written.size := hroom
    have hrest : ∀ text : ByteArray,
        most' - (written' ++ text).size = most - (written ++ text).size := by
      intro text
      rw [ByteArray.size_append, ByteArray.size_append]
      omega
    simp only [hroom, Option.map_some, hrest, and_true]
    split
    · exact ⟨bytes, true, rfl, rfl⟩
    · exact ⟨bytes.extract 0 (most - written.size), false, rfl, rfl⟩

/-! ## Identities

Identities are given in order, so those of two runs correspond by when they were given. -/

/-- Identities correspond if they were given before the runs began and are the same, or if they are
given by the runs, equally late. -/
inductive SameIdentity (next next' : Nat) : Nat → Nat → Prop
  | old {i} (h : i < next) (h' : i < next') : SameIdentity next next' i i
  | new (k) : SameIdentity next next' (next + k) (next' + k)

theorem SameIdentity.eq_iff {next next' i i' j j' : Nat} (hi : SameIdentity next next' i i')
    (hj : SameIdentity next next' j j') : i = j ↔ i' = j' := by
  cases hi <;> cases hj <;> omega

/-! ## Settings -/

/-- Halts that match: for the same reason, at matching tokens. -/
inductive Halt.Matches (T : TokenMatch) : Halt → Halt → Prop
  | fault {role t t' fault} (hraises : Role.raises role fault = true) (ht : T.Rel role t t') :
      Matches T (.fault ⟨fault, t⟩) (.fault ⟨fault, t'⟩)
  | noOperator {role t t'} (ht : T.Rel role t t') :
      Matches T (.stuck (.noOperator t)) (.stuck (.noOperator t'))
  | outputClosed : Matches T .outputClosed .outputClosed
  | outOfBudget : Matches T .outOfBudget .outOfBudget

/-- The states of two machines. -/
structure Pair where
  left : State
  right : State

/-- Where two runs began, and what they see. -/
structure Setting where
  view : View
  start : Pair

namespace Setting

/-- How the identities that the first machine has given correspond to those of the second. -/
def identities (S : Setting) (w : Pair) (i i' : Nat) : Prop :=
  SameIdentity S.start.left.nextIdentity S.start.right.nextIdentity i i' ∧ i < w.left.nextIdentity

/-- How functions correspond. -/
def links (S : Setting) (w : Pair) : Links :=
  w.left.store.linksBy (S.identities w)

/-- What the machines have of the same, wherever in their programs they are. -/
structure InStep (S : Setting) (T : TokenMatch) (w : Pair) : Prop where
  stores : ScopeStore.InStep T (S.identities w) S.view w.left.store w.right.store
  callDepth : w.right.callDepth = w.left.callDepth
  /-- both have given equally many identities -/
  identity : ∃ k, w.left.nextIdentity = S.start.left.nextIdentity + k ∧
    w.right.nextIdentity = S.start.right.nextIdentity + k
  /-- both have read the clock equally often -/
  clock : ∃ k, w.left.clockReads = S.start.left.clockReads + k ∧
    w.right.clockReads = S.start.right.clockReads + k
  /-- both have written the same -/
  written : ∃ text, w.left.output.written = S.start.left.output.written ++ text ∧
    w.right.output.written = S.start.right.output.written ++ text
  room : w.right.output.room = w.left.output.room
  limit : w.left.output.limit = S.start.left.output.limit

/-- The machines are in step, and at the same place of matching programs. -/
structure Sound (S : Setting) (T : TokenMatch) (w : Pair) : Prop extends S.InStep T w where
  current : w.right.current = w.left.current
  sees : S.view.Sees w.left.current
  held : w.left.current < w.left.store.size
  loopDepth : w.right.loopDepth = w.left.loopDepth

/-- Something ran and ended, perhaps with a halt: both machines are back where they were, and what
is out of sight is as it was. -/
structure Later (S : Setting) (w w' : Pair) : Prop where
  left : w.left.Restores w'.left
  right : w.right.Restores w'.right
  identity : w.left.nextIdentity ≤ w'.left.nextIdentity
  beyond : ScopeStore.SameBeyond S.view w.left.store w'.left.store
  beyond' : ScopeStore.SameBeyond S.view w.right.store w'.right.store

section

variable {S : Setting} {T : TokenMatch} {w w' w'' : Pair}

theorem Later.trans (h : S.Later w w') (h' : S.Later w' w'') : S.Later w w'' where
  left := h.left.trans h'.left
  right := h.right.trans h'.right
  identity := h.identity.trans h'.identity
  beyond := h.beyond.trans h'.beyond
  beyond' := h.beyond'.trans h'.beyond'

theorem Later.refl (S : Setting) (w : Pair) : S.Later w w where
  left := ⟨rfl, rfl, rfl, .refl _⟩
  right := ⟨rfl, rfl, rfl, .refl _⟩
  identity := Nat.le_refl _
  beyond := .refl _ _
  beyond' := .refl _ _

theorem identities_later (h : w.left.nextIdentity ≤ w'.left.nextIdentity) (i i' : Nat)
    (hi : S.identities w i i') : S.identities w' i i' :=
  ⟨hi.1, Nat.lt_of_lt_of_le hi.2 h⟩

/-- What is in step stays at the same place, since both machines are back where they were. -/
theorem Sound.later (h : S.Sound T w) (hlater : S.Later w w') (hstep : S.InStep T w') :
    S.Sound T w' where
  toInStep := hstep
  current := by
    rw [hlater.right.current, hlater.left.current]
    exact h.current
  sees := by
    rw [hlater.left.current]
    exact h.sees
  held := by
    rw [hlater.left.current]
    exact Nat.lt_of_lt_of_le h.held hlater.left.keeps.size_le
  loopDepth := by
    rw [hlater.right.loopDepth, hlater.left.loopDepth]
    exact h.loopDepth

/-- The states of two machines as a kind of worlds. What the machines have in common when something
has ended is that they are in step. -/
def companions (S : Setting) (T : TokenMatch) : Companions Pair where
  left := Pair.left
  right := Pair.right
  Later := S.Later
  Sound := S.InStep T
  Halts := Halt.Matches T
  refl := Later.refl S
  trans := Later.trans

/-- What is known of the results of two steps that start in lockstep. -/
abbrev EndsAlike {α β : Type} (S : Setting) (T : TokenMatch) (w : Pair) (Q : Pair → α → β → Prop) :
    EStateM.Result Halt State α → EStateM.Result Halt State β → Prop :=
  (S.companions T).EndsAlike w Q

/-! ## Names -/

theorem Sound.held_right (h : S.Sound T w) : w.right.current < w.right.store.size := by
  rw [h.current]
  exact h.stores.lt_right h.held

/-- Names are looked up alike from the current scopes. -/
theorem Sound.resolve_alike (h : S.Sound T w) {name name' : String} (hname : name = name') :
    ScopeStore.ResolvesAlike (fun owner owner' => owner' = owner ∧ S.view.Sees owner)
      (Value.Matches T (S.links w)) (w.left.store.resolve name w.left.current)
      (w.right.store.resolve name' w.right.current) := by
  rw [← hname, h.current]
  exact h.stores.resolve_alike h.sees h.held name

theorem readName_endsAlike (h : S.Sound T w) {t t' : Token} (ht : T.Rel .read t t') :
    S.EndsAlike T w (fun w => Value.Matches T (S.links w)) (readName t w.left)
      (readName t' w.right) := by
  have hlexeme := T.lexeme_eq ht
  refine Companions.EndsAlike.readName h.toInStep (h.resolve_alike hlexeme) ?_
  rw [← hlexeme]
  exact .fault rfl ht

/-- Binding a name in a scope in sight. -/
theorem InStep.bind (h : S.InStep T w) {j j' : ScopeId} (hjj' : j' = j) (hj : S.view.Sees j)
    (name : String) {value value' : Value} (hvalue : value.Matches T (S.links w) value') :
    let w' : Pair := ⟨{ w.left with store := w.left.store.bind j name value },
      { w.right with store := w.right.store.bind j' name value' }⟩
    S.Later w w' ∧ S.InStep T w' := by
  subst hjj'
  refine ⟨⟨⟨rfl, rfl, rfl, .bind _ _ name value⟩, ⟨rfl, rfl, rfl, .bind _ _ name value'⟩,
    Nat.le_refl _, ?_, ?_⟩, ?_⟩
  · exact ScopeStore.sameBeyond_update hj _
  · exact ScopeStore.sameBeyond_update hj _
  · exact { h with stores := h.stores.bind _ name hvalue }

theorem assignName_endsAlike (h : S.Sound T w) {t t' : Token} (ht : T.Rel .assigned t t')
    {value value' : Value} (hvalue : value.Matches T (S.links w) value') :
    S.EndsAlike T w (fun _ _ _ => True) (assignName t value w.left)
      (assignName t' value' w.right) := by
  have hlexeme := T.lexeme_eq ht
  refine Companions.EndsAlike.assignName h.toInStep (h.resolve_alike hlexeme) ?_ ?_
  · rw [← hlexeme]
    exact .fault rfl ht
  · rintro owner _ ⟨rfl, howner⟩
    obtain ⟨hlater, hstep⟩ := h.toInStep.bind rfl howner t.lexeme hvalue
    rw [← hlexeme]
    exact .ok _ rfl rfl hlater hstep trivial

theorem defineName_endsAlike (h : S.Sound T w) (name : String) {value value' : Value}
    (hvalue : value.Matches T (S.links w) value') :
    S.EndsAlike T w (fun _ _ _ => True) (defineName name value w.left)
      (defineName name value' w.right) := by
  obtain ⟨hlater, hstep⟩ := h.toInStep.bind h.current h.sees name hvalue
  exact Companions.EndsAlike.defineName h.held h.held_right (.ok _ rfl rfl hlater hstep trivial)

/-- Giving an identity in both machines. -/
theorem InStep.newIdentity (h : S.InStep T w) :
    let w' : Pair := ⟨{ w.left with nextIdentity := w.left.nextIdentity + 1 },
      { w.right with nextIdentity := w.right.nextIdentity + 1 }⟩
    S.InStep T w' ∧ S.identities w' w.left.nextIdentity w.right.nextIdentity := by
  obtain ⟨k, hk, hk'⟩ := h.identity
  refine ⟨{ h with stores := ?_, identity := ⟨k + 1, ?_, ?_⟩ }, ?_, Nat.lt_succ_self _⟩
  · exact h.stores.mono (identities_later (Nat.le_succ _))
  · exact congrArg (· + 1) hk
  · exact congrArg (· + 1) hk'
  · rw [hk, hk']
    exact .new k

theorem declareFunction_endsAlike (h : S.Sound T w) {t t' : Token} (ht : T.Rel .functionName t t')
    {params params' : List Token} {body body' : List Stmt}
    (hparams : List.Forall₂ (T.Rel .parameter) params params')
    (hbody : List.Forall₂ (Stmt.Matches T .body) body body') :
    S.EndsAlike T w (fun _ _ _ => True) (Exec.declareFunction t params body w.left)
      (Exec.declareFunction t' params' body' w.right) := by
  have hmarked := h.stores.left.marked_markOutward h.held
  have hmarked' := h.stores.right.marked_markOutward h.held_right
  rw [declareFunction_eq h.stores.left.nested h.held hmarked,
    declareFunction_eq h.stores.right.nested h.held_right hmarked', ← T.lexeme_eq ht]
  obtain ⟨-, hbeyond, hbeyond'⟩ := h.stores.sameShape.markOutward h.sees
  have hstores := h.stores.markOutward h.sees h.held
  rw [← h.current] at hbeyond'
  -- both capture the current scope and make the function, and then bind the name
  let w₁ : Pair := ⟨{ w.left with store := w.left.store.markOutward w.left.current },
    { w.right with store := w.right.store.markOutward w.right.current }⟩
  have hstep₁ : S.InStep T w₁ := by
    refine { h.toInStep with stores := ?_ }
    show ScopeStore.InStep T _ _ _ (w.right.store.markOutward w.right.current)
    rw [h.current]
    exact hstores
  obtain ⟨hstep₂, hidentity⟩ := hstep₁.newIdentity
  let w₂ : Pair := ⟨{ w₁.left with nextIdentity := w.left.nextIdentity + 1 },
    { w₁.right with nextIdentity := w.right.nextIdentity + 1 }⟩
  have hlater₂ : S.Later w w₂ := ⟨⟨rfl, rfl, rfl, .of_marked hmarked⟩,
    ⟨rfl, rfl, rfl, .of_marked hmarked'⟩, Nat.le_succ _, hbeyond, hbeyond'⟩
  have hclosure : (S.links w₂).scopes w.left.current w.right.current :=
    ⟨h.current.symm, h.stores.left.captured_markOutward h.held⟩
  have hfunction := Value.Matches.function
    (Function.Matches.script hidentity ht hparams hbody hclosure)
  obtain ⟨hlater₃, hstep₃⟩ := hstep₂.bind h.current h.sees t.lexeme hfunction
  exact .ok _ rfl rfl (hlater₂.trans hlater₃) hstep₃ trivial

/-! ## Scopes, loops and calls

Both machines open a scope at the same index, on top of stores of the same size, and release it in
the end. Scopes out of sight are not touched in between. -/

/-- Leaving scopes that were opened on top leads back to where the machines were. -/
theorem InStep.leave (h : S.InStep T w) {w₁ : Pair} (h₁ : S.InStep T w₁) {e e' : ScopeId}
    (hkeeps : (w.left.store.push e).Keeps w₁.left.store)
    (hkeeps' : (w.right.store.push e').Keeps w₁.right.store)
    (hidentity : w.left.nextIdentity ≤ w₁.left.nextIdentity)
    (hbeyond : ScopeStore.SameBeyond S.view w.left.store w₁.left.store)
    (hbeyond' : ScopeStore.SameBeyond S.view w.right.store w₁.right.store)
    {loops calls loops' calls' : Nat} (hloops : loops = w.left.loopDepth)
    (hcalls : calls = w.left.callDepth) (hloops' : loops' = w.right.loopDepth)
    (hcalls' : calls' = w.right.callDepth) :
    let w₂ : Pair :=
      ⟨{ w₁.left with current := w.left.current, store := w₁.left.store.release w.left.store.size,
                      loopDepth := loops, callDepth := calls },
        { w₁.right with current := w.right.current,
                        store := w₁.right.store.release w.right.store.size,
                        loopDepth := loops', callDepth := calls' }⟩
    S.Later w w₂ ∧ S.InStep T w₂ ∧ ∀ c c', (S.links w₁).scopes c c' → (S.links w₂).scopes c c' := by
  subst hloops hcalls hloops' hcalls'
  have hsize := ScopeStore.size_le_release h.stores.left.top hkeeps
  have hsize' := ScopeStore.size_le_release h.stores.right.top hkeeps'
  have hbase := h.stores.base_le
  have hbase' : S.view.base ≤ w.right.store.size := h.stores.size_eq ▸ hbase
  refine ⟨⟨⟨rfl, rfl, rfl, hkeeps.release h.stores.left.top⟩,
    ⟨rfl, rfl, rfl, hkeeps'.release h.stores.right.top⟩, hidentity, ?_, ?_⟩, ?_, ?_⟩
  · exact hbeyond.trans (ScopeStore.sameBeyond_release hbase (hbase.trans hsize))
  · exact hbeyond'.trans (ScopeStore.sameBeyond_release hbase' (hbase'.trans hsize'))
  · refine { h₁ with stores := ?_, callDepth := h.callDepth }
    rw [h.stores.size_eq] at hsize' hbase' ⊢
    exact h₁.stores.release w.left.store.size (hbase.trans hsize) (hbase.trans hsize')
  · intro c c' hc
    exact ⟨hc.1, ScopeStore.captured_release_iff.2 hc.2⟩

theorem insideBlock_endsAlike (h : S.Sound T w) {x y : Exec Flow}
    (hxy : ∀ w₁ : Pair, S.Sound T w₁ → w₁.left.loopDepth = w.left.loopDepth →
      w₁.left.callDepth = w.left.callDepth →
      S.EndsAlike T w₁ (fun w => Flow.Matches T (S.links w)) (x w₁.left) (y w₁.right)) :
    S.EndsAlike T w (fun w => Flow.Matches T (S.links w)) (insideBlock .standard x w.left)
      (insideBlock .standard y w.right) := by
  rw [insideBlock_apply, insideBlock_apply]
  have hbase := h.stores.base_le
  have hbase' : S.view.base ≤ w.right.store.size := h.stores.size_eq ▸ hbase
  let start : Pair :=
    ⟨{ w.left with store := w.left.store.push w.left.current, current := w.left.store.size },
      { w.right with store := w.right.store.push w.right.current,
                     current := w.right.store.size }⟩
  have hstores : ScopeStore.InStep T (S.identities w) S.view (w.left.store.push w.left.current)
      (w.right.store.push w.right.current) := by
    rw [h.current]
    exact h.stores.push h.sees h.held
  have hheld : w.left.store.size < (w.left.store.push w.left.current).size := by
    rw [ScopeStore.size_push]
    exact Nat.lt_succ_self _
  have hstart : S.Sound T start :=
    { h with
      stores := hstores
      current := h.stores.size_eq
      sees := S.view.sees_of_le _ hbase
      held := hheld }
  have hsteps := hxy start hstart rfl rfl
  refine Companions.EndsAlike.thenLeave hsteps ?_
  intro w₁ hlater hstep
  have hloop : w₁.left.loopDepth = w.left.loopDepth := hlater.left.loopDepth
  have hloop' : w₁.right.loopDepth = w.right.loopDepth := hlater.right.loopDepth
  have hcall : w₁.left.callDepth = w.left.callDepth := hlater.left.callDepth
  have hcall' : w₁.right.callDepth = w.right.callDepth := hlater.right.callDepth
  have hbeyond := (ScopeStore.sameBeyond_push hbase w.left.current).trans hlater.beyond
  have hbeyond' := (ScopeStore.sameBeyond_push hbase' w.right.current).trans hlater.beyond'
  obtain ⟨hback, hstep₂, hlinks⟩ := h.toInStep.leave hstep hlater.left.keeps hlater.right.keeps
    hlater.identity hbeyond hbeyond' hloop hcall hloop' hcall'
  exact ⟨_, rfl, rfl, hback, hstep₂, fun _ _ hflow => hflow.mono hlinks fun _ _ => id⟩

theorem insideLoop_endsAlike (h : S.Sound T w) {x y : Exec Flow}
    (hxy : ∀ w₁ : Pair, S.Sound T w₁ → w₁.left.loopDepth ≠ 0 →
      w₁.left.callDepth = w.left.callDepth →
      S.EndsAlike T w₁ (fun w => Flow.Matches T (S.links w)) (x w₁.left) (y w₁.right)) :
    S.EndsAlike T w (fun w => Flow.Matches T (S.links w)) (insideLoop x w.left)
      (insideLoop y w.right) := by
  let start : Pair := ⟨{ w.left with loopDepth := w.left.loopDepth + 1 },
    { w.right with loopDepth := w.right.loopDepth + 1 }⟩
  have hstart : S.Sound T start := { h with loopDepth := congrArg (· + 1) h.loopDepth }
  have hsteps := hxy start hstart (Nat.succ_ne_zero _) rfl
  refine Companions.EndsAlike.thenLeave hsteps ?_
  intro w₁ hlater hstep
  have hloop : w₁.left.loopDepth = w.left.loopDepth + 1 := hlater.left.loopDepth
  have hloop' : w₁.right.loopDepth = w.right.loopDepth + 1 := hlater.right.loopDepth
  let w₂ : Pair := ⟨{ w₁.left with loopDepth := w.left.loopDepth },
    { w₁.right with loopDepth := w.right.loopDepth }⟩
  exact ⟨w₂, leaveLoop_of_succ hloop, leaveLoop_of_succ hloop',
    ⟨⟨hlater.left.current, rfl, hlater.left.callDepth, hlater.left.keeps⟩,
      ⟨hlater.right.current, rfl, hlater.right.callDepth, hlater.right.keeps⟩, hlater.identity,
      hlater.beyond, hlater.beyond'⟩, { hstep with }, fun _ _ hflow => hflow⟩

/-- Binding parameters in a scope in sight. -/
theorem bindAll_inStep {I : Nat → Nat → Prop} {V : View} {a b : ScopeStore} {j : ScopeId}
    (h : ScopeStore.InStep T I V a b) (hj : V.Sees j) {params params' : List Token}
    (hparams : List.Forall₂ (T.Rel .parameter) params params') {arguments arguments' : List Value}
    (harguments : List.Forall₂ (Value.Matches T (a.linksBy I)) arguments arguments') :
    ScopeStore.InStep T I V (a.bindAll j params arguments) (b.bindAll j params' arguments') ∧
      ScopeStore.SameBeyond V a (a.bindAll j params arguments) ∧
      ScopeStore.SameBeyond V b (b.bindAll j params' arguments') := by
  induction hparams generalizing a b arguments arguments' with
  | nil => exact ⟨h, .refl V a, .refl V b⟩
  | @cons param param' params params' hparam _ ih =>
    cases harguments with
    | nil => exact ⟨h, .refl V a, .refl V b⟩
    | @cons v v' arguments arguments' hv hrest =>
      have hmono : ∀ c c', (a.linksBy I).scopes c c' →
          ((a.bind j param.lexeme v).linksBy I).scopes c c' :=
        ScopeStore.linksBy_mono fun _ => ScopeStore.captured_bind_iff.2
      have hrest := hrest.imp fun _ _ hv => hv.mono hmono fun _ _ => id
      obtain ⟨hstep, hbeyond, hbeyond'⟩ := ih (h.bind j param.lexeme hv) hrest
      rw [ScopeStore.bindAll, ScopeStore.bindAll, ← T.lexeme_eq hparam]
      exact ⟨hstep, (ScopeStore.sameBeyond_update hj _).trans hbeyond,
        (ScopeStore.sameBeyond_update hj _).trans hbeyond'⟩

/-- The bodies of functions run in lockstep, even if they are called from different places: all they
see is what the functions see. -/
theorem insideBody_endsAlike (h : S.InStep T w) {c c' : ScopeId} (hclosure : (S.links w).scopes c c')
    {params params' : List Token} (hparams : List.Forall₂ (T.Rel .parameter) params params')
    {arguments arguments' : List Value}
    (harguments : List.Forall₂ (Value.Matches T (S.links w)) arguments arguments')
    {x y : Exec Flow} (hxy : ∀ w₁ : Pair, S.Sound T w₁ → w₁.left.callDepth ≠ 0 →
      S.EndsAlike T w₁ (fun w => Flow.Matches T (S.links w)) (x w₁.left) (y w₁.right)) :
    S.EndsAlike T w (fun w => Flow.Matches T (S.links w))
      (insideBody .standard c params arguments x w.left)
      (insideBody .standard c' params' arguments' y w.right) := by
  have htotal : ∀ previous scope s, ∃ s', Rules.standard.leaveScope previous scope s = .ok () s' :=
    fun _ _ _ => ⟨_, rfl⟩
  obtain ⟨rfl, hcaptured⟩ := hclosure
  have hbase := h.stores.base_le
  have hbase' : S.view.base ≤ w.right.store.size := h.stores.size_eq ▸ hbase
  have hnew : S.view.Sees w.left.store.size := S.view.sees_of_le _ hbase
  have hpush := h.stores.push (h.stores.captured c hcaptured) hcaptured.lt_size
  have hmono : ∀ k k', (S.links w).scopes k k' →
      ((w.left.store.push c).linksBy (S.identities w)).scopes k k' :=
    ScopeStore.linksBy_mono fun _ => ScopeStore.captured_push_iff.2
  obtain ⟨hstores, hbound, hbound'⟩ := bindAll_inStep hpush hnew hparams
    (harguments.imp fun _ _ hv => hv.mono hmono fun _ _ => id)
  rw [insideBody_apply htotal, insideBody_apply htotal, h.stores.size_eq]
  let start : Pair :=
    ⟨{ w.left with
        store := (w.left.store.push c).bindAll w.left.store.size params arguments
        current := w.left.store.size, loopDepth := 0, callDepth := w.left.callDepth + 1 },
      { w.right with
        store := (w.right.store.push c).bindAll w.left.store.size params' arguments'
        current := w.left.store.size, loopDepth := 0, callDepth := w.right.callDepth + 1 }⟩
  have hkept := ScopeStore.Keeps.bindAll (w.left.store.push c) w.left.store.size params arguments
  have hkept' := ScopeStore.Keeps.bindAll (w.right.store.push c) w.left.store.size params' arguments'
  have hheld : w.left.store.size < (w.left.store.push c).size := by
    rw [ScopeStore.size_push]
    exact Nat.lt_succ_self _
  have hstart : S.Sound T start :=
    { h with
      stores := hstores
      callDepth := congrArg (· + 1) h.callDepth
      current := rfl
      sees := hnew
      held := Nat.lt_of_lt_of_le hheld hkept.size_le
      loopDepth := rfl }
  have hsteps := hxy start hstart (Nat.succ_ne_zero _)
  refine Companions.EndsAlike.thenLeave hsteps ?_
  -- the way out goes back over the parameters to where the calls began
  intro w₁ hlater hstep
  have hcall : w₁.left.callDepth = w.left.callDepth + 1 := hlater.left.callDepth
  have hcall' : w₁.right.callDepth = w.right.callDepth + 1 := hlater.right.callDepth
  have hbeyond := ((ScopeStore.sameBeyond_push hbase c).trans hbound).trans hlater.beyond
  have hbeyond' := ((ScopeStore.sameBeyond_push hbase' c).trans hbound').trans hlater.beyond'
  obtain ⟨hback, hstep₂, hlinks⟩ := h.leave hstep (hkept.trans hlater.left.keeps)
    (hkept'.trans hlater.right.keeps) hlater.identity hbeyond hbeyond' rfl rfl rfl rfl
  rw [h.stores.size_eq] at hback hstep₂ hlinks
  let left : State := { w₁.left with
    current := w.left.current, store := w₁.left.store.release w.left.store.size }
  let right : State := { w₁.right with
    current := w.right.current, store := w₁.right.store.release w.left.store.size }
  refine ⟨_, ?_, ?_, hback, hstep₂, fun _ _ hflow => hflow.mono hlinks fun _ _ => id⟩
  · exact leaveCall_of_succ (s := left) hcall w.left.loopDepth
  · exact leaveCall_of_succ (s := right) hcall' w.right.loopDepth

end

end Setting

/-! ## The machines

The steps above make a comparison, where worlds are pairs of states, and the machines do the same by
the induction that was done for all comparisons. -/

/-- Two machines in lockstep, as a comparison. Their clocks must tell the same from where the runs
began. -/
def lockstep (S : Setting) (T : TokenMatch) {host host' : Host}
    (hclock : ∀ k, host.clock (S.start.left.clockReads + k) =
      host'.clock (S.start.right.clockReads + k)) :
    Comparison T .standard .standard host host' where
  World := Pair
  Later := S.Later
  links := S.links
  Allows w p := (p.inLoop = true → w.left.loopDepth ≠ 0) ∧
    (p.inFunction = true → w.left.callDepth ≠ 0)
  Rel w Q x y := S.Sound T w → S.EndsAlike T w Q (x w.left) (y w.right)
  scopes_later h := ScopeStore.linksBy_mono fun _ => h.left.keeps.captured
  identities_later h := Setting.identities_later h.identity
  identities_iff _ _ _ _ hi hj := hi.1.eq_iff hj.1
  allows_later h hp := by
    rw [h.left.loopDepth, h.left.callDepth]
    exact hp
  pure hQ h := .pure h.toInStep hQ
  bind hx hf h := (hx h).bind fun w' a b hlater hstep hQ =>
    hf w' a b hlater hQ (h.later hlater hstep)
  spent h := .halted h.toInStep .outOfBudget
  fail hraises ht h := .halted h.toInStep (.fault hraises ht)
  noOperator _ ht h := .halted h.toInStep (.noOperator ht)
  depths h := .pure h.toInStep ⟨h.loopDepth.symm, h.callDepth.symm, fun _ hp => hp⟩
  write {w} text h := by
    obtain ⟨bytes, taken, hleft, hright, hroom⟩ :=
      Output.write_alike h.room (text ++ "\n").toUTF8
    obtain ⟨before, hbefore, hbefore'⟩ := h.written
    let w' : Pair :=
      ⟨{ w.left with output.written := w.left.output.written ++ bytes },
        { w.right with output.written := w.right.output.written ++ bytes }⟩
    have hstep : S.InStep T w' := by
      refine { h.toInStep with written := ⟨before ++ bytes, ?_, ?_⟩, room := hroom }
      · show w.left.output.written ++ bytes = _
        rw [hbefore, ByteArray.append_assoc]
      · show w.right.output.written ++ bytes = _
        rw [hbefore', ByteArray.append_assoc]
    have hlater : S.Later w w' := { Setting.Later.refl S w with
      left := ⟨rfl, rfl, rfl, .refl _⟩, right := ⟨rfl, rfl, rfl, .refl _⟩ }
    unfold writeLine
    rw [hleft, hright]
    cases taken with
    | true => exact .ok w' rfl rfl hlater hstep trivial
    | false => exact .halt w' rfl rfl hlater hstep .outputClosed
  newIdentity {w} h := by
    obtain ⟨hstep, hidentity⟩ := h.toInStep.newIdentity
    let w' : Pair := ⟨{ w.left with nextIdentity := w.left.nextIdentity + 1 },
      { w.right with nextIdentity := w.right.nextIdentity + 1 }⟩
    have hlater : S.Later w w' := { Setting.Later.refl S w with
      left := ⟨rfl, rfl, rfl, .refl _⟩, right := ⟨rfl, rfl, rfl, .refl _⟩
      identity := Nat.le_succ _ }
    exact .ok w' rfl rfl hlater hstep hidentity
  clock {w} h := by
    obtain ⟨k, hk, hk'⟩ := h.clock
    let w' : Pair := ⟨{ w.left with clockReads := w.left.clockReads + 1 },
      { w.right with clockReads := w.right.clockReads + 1 }⟩
    have hlater : S.Later w w' := { Setting.Later.refl S w with
      left := ⟨rfl, rfl, rfl, .refl _⟩, right := ⟨rfl, rfl, rfl, .refl _⟩ }
    have hstep : S.InStep T w' :=
      { h.toInStep with clock := ⟨k + 1, congrArg (· + 1) hk, congrArg (· + 1) hk'⟩ }
    refine .ok w' rfl rfl hlater hstep ?_
    rw [hk, hk']
    exact hclock k
  global {w} name h := by
    refine .pure h.toInStep ?_
    obtain ⟨g, hg, -⟩ := h.stores.left.root
    obtain ⟨g', hg'⟩ := h.stores.exists_right hg
    show Option.Rel _ (ScopeStore.getLocal? _ _ _) (ScopeStore.getLocal? _ _ _)
    unfold ScopeStore.getLocal?
    rw [hg, hg']
    exact (h.stores.scopes _ g g' (h.stores.captured _ h.stores.left.root) hg hg').bindings name
  read ht h := Setting.readName_endsAlike h ht
  assign ht hv h := Setting.assignName_endsAlike h ht hv
  declareVariable {w _ t t' v v'} _ ht hv h := by
    show S.EndsAlike T w _ (defineName t.lexeme v w.left) (defineName t'.lexeme v' w.right)
    rw [← T.lexeme_eq ht]
    exact Setting.defineName_endsAlike h t.lexeme hv
  declareFunction _ ht hparams hbody h := Setting.declareFunction_endsAlike h ht hparams hbody
  block hxy h := Setting.insideBlock_endsAlike h fun w₁ hw₁ hloop hcall =>
    hxy w₁ (fun p hp => by rwa [hloop, hcall]) hw₁
  loop hxy h := Setting.insideLoop_endsAlike h fun w₁ hw₁ hloop hcall =>
    hxy w₁ (fun p hp => ⟨fun _ => hloop, by rw [hcall]; exact hp.2⟩) hw₁
  body hc hparams harguments hxy h := Setting.insideBody_endsAlike h.toInStep hc hparams harguments
    fun w₁ hw₁ hcall => hxy w₁ ⟨fun hfalse => absurd hfalse Bool.false_ne_true, fun _ => hcall⟩ hw₁

/-- Programs that match run in lockstep from where the machines are at the same place. -/
theorem Setting.Sound.execProgram {S : Setting} {T : TokenMatch} {w : Pair} (h : S.Sound T w)
    {host host' : Host} (hclock : ∀ k, host.clock (S.start.left.clockReads + k) =
      host'.clock (S.start.right.clockReads + k)) (n : Nat) {ss ss' : List Stmt}
    (hmatches : List.Forall₂ (Stmt.Matches T .top) ss ss') :
    S.EndsAlike T w (fun _ _ _ => True) (execProgramWith .standard host n ss w.left)
      (execProgramWith .standard host' n ss' w.right) := by
  have htop : (lockstep S T hclock).Allows w .top :=
    ⟨fun hf => absurd hf Bool.false_ne_true, fun hf => absurd hf Bool.false_ne_true⟩
  exact (lockstep S T hclock).execProgram_related n hmatches htop h

end GradedScript
