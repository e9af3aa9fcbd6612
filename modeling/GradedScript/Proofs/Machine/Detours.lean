import GradedScript.Proofs.Machine.Companions
import GradedScript.Proofs.Machine.Restoration
import GradedScript.Proofs.Scope.Interposing

/-!
# Detours through blank scopes

Beside one machine runs another that may be inside scopes which bind nothing and which the first one
never opened. As long as no name is declared in those, both do the same: names are looked up past
them, and functions declared further inside correspond. `detours` is the comparison; it asks for
equal places only where something is declared, so expressions are evaluated alike on a detour too
(`eval_endsAlike`), and so are statements that declare nothing outside blocks of their own
(`plain_endsAlike`). A detour through one more scope is `Detour.blockRight_endsAlike`.
-/

namespace GradedScript

open Exec ScopeStore

/-- The states of two machines, and where the scopes of the first are in the second. -/
structure Detour where
  map : List ScopeId
  left : State
  right : State

namespace Detour

/-- The two states differ only by blank scopes in the second. -/
structure Sound (w : Detour) : Prop where
  stores : Interposed (.only anyToken) w.map w.left.store w.right.store
  current : Meets w.map w.right.store w.left.current w.right.current
  loopDepth : w.right.loopDepth = w.left.loopDepth
  callDepth : w.right.callDepth = w.left.callDepth
  nextIdentity : w.right.nextIdentity = w.left.nextIdentity
  clockReads : w.right.clockReads = w.left.clockReads
  output : w.right.output = w.left.output

/-- The second machine is in the counterpart of the scope the first one is in. -/
def Exact (w : Detour) : Prop :=
  w.map[w.left.current]? = some w.right.current

/-- Something ran and ended, perhaps with a halt. -/
structure Later (w w' : Detour) : Prop where
  map : w.map <+: w'.map
  left : w.left.Restores w'.left
  right : w.right.Restores w'.right
  paths : ∀ k j, BlankPath w.map w.right.store k j → BlankPath w'.map w'.right.store k j

/-- How functions correspond. -/
def links (w : Detour) : Links :=
  w.left.store.linksVia w.map

/-- Ways to end that match. -/
def Flows (w : Detour) : Flow → Flow → Prop :=
  Flow.Matches (.only anyToken) w.links

/-- Values that match. -/
def Values (w : Detour) : Value → Value → Prop :=
  Value.Matches (.only anyToken) w.links

variable {w w' w'' : Detour}

theorem Later.trans (h : w.Later w') (h' : w'.Later w'') : w.Later w'' :=
  ⟨h.map.trans h'.map, h.left.trans h'.left, h.right.trans h'.right,
    fun k j hp => h'.paths k j (h.paths k j hp)⟩

/-- A change that touches neither scopes nor depths. -/
theorem Later.of_same {s t : State} (hstore : s.store = w.left.store)
    (hcurrent : s.current = w.left.current) (hloop : s.loopDepth = w.left.loopDepth)
    (hcall : s.callDepth = w.left.callDepth) (hstore' : t.store = w.right.store)
    (hcurrent' : t.current = w.right.current) (hloop' : t.loopDepth = w.right.loopDepth)
    (hcall' : t.callDepth = w.right.callDepth) : w.Later ⟨w.map, s, t⟩ := by
  refine ⟨List.prefix_rfl, ⟨hcurrent, hloop, hcall, ?_⟩, ⟨hcurrent', hloop', hcall', ?_⟩, ?_⟩
  · rw [hstore]
    exact .refl _
  · show w.right.store.Keeps t.store
    rw [hstore']
    exact .refl _
  · intro k j hp
    show BlankPath w.map t.store k j
    rw [hstore']
    exact hp

theorem Later.refl (w : Detour) : w.Later w :=
  .of_same rfl rfl rfl rfl rfl rfl rfl rfl

theorem Later.links (h : w.Later w') (c c' : ScopeId) (hc : w.links.scopes c c') :
    w'.links.scopes c c' :=
  linksVia_mono (fun _ => h.left.keeps.captured) h.map c c' hc

theorem Later.exact (h : w.Later w') (hw : w.Exact) : w'.Exact := by
  unfold Exact
  rw [h.left.current, h.right.current]
  exact getElem?_of_prefix h.map hw

/-- Detours as a kind of worlds. Both machines halt in the same way. -/
def companions : Companions Detour where
  left := Detour.left
  right := Detour.right
  Later := Detour.Later
  Sound := Detour.Sound
  Halts := Eq
  refl := Later.refl
  trans := Later.trans

/-- What is known of the results of two steps that start side by side. -/
abbrev EndsAlike {α β : Type} (w : Detour) (Q : Detour → α → β → Prop) :
    EStateM.Result Halt State α → EStateM.Result Halt State β → Prop :=
  companions.EndsAlike w Q

/-! ## Names

Names are looked up past blank scopes, but they are declared in the current one. So a declaration
asks for current scopes that correspond. -/

theorem readName_endsAlike (h : w.Sound) (name : Token) :
    EndsAlike w Values (readName name w.left) (readName name w.right) :=
  Companions.EndsAlike.readName h (h.stores.resolve_alike h.current name.lexeme) rfl

/-- Binding a name in corresponding scopes. -/
theorem Sound.bind (h : w.Sound) {j j' : ScopeId} (hj : w.map[j]? = some j') (name : String)
    {value value' : Value} (hvalue : w.Values value value') :
    let w' : Detour := ⟨w.map, { w.left with store := w.left.store.bind j name value },
      { w.right with store := w.right.store.bind j' name value' }⟩
    w.Later w' ∧ w'.Sound := by
  have hpaths : ∀ k i, BlankPath w.map w.right.store k i →
      BlankPath w.map (w.right.store.bind j' name value') k i :=
    fun k i hp => hp.bind h.stores.right.nested (List.mem_of_getElem? hj) name value'
  refine ⟨⟨List.prefix_rfl, ⟨rfl, rfl, rfl, .bind _ j name value⟩,
    ⟨rfl, rfl, rfl, .bind _ j' name value'⟩, hpaths⟩, ?_⟩
  obtain ⟨k, hk, hpath⟩ := h.current
  exact { h with stores := h.stores.bind hj name hvalue, current := ⟨k, hk, hpaths _ _ hpath⟩ }

theorem assignName_endsAlike (h : w.Sound) (name : Token) {value value' : Value}
    (hvalue : w.Values value value') :
    EndsAlike w (fun _ _ _ => True) (assignName name value w.left)
      (assignName name value' w.right) := by
  refine Companions.EndsAlike.assignName h (h.stores.resolve_alike h.current name.lexeme) rfl ?_
  intro owner owner' howner
  obtain ⟨hlater, hsound⟩ := h.bind howner name.lexeme hvalue
  exact .ok _ rfl rfl hlater hsound trivial

theorem defineName_endsAlike (h : w.Sound) (hexact : w.Exact) (name : String)
    {value value' : Value} (hvalue : w.Values value value') :
    EndsAlike w (fun _ _ _ => True) (defineName name value w.left)
      (defineName name value' w.right) := by
  obtain ⟨hlater, hsound⟩ := h.bind hexact name hvalue
  exact Companions.EndsAlike.defineName (h.stores.lt_left hexact) (h.stores.lt_right hexact)
    (.ok _ rfl rfl hlater hsound trivial)

theorem declareFunction_endsAlike (h : w.Sound) (hexact : w.Exact) (name : Token)
    {params params' : List Token} {body body' : List Stmt}
    (hparams : List.Forall₂ ((TokenMatch.only anyToken).Rel .parameter) params params')
    (hbody : List.Forall₂ (Stmt.Matches (.only anyToken) .body) body body') :
    EndsAlike w (fun _ _ _ => True) (Exec.declareFunction name params body w.left)
      (Exec.declareFunction name params' body' w.right) := by
  have hleft := h.stores.lt_left hexact
  have hright := h.stores.lt_right hexact
  have hmarked := h.stores.left.marked_markOutward hleft
  have hmarked' := h.stores.right.marked_markOutward hright
  rw [declareFunction_eq h.stores.left.nested hleft hmarked,
    declareFunction_eq h.stores.right.nested hright hmarked']
  -- both capture the current scope, and then bind the name in it
  let w₁ : Detour := ⟨w.map,
    { w.left with store := w.left.store.markOutward w.left.current,
                  nextIdentity := w.left.nextIdentity + 1 },
    { w.right with store := w.right.store.markOutward w.right.current,
                   nextIdentity := w.right.nextIdentity + 1 }⟩
  have hsound₁ : w₁.Sound :=
    { h with
      stores := h.stores.markOutward hexact
      current := .of_mapped hexact
      nextIdentity := congrArg (· + 1) h.nextIdentity }
  have hlater₁ : w.Later w₁ := ⟨List.prefix_rfl, ⟨rfl, rfl, rfl, .of_marked hmarked⟩,
    ⟨rfl, rfl, rfl, .of_marked hmarked'⟩, fun _ _ hp => hp.marked h.stores.right.nested hmarked'⟩
  have hclosure : w₁.links.scopes w.left.current w.right.current :=
    ⟨h.stores.left.captured_markOutward hleft, hexact⟩
  have hfunction := Value.Matches.function (Function.Matches.script h.nextIdentity.symm
    (⟨rfl, trivial⟩ : (TokenMatch.only anyToken).Rel .functionName name name) hparams hbody hclosure)
  obtain ⟨hlater₂, hsound₂⟩ := hsound₁.bind hexact name.lexeme hfunction
  exact .ok _ rfl rfl (hlater₁.trans hlater₂) hsound₂ trivial

/-! ## Scopes

A scope is opened in both machines, or in the second one alone, which is where detours begin. -/

/-- Opening scopes inside ones from where the same is met, and making them the current ones. -/
theorem Sound.enter (h : w.Sound) {e e' : ScopeId} (he : Meets w.map w.right.store e e') :
    let w₁ : Detour := ⟨w.map ++ [w.right.store.size],
      { w.left with store := w.left.store.push e, current := w.left.store.size },
      { w.right with store := w.right.store.push e', current := w.right.store.size }⟩
    w₁.Sound ∧ w₁.Exact := by
  have hexact : (w.map ++ [w.right.store.size])[w.left.store.size]? =
      some w.right.store.size := by
    rw [← h.stores.length_eq, List.getElem?_concat_length]
  exact ⟨{ h with stores := h.stores.push he, current := .of_mapped hexact }, hexact⟩

/-- A path is there again when a scope on top is left. -/
theorem paths_leave {map map₁ map₂ : List ScopeId} {store store₁ : ScopeStore} {e k j : ScopeId}
    (hstore : store.TopAlive) (hkeeps : (store.push e).Keeps store₁) (hnested : store₁.Nested)
    (hpaths : BlankPath map store k j → BlankPath map₁ store₁ k j) (hsub : map₂ ⊆ map₁)
    (h : BlankPath map store k j) : BlankPath map₂ (store₁.release store.size) k j := by
  have hpath := (hpaths h).sublist hnested hsub
  cases h with
  | here => exact .here
  | past hs _ _ _ _ =>
    exact hpath.release hnested (Nat.lt_of_lt_of_le (lt_size hs) (size_le_release hstore hkeeps))

/-- Leaving scopes that were opened on top leads back to where the machines were. Both reclaim what
they can, and what the first one reclaims cuts the map short. -/
theorem Sound.leave (h : w.Sound) {w₁ : Detour} {e e' : ScopeId} (hsound : w₁.Sound)
    (hmap : w.map <+: w₁.map) (hkeeps : (w.left.store.push e).Keeps w₁.left.store)
    (hkeeps' : (w.right.store.push e').Keeps w₁.right.store)
    (hpaths : ∀ k j, BlankPath w.map w.right.store k j → BlankPath w₁.map w₁.right.store k j)
    {loops calls loops' calls' : Nat} (hloops : loops = w.left.loopDepth)
    (hcalls : calls = w.left.callDepth) (hloops' : loops' = w.right.loopDepth)
    (hcalls' : calls' = w.right.callDepth) :
    let w₂ : Detour := ⟨w₁.map.take (w₁.left.store.release w.left.store.size).size,
      { w₁.left with current := w.left.current, store := w₁.left.store.release w.left.store.size,
                     loopDepth := loops, callDepth := calls },
      { w₁.right with current := w.right.current,
                      store := w₁.right.store.release w.right.store.size,
                      loopDepth := loops', callDepth := calls' }⟩
    w.Later w₂ ∧ w₂.Sound ∧ ∀ c c', w₁.links.scopes c c' → w₂.links.scopes c c' := by
  subst hloops hcalls hloops' hcalls'
  have htop := h.stores.left.top
  have htop' := h.stores.right.top
  -- nothing that was there before is reclaimed, so the map of then is still in front
  have hfront : w.map <+: w₁.map.take (w₁.left.store.release w.left.store.size).size := by
    rw [List.prefix_take_iff, h.stores.length_eq]
    exact ⟨hmap, size_le_release htop hkeeps⟩
  have hleft := hsound.stores.releaseLeft w.left.store.size
  have himages := h.stores.image_lt_release hleft hfront (hkeeps.release htop) hkeeps'
  have hpaths₂ : ∀ k j, BlankPath w.map w.right.store k j →
      BlankPath (w₁.map.take (w₁.left.store.release w.left.store.size).size)
        (w₁.right.store.release w.right.store.size) k j := fun k j =>
    paths_leave htop' hkeeps' hsound.stores.right.nested (hpaths k j) (List.take_subset _ _)
  obtain ⟨k, hk, hpath⟩ := h.current
  refine ⟨⟨hfront, ⟨rfl, rfl, rfl, hkeeps.release htop⟩, ⟨rfl, rfl, rfl, hkeeps'.release htop'⟩,
    hpaths₂⟩, ?_, fun _ _ => linksVia_release _⟩
  exact { hsound with
    stores := hleft.releaseRight himages
    current := ⟨k, getElem?_of_prefix hfront hk, hpaths₂ _ _ hpath⟩
    loopDepth := h.loopDepth
    callDepth := h.callDepth }

theorem insideBlock_endsAlike (h : w.Sound) {x y : Exec Flow}
    (hxy : ∀ w₁ : Detour, w₁.Sound → w₁.Exact → w₁.left.loopDepth = w.left.loopDepth →
      w₁.left.callDepth = w.left.callDepth → EndsAlike w₁ Flows (x w₁.left) (y w₁.right)) :
    EndsAlike w Flows (insideBlock .standard x w.left) (insideBlock .standard y w.right) := by
  rw [insideBlock_apply, insideBlock_apply]
  obtain ⟨henter, hexact⟩ := h.enter h.current
  refine Companions.EndsAlike.thenLeave (hxy _ henter hexact rfl rfl) ?_
  intro w₁ hlater hsound
  have hmap : w.map <+: w₁.map := (List.prefix_append _ _).trans hlater.map
  have hpaths : ∀ k j, BlankPath w.map w.right.store k j →
      BlankPath w₁.map w₁.right.store k j := fun k j hp =>
    hlater.paths k j (hp.push h.stores.right.nested _ fun l hl => by simpa using hl)
  obtain ⟨hback, hsound₂, hlinks⟩ := h.leave hsound hmap hlater.left.keeps hlater.right.keeps hpaths
    hlater.left.loopDepth hlater.left.callDepth hlater.right.loopDepth hlater.right.callDepth
  exact ⟨_, rfl, rfl, hback, hsound₂, fun _ _ hflow => hflow.mono hlinks fun _ _ => id⟩

/-- A step that is left in no particular way. -/
theorem thenLeave_pure {α : Type} (x : Exec α) : Exec.thenLeave x (pure ()) = x := by
  funext s
  unfold Exec.thenLeave
  cases x s <;> rfl

/-- **A detour through one more scope.** What runs in it must end alike from a place where the same
is met. -/
theorem blockRight_endsAlike (h : w.Sound) {x y : Exec Flow}
    (hxy : ∀ w₁ : Detour, w₁.Sound → EndsAlike w₁ Flows (x w₁.left) (y w₁.right)) :
    EndsAlike w Flows (x w.left) (insideBlock .standard y w.right) := by
  have hnested := h.stores.right.nested
  have htop' := h.stores.right.top
  obtain ⟨hstores, hcurrent⟩ := h.stores.pushRight h.current
  let start : Detour := ⟨w.map, w.left,
    { w.right with store := w.right.store.push w.right.current, current := w.right.store.size }⟩
  have hstart : start.Sound := { h with stores := hstores, current := hcurrent }
  rw [insideBlock_apply, ← thenLeave_pure x]
  refine Companions.EndsAlike.thenLeave (hxy start hstart) ?_
  intro w₁ hlater hsound
  have hpaths : ∀ k j, BlankPath w.map w.right.store k j →
      BlankPath w₁.map (w₁.right.store.release w.right.store.size) k j := fun k j =>
    paths_leave htop' hlater.right.keeps hsound.stores.right.nested
      (fun hp => hlater.paths k j (hp.push hnested _ fun _ => .inl)) (List.Subset.refl _)
  have himages := h.stores.image_lt_release hsound.stores hlater.map hlater.left.keeps
    hlater.right.keeps
  obtain ⟨k, hk, hpath⟩ := h.current
  refine ⟨⟨w₁.map, w₁.left, { w₁.right with
    current := w.right.current, store := w₁.right.store.release w.right.store.size }⟩, rfl, rfl,
    ⟨hlater.map, hlater.left, ⟨rfl, hlater.right.loopDepth, hlater.right.callDepth,
      hlater.right.keeps.release htop'⟩, hpaths⟩, ?_, fun _ _ hflow => hflow⟩
  refine { hsound with stores := hsound.stores.releaseRight himages, current := ?_ }
  show Meets w₁.map _ w₁.left.current w.right.current
  rw [hlater.left.current]
  exact ⟨k, getElem?_of_prefix hlater.map hk, hpaths _ _ hpath⟩

/-! ## Loops and calls -/

theorem insideLoop_endsAlike (h : w.Sound) {x y : Exec Flow}
    (hxy : ∀ w₁ : Detour, w₁.Sound → (w.Exact → w₁.Exact) → w₁.left.loopDepth ≠ 0 →
      w₁.left.callDepth = w.left.callDepth → EndsAlike w₁ Flows (x w₁.left) (y w₁.right)) :
    EndsAlike w Flows (insideLoop x w.left) (insideLoop y w.right) := by
  let start : Detour := ⟨w.map, { w.left with loopDepth := w.left.loopDepth + 1 },
    { w.right with loopDepth := w.right.loopDepth + 1 }⟩
  have hstart : start.Sound := { h with loopDepth := congrArg (· + 1) h.loopDepth }
  have hstep := hxy start hstart id (Nat.succ_ne_zero _) rfl
  refine Companions.EndsAlike.thenLeave hstep ?_
  intro w₁ hlater hsound
  have hloop : w₁.left.loopDepth = w.left.loopDepth + 1 := hlater.left.loopDepth
  have hloop' : w₁.right.loopDepth = w.right.loopDepth + 1 := hlater.right.loopDepth
  let w₂ : Detour := ⟨w₁.map, { w₁.left with loopDepth := w.left.loopDepth },
    { w₁.right with loopDepth := w.right.loopDepth }⟩
  exact ⟨w₂, leaveLoop_of_succ hloop, leaveLoop_of_succ hloop', ⟨hlater.map,
    ⟨hlater.left.current, rfl, hlater.left.callDepth, hlater.left.keeps⟩,
    ⟨hlater.right.current, rfl, hlater.right.callDepth, hlater.right.keeps⟩, hlater.paths⟩,
    { hsound with loopDepth := h.loopDepth }, fun _ _ hflow => hflow⟩

/-- Binding parameters in corresponding scopes. -/
theorem bindAll_interposed {map : List ScopeId} {a b : ScopeStore} {j j' : ScopeId}
    (h : Interposed (.only anyToken) map a b) (hj : map[j]? = some j') {params params' : List Token}
    (hparams : List.Forall₂ ((TokenMatch.only anyToken).Rel .parameter) params params')
    {arguments arguments' : List Value}
    (harguments : List.Forall₂ (Value.Matches (.only anyToken) (a.linksVia map)) arguments
      arguments') :
    Interposed (.only anyToken) map (a.bindAll j params arguments)
        (b.bindAll j' params' arguments') ∧
      ∀ k i, BlankPath map b k i → BlankPath map (b.bindAll j' params' arguments') k i := by
  induction hparams generalizing a b arguments arguments' with
  | nil => exact ⟨h, fun _ _ => id⟩
  | @cons param param' params params' hparam _ ih =>
    cases harguments with
    | nil => exact ⟨h, fun _ _ => id⟩
    | @cons v v' arguments arguments' hv hrest =>
      have hmono : ∀ c c', (a.linksVia map).scopes c c' →
          ((a.bind j param.lexeme v).linksVia map).scopes c c' :=
        linksVia_mono (fun _ => captured_bind_iff.2) List.prefix_rfl
      have hrest := hrest.imp fun _ _ hv => hv.mono hmono fun _ _ => id
      obtain ⟨rfl, -⟩ := hparam
      obtain ⟨hstores, hpaths⟩ := ih (h.bind hj param.lexeme hv) hrest
      exact ⟨hstores, fun k i hp =>
        hpaths k i (hp.bind h.right.nested (List.mem_of_getElem? hj) param.lexeme v')⟩

theorem insideBody_endsAlike (h : w.Sound) {c c' : ScopeId} (hclosure : w.links.scopes c c')
    {params params' : List Token}
    (hparams : List.Forall₂ ((TokenMatch.only anyToken).Rel .parameter) params params')
    {arguments arguments' : List Value} (harguments : List.Forall₂ w.Values arguments arguments')
    {x y : Exec Flow} (hxy : ∀ w₁ : Detour, w₁.Sound → w₁.Exact → w₁.left.callDepth ≠ 0 →
      EndsAlike w₁ Flows (x w₁.left) (y w₁.right)) :
    EndsAlike w Flows (insideBody .standard c params arguments x w.left)
      (insideBody .standard c' params' arguments' y w.right) := by
  have htotal : ∀ previous scope s, ∃ s', Rules.standard.leaveScope previous scope s = .ok () s' :=
    fun _ _ _ => ⟨_, rfl⟩
  rw [insideBody_apply htotal, insideBody_apply htotal]
  obtain ⟨henter, hexact⟩ := h.enter (.of_mapped hclosure.2)
  have hmono : ∀ k k', w.links.scopes k k' →
      ((w.left.store.push c).linksVia (w.map ++ [w.right.store.size])).scopes k k' :=
    linksVia_mono (fun _ => captured_push_iff.2) (List.prefix_append _ _)
  have harguments := harguments.imp fun _ _ hv => hv.mono hmono fun _ _ => id
  obtain ⟨hstores, hbound⟩ := bindAll_interposed henter.stores hexact hparams harguments
  let start : Detour := ⟨w.map ++ [w.right.store.size],
    { w.left with
      store := (w.left.store.push c).bindAll w.left.store.size params arguments
      current := w.left.store.size, loopDepth := 0, callDepth := w.left.callDepth + 1 },
    { w.right with
      store := (w.right.store.push c').bindAll w.right.store.size params' arguments'
      current := w.right.store.size, loopDepth := 0, callDepth := w.right.callDepth + 1 }⟩
  have hstart : start.Sound :=
    { henter with
      stores := hstores, current := .of_mapped hexact, loopDepth := rfl
      callDepth := congrArg (· + 1) h.callDepth }
  refine Companions.EndsAlike.thenLeave (hxy start hstart hexact (Nat.succ_ne_zero _)) ?_
  -- the way out goes back over the parameters to where the call began
  intro w₁ hlater hsound
  have hmap : w.map <+: w₁.map := (List.prefix_append _ _).trans hlater.map
  have hkeeps : (w.left.store.push c).Keeps w₁.left.store :=
    (Keeps.bindAll ..).trans hlater.left.keeps
  have hkeeps' : (w.right.store.push c').Keeps w₁.right.store :=
    (Keeps.bindAll ..).trans hlater.right.keeps
  have hpaths : ∀ k j, BlankPath w.map w.right.store k j →
      BlankPath w₁.map w₁.right.store k j := fun k j hp => hlater.paths k j
    (hbound k j (hp.push h.stores.right.nested _ fun l hl => by simpa using hl))
  have hcall : w₁.left.callDepth = w.left.callDepth + 1 := hlater.left.callDepth
  have hcall' : w₁.right.callDepth = w.right.callDepth + 1 := hlater.right.callDepth
  let left : State := { w₁.left with
    current := w.left.current, store := w₁.left.store.release w.left.store.size }
  let right : State := { w₁.right with
    current := w.right.current, store := w₁.right.store.release w.right.store.size }
  obtain ⟨hback, hsound₂, hlinks⟩ := h.leave hsound hmap hkeeps hkeeps' hpaths rfl rfl rfl rfl
  refine ⟨_, ?_, ?_, hback, hsound₂, fun _ _ hflow => hflow.mono hlinks fun _ _ => id⟩
  · exact leaveCall_of_succ (s := left) hcall w.left.loopDepth
  · exact leaveCall_of_succ (s := right) hcall' w.right.loopDepth

/-! ## One state beside itself

A detour starts from one state, in which each scope is its own counterpart. -/

/-- A state and the same state, whose scopes are where they are. -/
def same (s : State) : Detour :=
  ⟨List.range s.store.size, s, s⟩

theorem range_getElem?_iff {n i i' : Nat} :
    (List.range n)[i]? = some i' ↔ i < n ∧ i' = i := by
  rw [List.getElem?_eq_some_iff]
  simp [eq_comm]

theorem same_sound {s : State} (h : s.Sound anyToken) : (same s).Sound := by
  have hlinks : ∀ c c', s.store.links.scopes c c' → (same s).links.scopes c c' := by
    rintro c c' ⟨rfl, hc⟩
    exact ⟨hc, range_getElem?_iff.2 ⟨hc.lt_size, rfl⟩⟩
  have hmeets : ∀ j, j < s.store.size → Meets (same s).map s.store j j :=
    fun j hj => .of_mapped (range_getElem?_iff.2 ⟨hj, rfl⟩)
  refine ⟨⟨h.store, h.store, List.length_range, ?_, List.pairwise_lt_range, ?_, ?_⟩,
    hmeets _ h.current, rfl, rfl, rfl, rfl, rfl⟩
  · exact range_getElem?_iff.2 ⟨h.store.root.lt_size, rfl⟩
  · intro i i' hi hcap
    obtain ⟨-, rfl⟩ := range_getElem?_iff.1 hi
    exact hcap
  · intro i i' hi
    obtain ⟨hlt, rfl⟩ := range_getElem?_iff.1 hi
    obtain ⟨scope, hscope⟩ := exists_scope hlt
    refine ⟨scope, scope, hscope, hscope, List.forall₂_same.2 fun entry hentry => ⟨rfl, ?_⟩, ?_⟩
    · obtain ⟨v', hv'⟩ := h.values i' scope hscope entry hentry
      exact (Value.Held.of_matches hv').matches_self.mono hlinks fun _ _ => id
    · cases he : scope.enclosing with
      | none => exact .none
      | some e => exact .some (hmeets e ((h.store.nested i' scope e hscope he).trans hlt))

end Detour

/-! ## The machines -/

/-- A machine and one on a detour, as a comparison. Names are declared only off the detour. -/
def detours (host : Host) : Comparison (.only anyToken) .standard .standard host host where
  World := Detour
  Later := Detour.Later
  links := Detour.links
  Allows w p := w.Exact ∧ (p.inLoop = true → w.left.loopDepth ≠ 0) ∧
    (p.inFunction = true → w.left.callDepth ≠ 0)
  Rel w Q x y := w.Sound → Detour.EndsAlike w Q (x w.left) (y w.right)
  scopes_later := Detour.Later.links
  identities_later _ _ _ hi := hi
  identities_iff _ _ _ _ := by
    rintro rfl rfl
    exact Iff.rfl
  allows_later h hp := by
    rw [h.left.loopDepth, h.left.callDepth]
    exact ⟨h.exact hp.1, hp.2⟩
  pure hQ h := .pure h hQ
  bind hx hf h := (hx h).bind fun w' a b hlater hsound hQ => hf w' a b hlater hQ hsound
  spent h := .halted h rfl
  fail _ ht h := .halted h (congrArg (fun t => Halt.fault ⟨_, t⟩) ht.1)
  noOperator _ ht h := .halted h (congrArg (fun t => Halt.stuck (.noOperator t)) ht.1)
  depths h := .pure h ⟨h.loopDepth.symm, h.callDepth.symm, fun _ hp => hp.2⟩
  write {w} text h := by
    unfold writeLine
    rw [h.output]
    cases w.left.output.write (text ++ "\n").toUTF8 with
    | mk output open? =>
      cases open? with
      | true =>
        exact .ok ⟨w.map, _, _⟩ rfl rfl (.of_same rfl rfl rfl rfl rfl rfl rfl rfl)
          { h with output := rfl } trivial
      | false =>
        exact .halt ⟨w.map, _, _⟩ rfl rfl (.of_same rfl rfl rfl rfl rfl rfl rfl rfl)
          { h with output := rfl } rfl
  newIdentity {w} h := .ok ⟨w.map, _, _⟩ rfl rfl (.of_same rfl rfl rfl rfl rfl rfl rfl rfl)
    { h with nextIdentity := congrArg (· + 1) h.nextIdentity } h.nextIdentity.symm
  clock {w} h := .ok ⟨w.map, _, _⟩ rfl rfl (.of_same rfl rfl rfl rfl rfl rfl rfl rfl)
    { h with clockReads := congrArg (· + 1) h.clockReads } (congrArg host.clock h.clockReads.symm)
  global {w} name h := by
    refine .pure h ?_
    obtain ⟨g, g', hg, hg', hentries, -⟩ := h.stores.scopes _ _ h.stores.root
    show Option.Rel _ (ScopeStore.getLocal? _ _ _) (ScopeStore.getLocal? _ _ _)
    unfold ScopeStore.getLocal?
    rw [hg, hg']
    exact lookup_matches hentries
  read ht h := by
    obtain ⟨rfl, -⟩ := ht
    exact Detour.readName_endsAlike h _
  assign ht hv h := by
    obtain ⟨rfl, -⟩ := ht
    exact Detour.assignName_endsAlike h _ hv
  declareVariable hp ht hv h := by
    obtain ⟨rfl, -⟩ := ht
    exact Detour.defineName_endsAlike h hp.1 _ hv
  declareFunction hp ht hparams hbody h := by
    obtain ⟨rfl, -⟩ := ht
    exact Detour.declareFunction_endsAlike h hp.1 _ hparams hbody
  block hxy h := Detour.insideBlock_endsAlike h fun w₁ hw₁ hexact hloop hcall =>
    hxy w₁ (fun p hp => ⟨hexact, by rw [hloop, hcall]; exact hp.2⟩) hw₁
  loop hxy h := Detour.insideLoop_endsAlike h fun w₁ hw₁ hexact hloop hcall =>
    hxy w₁ (fun p hp => ⟨hexact hp.1, fun _ => hloop, by rw [hcall]; exact hp.2.2⟩) hw₁
  body hc hparams harguments hxy h := Detour.insideBody_endsAlike h hc hparams harguments
    fun w₁ hw₁ hexact hcall =>
      hxy w₁ ⟨hexact, fun hfalse => absurd hfalse Bool.false_ne_true, fun _ => hcall⟩ hw₁

section

variable {w : Detour} (host : Host) (n : Nat)

/-- Expressions are evaluated alike on a detour. -/
theorem eval_endsAlike (h : w.Sound) (e : Expr) :
    w.EndsAlike Detour.Values (eval host n e w.left) (eval host n e w.right) :=
  ((detours host).machine_related n).1 w e e e.every_anyToken.matches_self h

/-- Statements are executed alike off the detour. -/
theorem exec_endsAlike (h : w.Sound) (hexact : w.Exact) (statement : Stmt) :
    w.EndsAlike Detour.Flows (exec host n statement w.left) (exec host n statement w.right) :=
  ((detours host).machine_related n).2.1 w .top statement statement
    ⟨hexact, fun hfalse => absurd hfalse Bool.false_ne_true,
      fun hfalse => absurd hfalse Bool.false_ne_true⟩
    (statement.every_anyToken .top).matches_self h

/-- So are lists of them. -/
theorem execEach_endsAlike (h : w.Sound) (hexact : w.Exact) (statements : List Stmt) :
    w.EndsAlike Detour.Flows (execEach (exec host n) statements w.left)
      (execEach (exec host n) statements w.right) := by
  induction statements generalizing w with
  | nil => exact .pure h .normal
  | cons statement statements ih =>
    refine (exec_endsAlike host n h hexact statement).bind ?_
    intro w₁ flow flow' hlater hsound hflow
    cases hflow with
    | normal => exact ih hsound (hlater.exact hexact)
    | broke => exact .pure hsound .broke
    | returned hv => exact .pure hsound (.returned hv)

end

/-! ## Plain statements

A comparison relates statements off the detour only. On it, those that declare nothing in the
current scope are gone through by induction, and what is inside their blocks is off the detour
again. -/

/-- A statement that declares nothing in the scope it stands in: no declaration, and none as a
branch or as the body of a loop. Blocks have scopes of their own. -/
inductive Stmt.Plain : Stmt → Prop
  | expression (e) : Plain (.expression e)
  | print (e) : Plain (.print e)
  | block (statements) : Plain (.block statements)
  | ifElse {condition thenBranch elseBranch} (hthen : Plain thenBranch)
      (helse : ∀ s ∈ elseBranch, Plain s) : Plain (.ifElse condition thenBranch elseBranch)
  | whileLoop {condition body} (hbody : Plain body) : Plain (.whileLoop condition body)
  | breakOut (keyword) : Plain (.breakOut keyword)
  | giveBack (keyword value) : Plain (.giveBack keyword value)

/-- Going round a loop ends alike, by induction on how often it may. -/
theorem repeatWhile_endsAlike {condition condition' : Exec Value} {body body' : Exec Flow}
    (hcondition : ∀ w : Detour, w.Sound →
      w.EndsAlike Detour.Values (condition w.left) (condition' w.right))
    (hbody : ∀ w : Detour, w.Sound → w.EndsAlike Detour.Flows (body w.left) (body' w.right))
    (n : Nat) {w : Detour} (h : w.Sound) :
    w.EndsAlike Detour.Flows (repeatWhile condition body n w.left)
      (repeatWhile condition' body' n w.right) := by
  induction n generalizing w with
  | zero => exact .halted h rfl
  | succ n ih =>
    refine (hcondition w h).bind ?_
    intro w₁ v v' _ hw₁ hv
    rw [Value.Matches.truthy_eq hv]
    split
    · refine (hbody w₁ hw₁).bind ?_
      intro w₂ flow flow' _ hw₂ hflow
      cases hflow with
      | normal => exact ih hw₂
      | broke => exact .pure hw₂ .normal
      | returned hv => exact .pure hw₂ (.returned hv)
    · exact .pure hw₁ .normal

/-- **Plain statements are executed alike on a detour.** -/
theorem plain_endsAlike (host : Host) (n : Nat) {w : Detour} (h : w.Sound) {statement : Stmt}
    (hplain : statement.Plain) :
    w.EndsAlike Detour.Flows (exec host n statement w.left) (exec host n statement w.right) := by
  induction n generalizing w statement with
  | zero => exact .halted h rfl
  | succ n ih =>
    cases hplain with
    | expression e =>
      exact (eval_endsAlike host n h e).bind fun w₁ _ _ _ hw₁ _ => .pure hw₁ .normal
    | print e =>
      refine (eval_endsAlike host n h e).bind fun w₁ v v' _ hw₁ hv => ?_
      rw [Value.Matches.text_eq hv]
      exact ((detours host).write _ hw₁).bind fun w₂ _ _ _ hw₂ _ => .pure hw₂ .normal
    | block statements =>
      exact Detour.insideBlock_endsAlike h fun w₁ hw₁ hexact _ _ =>
        execEach_endsAlike host n hw₁ hexact statements
    | @ifElse condition thenBranch elseBranch hthen helse =>
      refine (eval_endsAlike host n h condition).bind fun w₁ v v' _ hw₁ hv => ?_
      rw [Value.Matches.truthy_eq hv]
      split
      · exact ih hw₁ hthen
      · cases elseBranch with
        | none => exact .pure hw₁ .normal
        | some elseBranch => exact ih hw₁ (helse elseBranch rfl)
    | @whileLoop condition body hbody =>
      refine Detour.insideLoop_endsAlike h fun w₁ hw₁ _ _ _ => ?_
      exact repeatWhile_endsAlike (fun w hw => eval_endsAlike host n hw condition)
        (fun w hw => ih hw hbody) n hw₁
    | breakOut keyword =>
      refine ((detours host).depths h).bind fun w₁ s s' _ hw₁ hdepths => ?_
      rw [hdepths.1]
      split
      · exact .halted hw₁ rfl
      · exact .pure hw₁ .broke
    | giveBack keyword value =>
      refine ((detours host).depths h).bind fun w₁ s s' _ hw₁ hdepths => ?_
      rw [hdepths.2.1]
      split
      · exact .halted hw₁ rfl
      · cases value with
        | none => exact .pure hw₁ (.returned .nil)
        | some e =>
          exact (eval_endsAlike host n hw₁ e).bind fun w₂ _ _ _ hw₂ hv =>
            .pure hw₂ (.returned hv)

end GradedScript
