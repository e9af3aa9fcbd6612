import GradedScript.Proofs.Machine.Companions
import GradedScript.Proofs.Machine.Restoration

/-!
# Reclaiming scopes cannot be observed

Beside the machine of the language runs one that never reclaims a scope, so that no index is ever
used twice. Both do the same: at each moment a map tells where the scopes of the first machine are
in the store of the second, and functions correspond along it. The map grows when a scope is opened
and is cut short when scopes are reclaimed; what is cut off is not captured, so no function is
declared there. `reclamation_unobservable` draws the conclusion for whole sessions.
-/

namespace GradedScript

open Exec

/-- The rules of a machine that never reclaims a scope. -/
def Exec.Rules.keeping : Rules :=
  { Rules.standard with
    leaveScope := fun previous _ s => .ok () { s with current := previous } }

/-! ## Two machines side by side -/

/-- The states of a machine that reclaims and of one that does not, and where the scopes of the
first are in the second. -/
structure Twin where
  map : List ScopeId
  left : State
  right : State

namespace Twin

/-- The two states differ only by where their scopes are. -/
structure Sound (w : Twin) : Prop where
  stores : ScopeStore.Reindexed (.only anyToken) w.map w.left.store w.right.store
  current : w.map[w.left.current]? = some w.right.current
  loopDepth : w.right.loopDepth = w.left.loopDepth
  callDepth : w.right.callDepth = w.left.callDepth
  nextIdentity : w.right.nextIdentity = w.left.nextIdentity
  clockReads : w.right.clockReads = w.left.clockReads
  output : w.right.output = w.left.output

/-- Something ran and ended, perhaps with a halt. -/
structure Later (w w' : Twin) : Prop where
  map : w.map <+: w'.map
  left : w.left.Restores w'.left

/-- How functions correspond. -/
def links (w : Twin) : Links :=
  w.left.store.linksVia w.map

variable {w w' w'' : Twin}

theorem Later.trans (h : w.Later w') (h' : w'.Later w'') : w.Later w'' :=
  ⟨h.map.trans h'.map, h.left.trans h'.left⟩

/-- A change to the first machine that touches neither scopes nor depths. -/
theorem Later.of_same (hmap : w'.map = w.map) (hstore : w'.left.store = w.left.store)
    (hcurrent : w'.left.current = w.left.current) (hloop : w'.left.loopDepth = w.left.loopDepth)
    (hcall : w'.left.callDepth = w.left.callDepth) : w.Later w' := by
  have hfollows : w.left.Follows true w'.left := .of_same hstore hcurrent hloop hcall
  exact ⟨hmap ▸ List.prefix_rfl, hfollows.restores⟩

theorem Later.refl (w : Twin) : w.Later w :=
  .of_same rfl rfl rfl rfl rfl

/-- Twins as a kind of worlds. Both machines halt in the same way. -/
def companions : Companions Twin where
  left := Twin.left
  right := Twin.right
  Later := Twin.Later
  Sound := Twin.Sound
  Halts := Eq
  refl := Later.refl
  trans := Later.trans

/-- What is known of the results of two steps that start side by side. -/
abbrev EndsAlike {α β : Type} (w : Twin) (Q : Twin → α → β → Prop) :
    EStateM.Result Halt State α → EStateM.Result Halt State β → Prop :=
  companions.EndsAlike w Q

/-! ## Names

Both machines find a name in corresponding scopes, and bind it there. -/

theorem readName_endsAlike (h : w.Sound) (name : Token) :
    EndsAlike w (fun w v v' => v.Matches (.only anyToken) w.links v')
      (readName name w.left) (readName name w.right) :=
  Companions.EndsAlike.readName h (h.stores.resolve_alike h.current name.lexeme) rfl

/-- Binding a name in corresponding scopes. -/
theorem Sound.bind (h : w.Sound) {j j' : ScopeId} (hj : w.map[j]? = some j') (name : String)
    {value value' : Value} (hvalue : value.Matches (.only anyToken) w.links value') :
    let w' : Twin := ⟨w.map, { w.left with store := w.left.store.bind j name value },
      { w.right with store := w.right.store.bind j' name value' }⟩
    w.Later w' ∧ w'.Sound := by
  refine ⟨⟨List.prefix_rfl, rfl, rfl, rfl, .bind _ j name value⟩, ?_⟩
  exact { h with stores := h.stores.bind hj name hvalue }

theorem assignName_endsAlike (h : w.Sound) (name : Token) {value value' : Value}
    (hvalue : value.Matches (.only anyToken) w.links value') :
    EndsAlike w (fun _ _ _ => True) (assignName name value w.left)
      (assignName name value' w.right) := by
  refine Companions.EndsAlike.assignName h (h.stores.resolve_alike h.current name.lexeme) rfl ?_
  intro owner owner' howner
  obtain ⟨hlater, hsound⟩ := h.bind howner name.lexeme hvalue
  exact .ok _ rfl rfl hlater hsound trivial

theorem defineName_endsAlike (h : w.Sound) (name : String) {value value' : Value}
    (hvalue : value.Matches (.only anyToken) w.links value') :
    EndsAlike w (fun _ _ _ => True) (defineName name value w.left)
      (defineName name value' w.right) := by
  obtain ⟨hlater, hsound⟩ := h.bind h.current name hvalue
  exact Companions.EndsAlike.defineName (h.stores.lt_left h.current) (h.stores.lt_right h.current)
    (.ok _ rfl rfl hlater hsound trivial)

theorem declareFunction_endsAlike (h : w.Sound) (name : Token) {params params' : List Token}
    {body body' : List Stmt}
    (hparams : List.Forall₂ ((TokenMatch.only anyToken).Rel .parameter) params params')
    (hbody : List.Forall₂ (Stmt.Matches (.only anyToken) .body) body body') :
    EndsAlike w (fun _ _ _ => True) (Exec.declareFunction name params body w.left)
      (Exec.declareFunction name params' body' w.right) := by
  have hleft := h.stores.lt_left h.current
  have hright := h.stores.lt_right h.current
  have hmarked := h.stores.left.marked_markOutward hleft
  have hmarked' := h.stores.right.marked_markOutward hright
  rw [declareFunction_eq h.stores.left.nested hleft hmarked,
    declareFunction_eq h.stores.right.nested hright hmarked']
  -- both capture the current scope, and then bind the name in it
  let w₁ : Twin := ⟨w.map,
    { w.left with store := w.left.store.markOutward w.left.current,
                  nextIdentity := w.left.nextIdentity + 1 },
    { w.right with store := w.right.store.markOutward w.right.current,
                   nextIdentity := w.right.nextIdentity + 1 }⟩
  have hsound₁ : w₁.Sound :=
    { h with
      stores := h.stores.marked hmarked hmarked' (h.stores.left.markOutward hleft)
        (h.stores.right.markOutward hright)
      nextIdentity := congrArg (· + 1) h.nextIdentity }
  have hlater₁ : w.Later w₁ := ⟨List.prefix_rfl, rfl, rfl, rfl, .of_marked hmarked⟩
  have hclosure : w₁.links.scopes w.left.current w.right.current :=
    ⟨h.stores.left.captured_markOutward hleft, h.current⟩
  have hfunction := Value.Matches.function (Function.Matches.script h.nextIdentity.symm
    (⟨rfl, trivial⟩ : (TokenMatch.only anyToken).Rel .functionName name name) hparams hbody hclosure)
  obtain ⟨hlater₂, hsound₂⟩ := hsound₁.bind h.current name.lexeme hfunction
  exact .ok _ rfl rfl (hlater₁.trans hlater₂) hsound₂ trivial

/-! ## Scopes, loops and calls

A scope is opened on top of both stores, and the map gets one more entry. When it is left, the first
machine may reclaim it, and the map loses the entries of what is reclaimed; the second one keeps
everything. -/

/-- Opening scopes inside corresponding ones and making them the current ones. -/
theorem Sound.enter (h : w.Sound) {e e' : ScopeId} (he : w.map[e]? = some e') :
    Sound ⟨w.map ++ [w.right.store.size],
      { w.left with store := w.left.store.push e, current := w.left.store.size },
      { w.right with store := w.right.store.push e', current := w.right.store.size }⟩ := by
  refine { h with stores := h.stores.push he, current := ?_ }
  show (w.map ++ [w.right.store.size])[w.left.store.size]? = _
  rw [← h.stores.length_eq, List.getElem?_concat_length]

/-- Leaving scopes that were opened on top leads back to where the machines were. The first one
reclaims what it can, which cuts the map short, and the second one nothing. -/
theorem Sound.leave (h : w.Sound) {w₁ : Twin} {e : ScopeId} (hsound : w₁.Sound)
    (hmap : w.map <+: w₁.map) (hkeeps : (w.left.store.push e).Keeps w₁.left.store)
    {loops calls loops' calls' : Nat} (hloops : loops = w.left.loopDepth)
    (hcalls : calls = w.left.callDepth) (hloops' : loops' = w.right.loopDepth)
    (hcalls' : calls' = w.right.callDepth) :
    let w₂ : Twin := ⟨w₁.map.take (w₁.left.store.release w.left.store.size).size,
      { w₁.left with current := w.left.current, store := w₁.left.store.release w.left.store.size,
                     loopDepth := loops, callDepth := calls },
      { w₁.right with current := w.right.current, loopDepth := loops', callDepth := calls' }⟩
    w.Later w₂ ∧ w₂.Sound ∧ ∀ c c', w₁.links.scopes c c' → w₂.links.scopes c c' := by
  subst hloops hcalls hloops' hcalls'
  have htop := h.stores.left.top
  -- nothing that was there before is reclaimed, so the map of then is still in front
  have hfront : w.map <+: w₁.map.take (w₁.left.store.release w.left.store.size).size := by
    rw [List.prefix_take_iff, h.stores.length_eq]
    exact ⟨hmap, ScopeStore.size_le_release htop hkeeps⟩
  refine ⟨⟨hfront, rfl, rfl, rfl, hkeeps.release htop⟩, ?_, ?_⟩
  · exact { hsound with
      stores := hsound.stores.release _
      current := getElem?_of_prefix hfront h.current
      loopDepth := h.loopDepth
      callDepth := h.callDepth }
  · exact fun _ _ => ScopeStore.linksVia_release _

theorem insideBlock_endsAlike (h : w.Sound) {x y : Exec Flow}
    (hxy : ∀ w₁ : Twin, w₁.Sound → w₁.left.loopDepth = w.left.loopDepth →
      w₁.left.callDepth = w.left.callDepth →
      EndsAlike w₁ (fun w => Flow.Matches (.only anyToken) w.links) (x w₁.left) (y w₁.right)) :
    EndsAlike w (fun w => Flow.Matches (.only anyToken) w.links)
      (insideBlock .standard x w.left) (insideBlock .keeping y w.right) := by
  rw [insideBlock_apply, insideBlock_apply]
  refine Companions.EndsAlike.thenLeave (hxy _ (h.enter h.current) rfl rfl) ?_
  intro w₁ hlater hsound
  have hmap : w.map <+: w₁.map := (List.prefix_append _ _).trans hlater.map
  have hloop : w₁.left.loopDepth = w.left.loopDepth := hlater.left.loopDepth
  have hcall : w₁.left.callDepth = w.left.callDepth := hlater.left.callDepth
  obtain ⟨hback, hsound₂, hlinks⟩ := h.leave hsound hmap hlater.left.keeps hloop hcall
    ((hsound.loopDepth.trans hloop).trans h.loopDepth.symm)
    ((hsound.callDepth.trans hcall).trans h.callDepth.symm)
  exact ⟨_, rfl, rfl, hback, hsound₂, fun _ _ hflow => hflow.mono hlinks fun _ _ => id⟩

theorem insideLoop_endsAlike (h : w.Sound) {x y : Exec Flow}
    (hxy : ∀ w₁ : Twin, w₁.Sound → w₁.left.loopDepth ≠ 0 →
      w₁.left.callDepth = w.left.callDepth →
      EndsAlike w₁ (fun w => Flow.Matches (.only anyToken) w.links) (x w₁.left) (y w₁.right)) :
    EndsAlike w (fun w => Flow.Matches (.only anyToken) w.links)
      (insideLoop x w.left) (insideLoop y w.right) := by
  let start : Twin := ⟨w.map, { w.left with loopDepth := w.left.loopDepth + 1 },
    { w.right with loopDepth := w.right.loopDepth + 1 }⟩
  have hstart : start.Sound := { h with loopDepth := congrArg (· + 1) h.loopDepth }
  have hstep := hxy start hstart (Nat.succ_ne_zero _) rfl
  refine Companions.EndsAlike.thenLeave hstep ?_
  intro w₁ hlater hsound
  have hloop : w₁.left.loopDepth = w.left.loopDepth + 1 := hlater.left.loopDepth
  have hloop' : w₁.right.loopDepth = w.right.loopDepth + 1 := by
    rw [hsound.loopDepth, hloop, h.loopDepth]
  let w₂ : Twin := ⟨w₁.map, { w₁.left with loopDepth := w.left.loopDepth },
    { w₁.right with loopDepth := w.right.loopDepth }⟩
  exact ⟨w₂, leaveLoop_of_succ hloop, leaveLoop_of_succ hloop',
    ⟨hlater.map, hlater.left.current, rfl, hlater.left.callDepth, hlater.left.keeps⟩,
    { hsound with loopDepth := h.loopDepth }, fun _ _ hflow => hflow⟩

/-- Binding parameters in corresponding scopes. -/
theorem bindAll_reindexed {T : TokenMatch} {map : List ScopeId} {a b : ScopeStore} {j j' : ScopeId}
    (h : ScopeStore.Reindexed T map a b) (hj : map[j]? = some j') {params params' : List Token}
    (hparams : List.Forall₂ (T.Rel .parameter) params params') {arguments arguments' : List Value}
    (harguments : List.Forall₂ (Value.Matches T (a.linksVia map)) arguments arguments') :
    ScopeStore.Reindexed T map (a.bindAll j params arguments)
      (b.bindAll j' params' arguments') := by
  induction hparams generalizing a b arguments arguments' with
  | nil => exact h
  | @cons param param' params params' hparam _ ih =>
    cases harguments with
    | nil => exact h
    | @cons v v' arguments arguments' hv hrest =>
      have hmono : ∀ c c', (a.linksVia map).scopes c c' →
          ((a.bind j param.lexeme v).linksVia map).scopes c c' :=
        ScopeStore.linksVia_mono (fun _ => ScopeStore.captured_bind_iff.2) List.prefix_rfl
      have hrest := hrest.imp fun _ _ hv => hv.mono hmono fun _ _ => id
      show ScopeStore.Reindexed T map ((a.bind j param.lexeme v).bindAll j params arguments)
        ((b.bind j' param'.lexeme v').bindAll j' params' arguments')
      rw [← T.lexeme_eq hparam]
      exact ih (h.bind hj param.lexeme hv) hrest

theorem insideBody_endsAlike (h : w.Sound) {c c' : ScopeId} (hclosure : w.links.scopes c c')
    {params params' : List Token}
    (hparams : List.Forall₂ ((TokenMatch.only anyToken).Rel .parameter) params params')
    {arguments arguments' : List Value}
    (harguments : List.Forall₂ (Value.Matches (.only anyToken) w.links) arguments arguments')
    {x y : Exec Flow} (hxy : ∀ w₁ : Twin, w₁.Sound → w₁.left.callDepth ≠ 0 →
      EndsAlike w₁ (fun w => Flow.Matches (.only anyToken) w.links) (x w₁.left) (y w₁.right)) :
    EndsAlike w (fun w => Flow.Matches (.only anyToken) w.links)
      (insideBody .standard c params arguments x w.left)
      (insideBody .keeping c' params' arguments' y w.right) := by
  have htotal : ∀ previous scope s, ∃ s', Rules.standard.leaveScope previous scope s = .ok () s' :=
    fun _ _ _ => ⟨_, rfl⟩
  have htotal' : ∀ previous scope s, ∃ s', Rules.keeping.leaveScope previous scope s = .ok () s' :=
    fun _ _ _ => ⟨_, rfl⟩
  rw [insideBody_apply htotal, insideBody_apply htotal']
  have henter := h.enter hclosure.2
  have hmono : ∀ k k', w.links.scopes k k' →
      ((w.left.store.push c).linksVia (w.map ++ [w.right.store.size])).scopes k k' :=
    ScopeStore.linksVia_mono (fun _ => ScopeStore.captured_push_iff.2) (List.prefix_append _ _)
  have harguments := harguments.imp fun _ _ hv => hv.mono hmono fun _ _ => id
  have hstores := bindAll_reindexed henter.stores henter.current hparams harguments
  let start : Twin := ⟨w.map ++ [w.right.store.size],
    { w.left with
      store := (w.left.store.push c).bindAll w.left.store.size params arguments
      current := w.left.store.size, loopDepth := 0, callDepth := w.left.callDepth + 1 },
    { w.right with
      store := (w.right.store.push c').bindAll w.right.store.size params' arguments'
      current := w.right.store.size, loopDepth := 0, callDepth := w.right.callDepth + 1 }⟩
  have hstart : start.Sound :=
    { henter with
      stores := hstores, loopDepth := rfl, callDepth := congrArg (· + 1) h.callDepth }
  have hstep := hxy start hstart (Nat.succ_ne_zero _)
  refine Companions.EndsAlike.thenLeave hstep ?_
  -- the way out goes back over the parameters to where the call began
  intro w₁ hlater hsound
  have hmap : w.map <+: w₁.map := (List.prefix_append _ _).trans hlater.map
  have hkeeps : (w.left.store.push c).Keeps w₁.left.store :=
    (ScopeStore.Keeps.bindAll ..).trans hlater.left.keeps
  have hcall : w₁.left.callDepth = w.left.callDepth + 1 := hlater.left.callDepth
  have hcall' : w₁.right.callDepth = w.right.callDepth + 1 := by
    rw [hsound.callDepth, hcall, h.callDepth]
  let left : State := { w₁.left with
    current := w.left.current, store := w₁.left.store.release w.left.store.size }
  let right : State := { w₁.right with current := w.right.current }
  obtain ⟨hback, hsound₂, hlinks⟩ := h.leave hsound hmap hkeeps rfl rfl rfl rfl
  refine ⟨_, ?_, ?_, hback, hsound₂, fun _ _ hflow => hflow.mono hlinks fun _ _ => id⟩
  · exact leaveCall_of_succ (s := left) hcall w.left.loopDepth
  · exact leaveCall_of_succ (s := right) hcall' w.right.loopDepth

end Twin

/-! ## The machines -/

/-- A machine that reclaims and one that does not, as a comparison. -/
def reclamation (host : Host) : Comparison (.only anyToken) .standard .keeping host host where
  World := Twin
  Later := Twin.Later
  links := Twin.links
  Allows w p := (p.inLoop = true → w.left.loopDepth ≠ 0) ∧
    (p.inFunction = true → w.left.callDepth ≠ 0)
  Rel w Q x y := w.Sound → Twin.EndsAlike w Q (x w.left) (y w.right)
  scopes_later h := ScopeStore.linksVia_mono (fun _ => h.left.keeps.captured) h.map
  identities_later _ _ _ hi := hi
  identities_iff _ _ _ _ := by
    rintro rfl rfl
    exact Iff.rfl
  allows_later h hp := by
    rw [h.left.loopDepth, h.left.callDepth]
    exact hp
  pure hQ h := .pure h hQ
  bind hx hf h := (hx h).bind fun w' a b hlater hsound hQ => hf w' a b hlater hQ hsound
  spent h := .halted h rfl
  fail _ ht h := .halted h (congrArg (fun t => Halt.fault ⟨_, t⟩) ht.1)
  noOperator _ ht h := .halted h (congrArg (fun t => Halt.stuck (.noOperator t)) ht.1)
  depths h := .pure h ⟨h.loopDepth.symm, h.callDepth.symm, fun _ hp => hp⟩
  write {w} text h := by
    unfold writeLine
    rw [h.output]
    cases w.left.output.write (text ++ "\n").toUTF8 with
    | mk output open? =>
      cases open? with
      | true =>
        exact .ok ⟨w.map, _, _⟩ rfl rfl (.of_same rfl rfl rfl rfl rfl) { h with output := rfl } trivial
      | false =>
        exact .halt ⟨w.map, _, _⟩ rfl rfl (.of_same rfl rfl rfl rfl rfl) { h with output := rfl } rfl
  newIdentity {w} h := .ok ⟨w.map, _, _⟩ rfl rfl (.of_same rfl rfl rfl rfl rfl)
    { h with nextIdentity := congrArg (· + 1) h.nextIdentity } h.nextIdentity.symm
  clock {w} h := .ok ⟨w.map, _, _⟩ rfl rfl (.of_same rfl rfl rfl rfl rfl)
    { h with clockReads := congrArg (· + 1) h.clockReads } (congrArg host.clock h.clockReads.symm)
  global {w} name h := by
    refine .pure h ?_
    obtain ⟨g, g', hg, hg', hmatch⟩ := h.stores.scopes _ _ h.stores.root
    show Option.Rel _ (ScopeStore.getLocal? _ _ _) (ScopeStore.getLocal? _ _ _)
    unfold ScopeStore.getLocal?
    rw [hg, hg']
    exact lookup_matches hmatch.entries
  read ht h := by
    obtain ⟨rfl, -⟩ := ht
    exact Twin.readName_endsAlike h _
  assign ht hv h := by
    obtain ⟨rfl, -⟩ := ht
    exact Twin.assignName_endsAlike h _ hv
  declareVariable _ ht hv h := by
    obtain ⟨rfl, -⟩ := ht
    exact Twin.defineName_endsAlike h _ hv
  declareFunction _ ht hparams hbody h := by
    obtain ⟨rfl, -⟩ := ht
    exact Twin.declareFunction_endsAlike h _ hparams hbody
  block hxy h := Twin.insideBlock_endsAlike h fun w₁ hw₁ hloop hcall =>
    hxy w₁ (fun p hp => by rwa [hloop, hcall]) hw₁
  loop hxy h := Twin.insideLoop_endsAlike h fun w₁ hw₁ hloop hcall =>
    hxy w₁ (fun p hp => ⟨fun _ => hloop, by rw [hcall]; exact hp.2⟩) hw₁
  body hc hparams harguments hxy h := Twin.insideBody_endsAlike h hc hparams harguments
    fun w₁ hw₁ hcall => hxy w₁ ⟨fun hfalse => absurd hfalse Bool.false_ne_true, fun _ => hcall⟩ hw₁

/-! ## Sessions

Between runs both machines are in the global scope, so the next source starts them side by side
again. -/

/-- A new session beside itself. -/
theorem fresh_twin :
    Twin.Sound ⟨[ScopeStore.globalId], Session.fresh.state, Session.fresh.state⟩ := by
  -- the global scope is the only one
  have hone : ∀ i i' : ScopeId, [ScopeStore.globalId][i]? = some i' →
      i = ScopeStore.globalId ∧ i' = ScopeStore.globalId := by
    intro i i' hi
    obtain ⟨hlt, rfl⟩ := List.getElem?_eq_some_iff.1 hi
    obtain rfl : i = 0 := Nat.lt_one_iff.1 hlt
    exact ⟨rfl, rfl⟩
  have hblank : Twin.Sound ⟨[ScopeStore.globalId], Session.blankState, Session.blankState⟩ := by
    refine ⟨⟨ScopeStore.wellFormed_fresh, ScopeStore.wellFormed_fresh, rfl, rfl, ?_, ?_⟩,
      rfl, rfl, rfl, rfl, rfl, rfl⟩
    · intro i j k hi hj
      exact (hone i k hi).1.trans (hone j k hj).1.symm
    · intro i i' hi
      obtain ⟨rfl, rfl⟩ := hone i i' hi
      exact ⟨_, _, rfl, rfl, .nil, .none⟩
  have hinstall : ∀ (session : Session) (name : String) (arity : Arity) (native : Native),
      native.isInstalled = true →
      Twin.Sound ⟨[ScopeStore.globalId], session.state, session.state⟩ →
      Twin.Sound ⟨[ScopeStore.globalId], (session.install name arity native).state,
        (session.install name arity native).state⟩ := by
    intro session name arity native hnative h
    have hbound := (h.bind h.stores.root name (.function (.native rfl hnative) :
      (Value.function ⟨session.state.nextIdentity, .native name arity native⟩).Matches _ _ _)).2
    exact { hbound with nextIdentity := rfl }
  unfold Session.fresh
  exact hinstall _ _ _ _ rfl (hinstall _ _ _ _ rfl (hinstall _ _ _ _ rfl hblank))

/-- Runs of one source in sessions side by side write the same and end the same, and leave the
sessions side by side. -/
theorem runWith_alike (host : Host) {map : List ScopeId} {session kept : Session}
    (h : Twin.Sound ⟨map, session.state, kept.state⟩) (n : Nat) (limit : Option Nat)
    (source : String) :
    let run := session.runWith .standard host n limit source
    let run' := kept.runWith .keeping host n limit source
    run.written = run'.written ∧ run.ending = run'.ending ∧
      ∃ map, Twin.Sound ⟨map, run.session.state, run'.session.state⟩ := by
  unfold Session.runWith
  dsimp only
  split
  · let start : Twin := ⟨map, { session.state with output := { limit } },
      { kept.state with output := { limit } }⟩
    have hstart : start.Sound := { h with output := rfl }
    have hmatches : List.Forall₂ (Stmt.Matches (.only anyToken) .top)
        (Program.ofSource source).statements (Program.ofSource source).statements :=
      List.forall₂_same.2 fun s _ => (s.every_anyToken .top).matches_self
    have htop : (reclamation host).Allows start .top :=
      ⟨fun hf => absurd hf Bool.false_ne_true, fun hf => absurd hf Bool.false_ne_true⟩
    have hrun : Twin.EndsAlike start _
        (execProgramWith .standard host n _ { session.state with output := { limit } })
        (execProgramWith .keeping host n _ { kept.state with output := { limit } }) :=
      (reclamation host).execProgram_related n hmatches htop hstart
    unfold Session.runStatementsWith
    dsimp only
    revert hrun
    generalize execProgramWith .standard host n _ { session.state with output := { limit } } = r,
      execProgramWith .keeping host n _ { kept.state with output := { limit } } = r'
    intro hrun
    cases hrun with
    | ok w' hleft hright _ hsound _ =>
      subst hleft hright
      exact ⟨(congrArg Output.written hsound.output).symm, rfl, w'.map, { hsound with output := rfl }⟩
    | halt w' hleft hright _ hsound hhalt =>
      subst hleft hright hhalt
      exact ⟨(congrArg Output.written hsound.output).symm, rfl, w'.map, { hsound with output := rfl }⟩
  · -- a source with faults is rejected before anything runs
    exact ⟨rfl, rfl, map, h⟩

/-- Sessions that run the same inputs are side by side after each of them. -/
theorem after_alike (host : Host) (inputs : List Session.Input) :
    ∃ map, Twin.Sound ⟨map, (Session.fresh.after .standard host inputs).state,
      (Session.fresh.after .keeping host inputs).state⟩ := by
  induction inputs using List.reverseRecOn with
  | nil => exact ⟨_, fresh_twin⟩
  | append_singleton inputs input ih =>
    obtain ⟨map, h⟩ := ih
    unfold Session.after at h ⊢
    rw [List.foldl_concat, List.foldl_concat]
    exact (runWith_alike host h input.budget input.limit input.source).2.2

/-- Sessions side by side show the same names with the same texts. -/
theorem globals_alike {map : List ScopeId} {session kept : Session}
    (h : Twin.Sound ⟨map, session.state, kept.state⟩) :
    session.names = kept.names ∧
      ∀ name, (session.global? name).map Value.text = (kept.global? name).map Value.text := by
  refine ⟨?_, fun name => ?_⟩
  · have hnames : session.state.store.names session.state.current =
        kept.state.store.names kept.state.current := h.stores.namesFrom_eq h.current []
    unfold Session.names
    rw [hnames]
  · obtain ⟨g, g', hg, hg', hmatch⟩ := h.stores.scopes _ _ h.stores.root
    have hfind : Option.Rel _ (g.bindings.find? name) (g'.bindings.find? name) :=
      lookup_matches hmatch.entries
    unfold Session.global? ScopeStore.getLocal?
    rw [hg, hg', Option.bind_some, Option.bind_some]
    rcases option_rel_cases hfind with ⟨hv, hv'⟩ | ⟨v, v', hv, hv', hvalue⟩
    · rw [hv, hv']
    · rw [hv, hv', Option.map_some, Option.map_some, hvalue.text_eq]

/-! ## The theorem -/

/-- **Reclaiming scopes cannot be observed.** Let the same inputs be run in a new session and in one
whose machine never reclaims a scope. After each of them the same global names have the same texts,
and the next run writes the same and ends the same. The scopes of the two machines correspond
between runs, and each statement, expression and call of corresponding functions ends alike, in
corresponding states. In particular no function meets a scope in the place of its own: functions
are declared in captured scopes, in every reachable state, and these are never reclaimed. -/
theorem reclamation_unobservable (host : Host) :
    (∀ inputs, let session := Session.fresh.after .standard host inputs
      let kept := Session.fresh.after .keeping host inputs
      session.names = kept.names ∧
      (∀ name, (session.global? name).map Value.text = (kept.global? name).map Value.text) ∧
      (∀ n limit source, let run := session.run host n limit source
        let run' := kept.runWith .keeping host n limit source
        run.written = run'.written ∧ run.ending = run'.ending ∧
          run.diagnostics = run'.diagnostics) ∧
      ∃ map, Twin.Sound ⟨map, session.state, kept.state⟩) ∧
    (∀ w : Twin, w.Sound → ∀ n,
      (∀ statement, w.EndsAlike (fun w => Flow.Matches (.only anyToken) w.links)
        (exec host n statement w.left) (execWith .keeping host n statement w.right)) ∧
      (∀ e, w.EndsAlike (fun w => Value.Matches (.only anyToken) w.links)
        (eval host n e w.left) (evalWith .keeping host n e w.right)) ∧
      ∀ f f' arguments arguments' paren, Function.Matches (.only anyToken) w.links f f' →
        List.Forall₂ (Value.Matches (.only anyToken) w.links) arguments arguments' →
        w.EndsAlike (fun w => Value.Matches (.only anyToken) w.links)
          (call host n f arguments paren w.left)
          (callWith .keeping host n f' arguments' paren w.right)) ∧
    (∀ s, Reachable host s → ∀ i scope, s.store.scope? i = some scope →
      ∀ entry ∈ scope.bindings.entries, entry.2.Held s.store) ∧
    ∀ (store : ScopeStore) i j, store.Captured i → (store.release j).Captured i := by
  refine ⟨?_, ?_, ?_, ?_⟩
  · intro inputs
    obtain ⟨map, h⟩ := after_alike host inputs
    obtain ⟨hnames, htexts⟩ := globals_alike h
    refine ⟨hnames, htexts, ?_, map, h⟩
    intro n limit source
    obtain ⟨hwritten, hending, -⟩ := runWith_alike host h n limit source
    exact ⟨hwritten, hending, congrArg Session.Ending.diagnostics hending⟩
  · intro w hw n
    obtain ⟨heval, hexec, hcall⟩ := (reclamation host).machine_related n
    refine ⟨?_, ?_, ?_⟩
    · intro statement
      refine hexec w .top statement statement ?_ (statement.every_anyToken .top).matches_self hw
      exact ⟨fun hf => absurd hf Bool.false_ne_true, fun hf => absurd hf Bool.false_ne_true⟩
    · intro e
      exact heval w e e e.every_anyToken.matches_self hw
    · intro f f' arguments arguments' paren hf harguments
      exact hcall w f f' arguments arguments' paren paren hf harguments ⟨rfl, trivial⟩ hw
  · intro s hs i scope hscope entry hentry
    obtain ⟨v', hv'⟩ := hs.sound.values i scope hscope entry hentry
    exact .of_matches hv'
  · intro store i j hi
    exact ScopeStore.captured_release_iff.2 hi

end GradedScript
