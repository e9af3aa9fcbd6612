import GradedScript.Proofs.Machine.Congruence
import GradedScript.Proofs.Machine.Splitting

/-!
# A channel that closes only truncates

A program that runs with a limited output does what it does with an unlimited one until the limit is
reached, at any byte of any line; there it halts, and it comes out of every block, loop and call
without writing more (`run_truncates`). The two runs are followed side by side: a step of the
machine either stays within the limit and is the same step, or ends with the channel closed.
-/

namespace GradedScript

open Exec

/-! ## Steps under a limit -/

/-- The state with a limit on its output. -/
def State.capped (limit : Nat) (s : State) : State :=
  { s with output := { s.output with limit := some limit } }

/-- What a step does from a state with an unlimited output, and what it does there under a limit. -/
structure Exec.Truncates {α : Type} (limit : Nat) (x : Exec α) (s : State) : Prop where
  returns : s.Returns (stateAfter (x s))
  unlimited : (stateAfter (x s)).output.limit = none
  grows : ∃ more, (stateAfter (x s)).output.written = s.output.written ++ more
  /-- within the limit nothing changes -/
  kept : (stateAfter (x s)).output.written.size ≤ limit →
    x (s.capped limit) = inState (State.capped limit) (x s)
  /-- past the limit the channel is closed, with what fitted written -/
  cut : s.output.written.size ≤ limit → limit < (stateAfter (x s)).output.written.size →
    ∃ t, x (s.capped limit) = .error .outputClosed t ∧ s.Returns t ∧
      t.output.written = (stateAfter (x s)).output.written.extract 0 limit

theorem Output.write_unlimited {o : Output} (ho : o.limit = none) (bytes : ByteArray) :
    o.write bytes = ({ o with written := o.written ++ bytes }, true) := by
  unfold Output.write
  rw [ho]

theorem Output.write_within {o : Output} {limit : Nat} (ho : o.limit = some limit)
    {bytes : ByteArray} (h : bytes.size ≤ limit - o.written.size) :
    o.write bytes = ({ o with written := o.written ++ bytes }, true) := by
  unfold Output.write
  rw [ho]
  exact if_pos h

theorem Output.write_past {o : Output} {limit : Nat} (ho : o.limit = some limit)
    {bytes : ByteArray} (h : limit - o.written.size < bytes.size) :
    o.write bytes =
      ({ o with written := o.written ++ bytes.extract 0 (limit - o.written.size) }, false) := by
  unfold Output.write
  rw [ho]
  exact if_neg (Nat.not_le.2 h)

/-- The bytes of a front that is long enough. -/
theorem extract_append_left {a b : ByteArray} {n : Nat} (h : n ≤ a.size) :
    (a ++ b).extract 0 n = a.extract 0 n := by
  simp [ByteArray.extract_append, h]

theorem extract_of_size_le {a : ByteArray} {n : Nat} (h : a.size ≤ n) : a.extract 0 n = a := by
  ext1
  simpa using .inr h

/-- The bytes of a front and of what follows it. -/
theorem extract_append_right {a b : ByteArray} {n : Nat} (h : a.size ≤ n) :
    (a ++ b).extract 0 n = a ++ b.extract 0 (n - a.size) := by
  rw [ByteArray.extract_append, extract_of_size_le h, Nat.zero_sub]

namespace Exec

variable {α β : Type} {limit : Nat} {s : State}

/-- A blind step takes no notice of a limit. -/
theorem Blind.apply_capped {x : Exec α} (h : Blind x) (s : State) :
    x (s.capped limit) = inState (State.capped limit) (x s) := by
  have hsame := h.output_eq s
  refine (h s { s.output with limit := some limit }).trans ?_
  revert hsame
  cases x s with
  | ok a s' =>
    intro hsame
    have hsame : s'.output = s.output := hsame
    simp only [inState, State.capped, hsame]
  | error halt s' =>
    intro hsame
    have hsame : s'.output = s.output := hsame
    simp only [inState, State.capped, hsame]

/-- A quiet step does not reach the limit. -/
theorem Quiet.truncates {x : Exec α} (h : Quiet x) (hs : s.output.limit = none) :
    Truncates limit x s where
  returns := h.returns s
  unlimited := by
    rw [h.blind.output_eq]
    exact hs
  grows := ⟨.empty, by rw [h.blind.output_eq, ByteArray.append_empty]⟩
  kept _ := h.blind.apply_capped s
  cut hwithin hpast := by
    rw [h.blind.output_eq] at hpast
    exact absurd hpast (Nat.not_lt.2 hwithin)

/-- A line is written as far as it fits. -/
theorem writeLine_truncates (text : String) (hs : s.output.limit = none) :
    Truncates limit (writeLine text) s := by
  obtain ⟨bytes, hbytes⟩ : ∃ bytes, bytes = (text ++ "\n").toUTF8 := ⟨_, rfl⟩
  have hfree : writeLine text s =
      .ok () { s with output := { s.output with written := s.output.written ++ bytes } } := by
    rw [writeLine, ← hbytes, Output.write_unlimited hs]
  refine ⟨?_, ?_, ?_, ?_, ?_⟩ <;> rw [hfree]
  · exact ⟨rfl, rfl, rfl⟩
  · exact hs
  · exact ⟨bytes, rfl⟩
  · intro hwithin
    have hwithin : (s.output.written ++ bytes).size ≤ limit := hwithin
    rw [ByteArray.size_append] at hwithin
    have hfits : bytes.size ≤ limit - (s.capped limit).output.written.size :=
      Nat.le_sub_of_add_le' hwithin
    rw [writeLine, ← hbytes, Output.write_within rfl hfits]
    rfl
  · intro hbegin hpast
    have hpast : limit < (s.output.written ++ bytes).size := hpast
    rw [ByteArray.size_append] at hpast
    have hover : limit - (s.capped limit).output.written.size < bytes.size :=
      Nat.sub_lt_left_of_lt_add hbegin hpast
    rw [writeLine, ← hbytes, Output.write_past rfl hover]
    exact ⟨_, rfl, ⟨rfl, rfl, rfl⟩, (extract_append_right hbegin).symm⟩

/-- A step that halts is the end, with a limit and without. -/
theorem Truncates.bind_of_error {x : Exec α} {f : α → Exec β} (hx : Truncates limit x s)
    {halt : Halt} {s' : State} (hres : x s = .error halt s') : Truncates limit (x >>= f) s := by
  have hbind : ∀ s, (x >>= f) s = EStateM.bind x f s := fun _ => rfl
  have hfree : (x >>= f) s = .error halt s' := by simp only [hbind, EStateM.bind, hres]
  obtain ⟨hreturns, hunlimited, hgrows, hkept, hcut⟩ := hx
  rw [hres] at hreturns hunlimited hgrows hkept hcut
  refine ⟨?_, ?_, ?_, ?_, ?_⟩ <;> rw [hfree]
  · exact hreturns
  · exact hunlimited
  · exact hgrows
  · intro hwithin
    simp only [hbind, EStateM.bind, hkept hwithin, inState]
  · intro hbegin hpast
    obtain ⟨t, ht, hback, hwritten⟩ := hcut hbegin hpast
    refine ⟨t, ?_, hback, hwritten⟩
    simp only [hbind, EStateM.bind, ht]

/-- After a step that ended, the next one begins within the limit, or the first is cut and has
written all that fits. -/
theorem Truncates.bind_of_ok {x : Exec α} {f : α → Exec β} (hx : Truncates limit x s) {a : α}
    {s' : State} (hres : x s = .ok a s') (hf : Truncates limit (f a) s') :
    Truncates limit (x >>= f) s := by
  have hbind : ∀ s, (x >>= f) s = EStateM.bind x f s := fun _ => rfl
  have hfree : (x >>= f) s = f a s' := by simp only [hbind, EStateM.bind, hres]
  obtain ⟨hreturns, hunlimited, ⟨more, hgrows⟩, hkept, hcut⟩ := hx
  rw [hres, stateAfter_ok] at hreturns hunlimited hgrows hkept hcut
  have hcapped : s'.output.written.size ≤ limit →
      (x >>= f) (s.capped limit) = f a (s'.capped limit) := by
    intro hwithin
    simp only [hbind, EStateM.bind, hkept hwithin, inState]
  obtain ⟨more', hgrows'⟩ := hf.grows
  refine ⟨?_, ?_, ?_, ?_, ?_⟩ <;> rw [hfree]
  · exact hreturns.trans hf.returns
  · exact hf.unlimited
  · refine ⟨more ++ more', ?_⟩
    rw [hgrows', hgrows, ByteArray.append_assoc]
  · intro hwithin
    have hsize := congrArg ByteArray.size hgrows'
    rw [ByteArray.size_append] at hsize
    rw [hcapped (by omega)]
    exact hf.kept hwithin
  · intro hbegin hpast
    rcases Nat.lt_or_ge limit s'.output.written.size with hover | hwithin
    -- the first step is cut already, and what the second one writes lies past the limit
    · obtain ⟨t, ht, hback, hwritten⟩ := hcut hbegin hover
      refine ⟨t, ?_, hback, ?_⟩
      · simp only [hbind, EStateM.bind, ht]
      · rw [hgrows', extract_append_left hover.le]
        exact hwritten
    · obtain ⟨t, ht, hback, hwritten⟩ := hf.cut hwithin hpast
      exact ⟨t, (hcapped hwithin).trans ht, hreturns.trans hback, hwritten⟩

theorem Truncates.bind {x : Exec α} {f : α → Exec β} (hx : Truncates limit x s)
    (hf : ∀ a s', x s = .ok a s' → Truncates limit (f a) s') : Truncates limit (x >>= f) s := by
  cases hres : x s with
  | error halt s' => exact hx.bind_of_error hres
  | ok a s' => exact hx.bind_of_ok hres (hf a s' hres)

/-- A limit goes along on the way in, and the way out is the same. -/
theorem step_capped (p : Passage) (x : Exec α) (s : State) :
    p.step x (s.capped limit) = thenLeave x (p.leave s) ((p.enter s).capped limit) := by
  have henter : p.enter (s.capped limit) = (p.enter s).capped limit := by
    refine (p.enter_output s _).trans ?_
    rw [State.capped, p.output_enter]
  rw [Passage.step, henter, State.capped, p.leave_output]

/-- A step inside is cut inside, and the way out writes nothing. -/
theorem Truncates.step (p : Passage) {x : Exec α} (hx : Truncates limit x (p.enter s)) :
    Truncates limit (p.step x) s := by
  obtain ⟨s₂, hs₂, hback⟩ := p.leadsBack s _ hx.returns
  have hfree : p.step x s = inState (fun _ => s₂) (x (p.enter s)) := thenLeave_eq hs₂
  have houtput := p.output_leave hs₂
  refine ⟨?_, ?_, ?_, ?_, ?_⟩ <;> rw [hfree, stateAfter_inState]
  · exact hback
  · rw [houtput]
    exact hx.unlimited
  · rw [houtput, ← p.output_enter s]
    exact hx.grows
  · intro hwithin
    rw [houtput] at hwithin
    have hkept := hx.kept hwithin
    have hleave : p.leave s (stateAfter (x ((p.enter s).capped limit))) =
        .ok () (s₂.capped limit) := by
      rw [hkept, stateAfter_inState, (p.blind s).apply_capped, hs₂]
      rfl
    rw [step_capped, thenLeave_eq hleave, hkept]
    cases x (p.enter s) <;> rfl
  · intro hbegin hpast
    rw [← p.output_enter] at hbegin
    rw [houtput] at hpast ⊢
    obtain ⟨t, ht, hreturns, hwritten⟩ := hx.cut hbegin hpast
    obtain ⟨t₂, ht₂, hback₂⟩ := p.leadsBack s t hreturns
    refine ⟨t₂, ?_, hback₂, ?_⟩
    · rw [step_capped, thenLeave, ht]
      simp only [ht₂]
    · rw [p.output_leave ht₂]
      exact hwritten

end Exec

/-- What a limit does to steps, as a congruence. -/
def truncation (limit : Nat) : Congruence where
  Rel k x _ := ∀ s, s.callDepth = k → s.output.limit = none → Truncates limit x s
  quiet h _ _ hs := h.truncates hs
  write text _ _ hs := writeLine_truncates text hs
  bind hx hf s hk hs := by
    have hfirst := hx s hk hs
    refine hfirst.bind fun a s' hok => hf a s' ?_ ?_
    · have hreturns := hfirst.returns
      rw [hok] at hreturns
      exact hreturns.callDepth.trans hk
    · have hunlimited := hfirst.unlimited
      rw [hok] at hunlimited
      exact hunlimited
  look h s hk hs := by
    subst hk
    obtain ⟨hreturns, hunlimited, hgrows, hkept, hcut⟩ := h s.loopDepth s rfl hs
    exact ⟨hreturns, hunlimited, hgrows, hkept, hcut⟩
  inside p hp h s hk hs := (h _ (hp s hk) ((congrArg _ (p.output_enter s)).trans hs)).step p

/-! ## Sessions -/

/-- A session whose machine is in the global scope, outside of all loops and calls. -/
structure Session.Idle (session : Session) : Prop where
  current : session.state.current = ScopeStore.globalId
  loopDepth : session.state.loopDepth = 0
  callDepth : session.state.callDepth = 0

/-- The sessions that come about: in a new one functions are installed, those of the host among
them, and sources are run. -/
inductive Session.Arises (host : Host) : Session → Prop
  | fresh : Arises host .fresh
  | install {session} (h : Arises host session) (name : String) (arity : Arity) (native : Native) :
      Arises host (session.install name arity native)
  | run {session} (h : Arises host session) (budget : Nat) (limit : Option Nat) (source : String) :
      Arises host (session.run host budget limit source).session

namespace Session

theorem Run.ofResult_state (r : EStateM.Result Halt State Unit) :
    (Run.ofResult r).session.state = { stateAfter r with output := {} } := by
  cases r <;> rfl

theorem Run.ofResult_written (r : EStateM.Result Halt State Unit) :
    (Run.ofResult r).written = (stateAfter r).output.written := by
  cases r <;> rfl

/-- A run does not tell whether its output had a limit. -/
theorem Run.ofResult_capped (limit : Nat) (r : EStateM.Result Halt State Unit) :
    Run.ofResult (inState (State.capped limit) r) = .ofResult r := by
  cases r <;> rfl

/-- A run that comes back to where it began leaves an idle session idle. -/
theorem Idle.ofResult {session : Session} (h : session.Idle) {r : EStateM.Result Halt State Unit}
    (hreturns : session.state.Returns (stateAfter r)) : (Run.ofResult r).session.Idle := by
  refine ⟨?_, ?_, ?_⟩ <;> rw [Run.ofResult_state]
  · exact hreturns.current.trans h.current
  · exact hreturns.loopDepth.trans h.loopDepth
  · exact hreturns.callDepth.trans h.callDepth

/-- What a limit does to a run. -/
structure Run.Truncated (limit : Nat) (free capped : Run) : Prop where
  idle : free.session.Idle ∧ capped.session.Idle
  written : capped.written = free.written.extract 0 limit
  kept : free.written.size ≤ limit → capped = free
  cut : limit < free.written.size → capped.ending = .halted .outputClosed

theorem runStatements_truncated (host : Host) {session : Session} (h : session.Idle) (n : Nat)
    (statements : List Stmt) (limit : Nat) :
    Run.Truncated limit (session.runStatementsWith .standard host n none statements)
      (session.runStatementsWith .standard host n (some limit) statements) := by
  let start : State := { session.state with output := {} }
  have hstart : session.state.Returns start := ⟨rfl, rfl, rfl⟩
  have hsteps : Truncates limit (execProgramWith .standard host n statements) start :=
    (truncation limit).execProgram_related (truncation limit).respects_standard host n 0 statements
      start h.callDepth rfl
  have hidle : (Run.ofResult (execProgramWith .standard host n statements start)).session.Idle :=
    h.ofResult (hstart.trans hsteps.returns)
  rw [runStatementsWith_eq, runStatementsWith_eq]
  show Run.Truncated limit (.ofResult (execProgramWith .standard host n statements start))
    (.ofResult (execProgramWith .standard host n statements (start.capped limit)))
  generalize execProgramWith .standard host n statements = x at hsteps hidle ⊢
  rcases Nat.lt_or_ge limit (stateAfter (x start)).output.written.size with hpast | hwithin
  · obtain ⟨t, ht, hreturns, hwritten⟩ := hsteps.cut (Nat.zero_le limit) hpast
    rw [ht]
    refine ⟨⟨hidle, h.ofResult (hstart.trans hreturns)⟩, ?_, ?_, fun _ => rfl⟩
    · rw [Run.ofResult_written, Run.ofResult_written]
      exact hwritten
    · rw [Run.ofResult_written]
      exact fun hwithin => absurd hpast (Nat.not_lt.2 hwithin)
  · rw [hsteps.kept hwithin, Run.ofResult_capped]
    refine ⟨⟨hidle, hidle⟩, ?_, fun _ => rfl, ?_⟩
    · rw [Run.ofResult_written, extract_of_size_le hwithin]
    · rw [Run.ofResult_written]
      exact fun hpast => absurd hpast (Nat.not_lt.2 hwithin)

/-- A source that is rejected writes nothing, and one that runs is truncated. -/
theorem run_truncated (host : Host) {session : Session} (h : session.Idle) (n : Nat)
    (source : String) (limit : Nat) :
    Run.Truncated limit (session.run host n none source)
      (session.run host n (some limit) source) := by
  unfold Session.run Session.runWith
  dsimp only
  split
  · exact runStatements_truncated host h n _ limit
  · refine ⟨⟨h, h⟩, ?_, fun _ => rfl, ?_⟩
    · exact (extract_of_size_le (Nat.zero_le limit)).symm
    · exact fun hpast => absurd hpast (Nat.not_lt_zero limit)

/-- Between runs the machine is in the global scope and at depth zero, also with functions of the
host. -/
theorem Arises.idle {host : Host} {session : Session} (h : session.Arises host) :
    session.Idle := by
  induction h with
  | fresh => exact ⟨rfl, rfl, rfl⟩
  | install _ name arity native ih => exact ⟨ih.current, ih.loopDepth, ih.callDepth⟩
  | run _ n limit source ih =>
    cases limit with
    | none => exact (run_truncated host ih n source 0).idle.1
    | some limit => exact (run_truncated host ih n source limit).idle.2

end Session

/-! ## The theorem -/

/-- **A channel that closes only truncates.** Every session that comes about is idle between runs.
From any idle session, the run of a source with a limited output writes the first bytes of what it
writes without a limit, as many as the limit allows. If that is all of them, the two runs are the
same in every respect; if not, the limited one tells of a closed output and of nothing else. Both
leave the session idle. -/
theorem run_truncates (host : Host) :
    (∀ session : Session, session.Arises host → session.Idle) ∧
    ∀ session : Session, session.Idle → ∀ n source limit,
      let free := session.run host n none source
      let capped := session.run host n (some limit) source
      free.session.Idle ∧ capped.session.Idle ∧
      capped.written = free.written.extract 0 limit ∧
      (free.written.size ≤ limit → capped = free) ∧
      (limit < free.written.size →
        capped.written.size = limit ∧ capped.diagnostics = [.io "output closed"]) := by
  refine ⟨fun session h => h.idle, ?_⟩
  intro session hidle n source limit free capped
  have h : Session.Run.Truncated limit free capped :=
    Session.run_truncated host hidle n source limit
  refine ⟨h.idle.1, h.idle.2, h.written, h.kept, ?_⟩
  intro hpast
  refine ⟨?_, ?_⟩
  · rw [h.written, ByteArray.size_extract]
    omega
  · rw [Session.Run.diagnostics, h.cut hpast]
    rfl

/-- A function that prints from a block, called in a loop. -/
def printsInside : String :=
  "var t = \"ab\"; fun f() { { print t; } } while (true) { f(); f(); break; }"

/-- Of the two lines `ab`, the second is cut after its first letter, inside a block inside a call
inside a loop. -/
theorem run_truncates_printsInside :
    let free := Session.fresh.run idleHost 20 none printsInside
    let capped := Session.fresh.run idleHost 20 (some 4) printsInside
    4 < free.written.size ∧ capped.session.Idle ∧
      capped.written.size = 4 ∧ capped.diagnostics = [.io "output closed"] := by
  have hsize : 4 < (Session.fresh.run idleHost 20 none printsInside).written.size := by
    decide +kernel
  obtain ⟨harises, htruncates⟩ := run_truncates idleHost
  obtain ⟨-, hidle, -, -, hcut⟩ :=
    htruncates Session.fresh (harises _ .fresh) 20 printsInside 4
  exact ⟨hsize, hidle, hcut hsize⟩

end GradedScript
