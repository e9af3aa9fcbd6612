import GradedScript.Proofs.Machine.Orderly
import GradedScript.Proofs.Machine.Placement
import GradedScript.Proofs.Machine.Safety
import GradedScript.Proofs.Scan.Seam

/-!
# Splitting a source over two runs

A source that is cut at a newline between two programs can be run at once or part by part: the same
is written, the same globals are left, and the runs end the same way (`run_join`). This takes all
three stages. The scanner reads both parts as if alone, the parser makes the trees of the first and
then those of the second, with all their tokens further on, and between two runs the machine is where
it is between two statements.

Where a fault is told to be follows its token. Tokens of the second part are further on in the joined
source, while those of functions that were declared before stay where they are. Two tokens may look
the same, place and all, and yet be of different sources; so which source the token of a fault is of
is told by what text in front of the second source does to it (`Session.PlacesFault`), and it is one
or the other (`Session.PlacesFault.unique`). For the proof the second source is moved so far on that
none of its tokens is equal to an earlier one, and all other runs are compared with the one of the
trees there.
-/

namespace GradedScript

open Exec

/-! ## Joined programs -/

section

variable {T : TokenMatch}

theorem Grammar.Declarations.append {p : Place} {ts us : List Token} {ss ss' : List Stmt}
    (h : Declarations p ts ss) (h' : Declarations p us ss') :
    Declarations p (ts ++ us) (ss ++ ss') := by
  induction ss generalizing ts with
  | nil =>
    cases h
    exact h'
  | cons s ss ih =>
    cases h with
    | cons hfirst hrest =>
      rw [List.append_assoc]
      exact .cons hfirst (ih hrest)

/-- The trees of a source whose tokens are all further on. -/
def Program.Moved (source : String) (d : Shift) (ss : List Stmt) : Prop :=
  Grammar.Declarations .top ((tokensBefore source).map (Token.shift d)) ss

/-- The trees of a source at one place match those at another, if the tokens do. -/
theorem Program.Moved.elsewhere {source : String} {d : Shift} {ss : List Stmt}
    (h : Program.Moved source d ss) (d' : Shift)
    (hT : ∀ t ∈ (scan source).tokens, ∀ role : Role, role.isPlaced = true →
      T.Rel role (t.shift d) (t.shift d')) :
    ∃ ss', Program.Moved source d' ss' ∧ List.Forall₂ (Stmt.Matches T .top) ss ss' := by
  apply Grammar.Declarations.transport h
  rw [List.forall₂_map_left_iff, List.forall₂_map_right_iff, List.forall₂_same]
  intro t ht
  refine ⟨rfl, hT t ?_⟩
  rw [scan_tokens]
  exact List.mem_append_left _ ht

theorem Program.Moved.unique {source : String} {d : Shift} {ss ss' : List Stmt}
    (h : Program.Moved source d ss) (h' : Program.Moved source d ss') : ss = ss' := by
  refine declarations_unique (fun t ht => ?_) h h'
  obtain ⟨t₀, ht₀, rfl⟩ := List.mem_map.1 ht
  exact tokensBefore_ne_eof t₀ ht₀

/-- A source without static faults is where it is. -/
theorem Program.moved_zero {source : String} (hvalid : (Program.ofSource source).errors = []) :
    Program.Moved source ⟨0, 0⟩ (Program.ofSource source).statements := by
  have hzero : Token.shift ⟨0, 0⟩ = id := rfl
  unfold Program.Moved
  rw [hzero, List.map_id]
  exact Program.derived_before hvalid

/-- Sources without static faults have none if they are joined, and the trees of both: those of the
second one are the trees of its tokens further on. -/
theorem Program.ofSource_join {source next : String}
    (hsource : (Program.ofSource source).errors = []) (hnext : (Program.ofSource next).errors = [])
    (hclosed : endsInComment source.toList = false) {statements : List Stmt}
    (hmoved : Program.Moved next (.past source.toList) statements) :
    (Program.ofSource (source ++ "\n" ++ next)).errors = [] ∧
      (Program.ofSource (source ++ "\n" ++ next)).statements =
        (Program.ofSource source).statements ++ statements := by
  obtain ⟨hscan, -⟩ := List.append_eq_nil_iff.1 hsource
  obtain ⟨hscan', -⟩ := List.append_eq_nil_iff.1 hnext
  have hscan := List.map_eq_nil_iff.1 hscan
  have hscan' := List.map_eq_nil_iff.1 hscan'
  have hopen := not_isOpen_of_errors hscan hclosed
  let moved := (tokensBefore next).map (Token.shift (.past source.toList))
  have honly : ∀ t ∈ tokensBefore source ++ moved, t.kind ≠ .eof := by
    intro t ht
    rcases List.mem_append.1 ht with ht | ht
    · exact tokensBefore_ne_eof t ht
    · obtain ⟨t₀, ht₀, rfl⟩ := List.mem_map.1 ht
      exact tokensBefore_ne_eof t₀ ht₀
  let stop := (endToken (Cursor.past {} next.toList)).shift (.past source.toList)
  have htokens : (scan (source ++ "\n" ++ next)).tokens =
      tokensBefore source ++ moved ++ [stop] := by
    rw [scan_join_tokens hopen, scan_tokens next, List.map_append, List.append_assoc]
    rfl
  have hstop : stop.kind = .eof := rfl
  have hparse := parse_of_declarations hstop honly ((Program.derived_before hsource).append hmoved)
  rw [← htokens] at hparse
  refine ⟨?_, congrArg Parsed.statements hparse⟩
  unfold Program.ofSource
  dsimp only
  rw [hparse, scan_join_errors hopen, hscan, hscan']
  rfl

/-! ## Joined runs

The machine that goes on to the second source differs from one that begins it anew in its output
only. -/

/-- Statements one after the other: the second part begins where the first one ended. -/
theorem execProgram_append (rules : Rules) (host : Host) (n : Nat) (ss ss' : List Stmt) :
    execProgramWith rules host n (ss ++ ss') =
      execProgramWith rules host n ss >>= fun _ => execProgramWith rules host n ss' := by
  induction ss with
  | nil => rfl
  | cons s ss ih =>
    rw [List.cons_append, execProgramWith, execProgramWith, ih, bind_assoc]

theorem execProgram_append_of_ok {rules : Rules} {host : Host} {n : Nat} {ss : List Stmt}
    {s s₁ : State} (h : execProgramWith rules host n ss s = .ok () s₁) (ss' : List Stmt) :
    execProgramWith rules host n (ss ++ ss') s = execProgramWith rules host n ss' s₁ := by
  rw [execProgram_append]
  show EStateM.bind _ _ s = _
  unfold EStateM.bind
  rw [h]

theorem execProgram_append_of_error {rules : Rules} {host : Host} {n : Nat} {ss : List Stmt}
    {s s₁ : State} {halt : Halt} (h : execProgramWith rules host n ss s = .error halt s₁)
    (ss' : List Stmt) : execProgramWith rules host n (ss ++ ss') s = .error halt s₁ := by
  rw [execProgram_append]
  show EStateM.bind _ _ s = _
  unfold EStateM.bind
  rw [h]

/-- A machine whose output is cut off and begun anew, with the same room, goes on as before. -/
theorem State.Orderly.sound_cut {s : State} (h : s.Orderly T) {output : Output}
    (hroom : s.output.room = output.room) :
    let cut : State := { s with output }
    Setting.Sound ⟨.whole, cut, s⟩ T ⟨cut, s⟩ := by
  exact { h.sound with
    written := ⟨.empty, ByteArray.append_empty.symm, ByteArray.append_empty.symm⟩
    room := hroom
    limit := rfl }

/-- Matching programs run in lockstep if the output of one is cut off before it. -/
theorem State.Orderly.execProgram_cut (host : Host) {s : State} (h : s.Orderly T) {output : Output}
    (hroom : s.output.room = output.room) (n : Nat) {ss ss' : List Stmt}
    (hmatches : List.Forall₂ (Stmt.Matches T .top) ss ss') :
    let cut : State := { s with output }
    Setting.EndsAlike ⟨.whole, cut, s⟩ T ⟨cut, s⟩ (fun _ _ _ => True)
      (execProgramWith .standard host n ss cut) (execProgramWith .standard host n ss' s) := by
  exact (h.sound_cut hroom).execProgram (fun _ => rfl) n hmatches

/-- In step, global names have the same texts. -/
theorem Setting.InStep.global_text {S : Setting} {w : Pair} (h : S.InStep T w) (name : String) :
    (Session.global? ⟨w.right⟩ name).map Value.text =
      (Session.global? ⟨w.left⟩ name).map Value.text := by
  obtain ⟨g, hg, -⟩ := h.stores.left.root
  obtain ⟨g', hg'⟩ := h.stores.exists_right hg
  have hsees := h.stores.captured _ h.stores.left.root
  have hbindings := (h.stores.scopes _ g g' hsees hg hg').bindings name
  unfold Session.global? ScopeStore.getLocal?
  dsimp only at hg hg' ⊢
  rw [hg, hg', Option.bind_some, Option.bind_some]
  rcases option_rel_cases hbindings with ⟨hv, hv'⟩ | ⟨v, v', hv, hv', hvalue⟩
  · rw [hv, hv']
  · rw [hv, hv', Option.map_some, Option.map_some, hvalue.text_eq]

/-! ## Sessions

After any runs a session is orderly, its names are the global ones, and no run gets stuck. -/

/-- A run leaves the session in order, if the tokens of its source match themselves. -/
theorem Session.run_orderly (host : Host) {session : Session} (h : session.state.Orderly T)
    (n : Nat) (limit : Option Nat) (source : String)
    (hT : ∀ t ∈ (scan source).tokens, ∀ role : Role, role.isPlaced = true → T.Rel role t t) :
    (session.run host n limit source).session.state.Orderly T := by
  unfold Session.run Session.runWith
  dsimp only
  split
  · rename_i hvalid
    have hstatements := Program.matches_self (List.isEmpty_iff.1 hvalid) hT
    let start : State := { session.state with output := { limit } }
    have hstart : start.Orderly T := h.of_same rfl rfl rfl
    have hafter : State.Orderly T
        (stateAfter (execProgramWith .standard host n (Program.ofSource source).statements start)) :=
      hstart.execProgram n hstatements
    rw [runStatementsWith_state]
    exact hafter.of_same rfl rfl rfl
  · exact h

theorem Session.run_of_valid (session : Session) (host : Host) (n : Nat) (limit : Option Nat)
    {source : String} (hvalid : (Program.ofSource source).errors = []) :
    session.run host n limit source =
      session.runStatementsWith .standard host n limit (Program.ofSource source).statements := by
  unfold Session.run Session.runWith
  dsimp only
  rw [hvalid]
  rfl

theorem Session.after_concat (host : Host) (inputs : List Session.Input) (input : Session.Input) :
    Session.fresh.after .standard host (inputs ++ [input]) =
      ((Session.fresh.after .standard host inputs).run host input.budget input.limit
        input.source).session := by
  unfold Session.after
  rw [List.foldl_concat]
  rfl

theorem after_orderly (host : Host) (inputs : List Session.Input)
    (hT : ∀ input ∈ inputs, ∀ t ∈ (scan input.source).tokens, ∀ role : Role,
      role.isPlaced = true → T.Rel role t t) :
    (Session.fresh.after .standard host inputs).state.Orderly T := by
  induction inputs using List.reverseRecOn with
  | nil => exact fresh_orderly T
  | append_singleton inputs input ih =>
    rw [Session.after_concat]
    apply Session.run_orderly
    · exact ih fun input hinput => hT input (List.mem_append_left _ hinput)
    · exact hT input (List.mem_append_right _ List.mem_cons_self)

/-- Between runs the names in sight are the global ones. -/
theorem Session.mem_names_iff {session : Session} (h : session.state.store.WellFormed)
    (hcurrent : session.state.current = ScopeStore.globalId) (name : String) :
    name ∈ session.names ↔ (session.global? name).isSome := by
  obtain ⟨g, hg, -⟩ := h.root
  have houter : g.enclosing = none := by
    cases henclosing : g.enclosing with
    | none => rfl
    | some outer => exact absurd (h.nested _ g outer hg henclosing) (Nat.not_lt_zero _)
  have hnames : session.state.store.names session.state.current = .ok g.bindings.names := by
    rw [hcurrent, ScopeStore.names, ScopeStore.namesFrom, hg]
    simp [houter]
  unfold Session.names Session.global? ScopeStore.getLocal?
  rw [hnames, hg, Option.bind_some]
  exact g.bindings.mem_names_iff name

theorem mem_names_after_iff (host : Host) (inputs : List Session.Input) (name : String) :
    name ∈ (Session.fresh.after .standard host inputs).names ↔
      ((Session.fresh.after .standard host inputs).global? name).isSome := by
  obtain ⟨hsound, hcurrent, -⟩ := after_idle host inputs
  exact Session.mem_names_iff hsound.store hcurrent name

/-- A run does not get stuck, and operators stay where they belong. -/
theorem Session.run_admits (host : Host) {session : Session}
    (h : session.state.Sound Role.Admits) (n : Nat) (limit : Option Nat) (source : String) :
    (session.run host n limit source).session.state.Sound Role.Admits ∧
      ∀ reason, (session.run host n limit source).ending ≠ .halted (.stuck reason) := by
  unfold Session.run Session.runWith
  dsimp only
  split
  · have hmatches : List.Forall₂ (Stmt.Matches (.only Role.Admits) .top)
        (Program.ofSource source).statements (Program.ofSource source).statements :=
      List.forall₂_same.2 fun s hs =>
        ((Parser.parse_obeys (scan source).tokens).1 s hs .top).matches_self
    obtain ⟨r, hrun, hends⟩ := Session.runStatements_endsSound host h n limit hmatches
    have hfree := hends.notStuck
    rw [hrun]
    cases r with
    | ok _ s => exact ⟨hends.2.1.of_same rfl rfl, fun reason hstuck => by cases hstuck⟩
    | error halt s =>
      refine ⟨hends.2.1.of_same rfl rfl, ?_⟩
      intro reason hstuck
      rw [Session.Ending.halted.inj hstuck] at hfree
      exact hfree
  · exact ⟨h, fun reason hstuck => by cases hstuck⟩

theorem after_admits (host : Host) (inputs : List Session.Input) :
    (Session.fresh.after .standard host inputs).state.Sound Role.Admits := by
  induction inputs using List.reverseRecOn with
  | nil => exact fresh_sound _
  | append_singleton inputs input ih =>
    rw [Session.after_concat]
    exact (Session.run_admits host ih input.budget input.limit input.source).1

end

/-! ## Runs in step

What a run shows is what it writes, how it ends and which globals it leaves. From here on runs are
compared by these, and the machines are left out. -/

/-- Runs end the same way: both complete, or both halt for the same reason at tokens that match. -/
inductive Session.Ending.Matches (T : TokenMatch) : Ending → Ending → Prop
  | completed : Matches T .completed .completed
  | halted {halt halt'} (h : halt.Matches T halt') : Matches T (.halted halt) (.halted halt')

/-- Runs that are in step, after something was written: they write the same after that, end the same
way, and leave the same globals with the same texts. -/
structure Session.Run.Matches (T : TokenMatch) (before before' : ByteArray) (run run' : Run) :
    Prop where
  written : ∃ text, run.written = before ++ text ∧ run'.written = before' ++ text
  ending : run.ending.Matches T run'.ending
  texts : ∀ name, (run'.session.global? name).map Value.text =
    (run.session.global? name).map Value.text

section

variable {T : TokenMatch}

theorem Session.Run.matches_of_endsAlike {S : Setting} {w : Pair} {Q : Pair → Unit → Unit → Prop}
    {r r' : EStateM.Result Halt State Unit} (h : S.EndsAlike T w Q r r') :
    Run.Matches T S.start.left.output.written S.start.right.output.written (.ofResult r)
      (.ofResult r') := by
  cases h with
  | ok w' hleft hright _ hstep _ =>
    subst hleft hright
    have htexts := Setting.InStep.global_text hstep
    exact ⟨hstep.written, .completed, htexts⟩
  | halt w' hleft hright _ hstep hhalt =>
    subst hleft hright
    have htexts := Setting.InStep.global_text hstep
    exact ⟨hstep.written, .halted hhalt, htexts⟩

/-- What the second of two runs in step writes, if nothing was written before the first. -/
theorem Session.Run.Matches.written_eq {before : ByteArray} {run run' : Run}
    (h : run.Matches T .empty before run') : run'.written = before ++ run.written := by
  obtain ⟨text, hwritten, hwritten'⟩ := h.written
  rw [hwritten, hwritten', ByteArray.empty_append]

/-- What ends like a run that halts with a fault halts with the fault at a matching token. -/
theorem Session.Ending.Matches.of_fault {fault : RuntimeFault} {t : Token} {ending : Ending}
    (h : Matches T (.halted (.fault ⟨fault, t⟩)) ending) :
    ∃ t', (∃ role, T.Rel role t t') ∧ ending = .halted (.fault ⟨fault, t'⟩) := by
  cases h with
  | halted h =>
    cases h with
    | fault _ ht => exact ⟨_, ⟨_, ht⟩, rfl⟩

/-- Matching statements, run in one orderly session. -/
theorem Session.runStatements_matches (host : Host) {session : Session}
    (h : session.state.Orderly T) (n : Nat) (limit : Option Nat) {ss ss' : List Stmt}
    (hss : List.Forall₂ (Stmt.Matches T .top) ss ss') :
    Run.Matches T .empty .empty (session.runStatementsWith .standard host n limit ss)
      (session.runStatementsWith .standard host n limit ss') := by
  let start : State := { session.state with output := { limit } }
  have hstart : start.Orderly T := h.of_same rfl rfl rfl
  rw [Session.runStatementsWith_eq, Session.runStatementsWith_eq]
  exact Run.matches_of_endsAlike (hstart.sound.execProgram (fun _ => rfl) n hss)

/-- Statements that are run after others, or together with them. -/
theorem Session.runStatements_joins (host : Host) {session : Session} (n : Nat)
    (limit : Option Nat) {ss next next' : List Stmt} (h : session.state.Orderly T)
    (hss : List.Forall₂ (Stmt.Matches T .top) ss ss)
    (hnext : List.Forall₂ (Stmt.Matches T .top) next next') {first second joined : Run}
    (hfirst : first = session.runStatementsWith .standard host n limit ss)
    (hsecond : second = first.session.runStatementsWith .standard host n
      (limit.map (· - first.written.size)) next)
    (hjoined : joined = session.runStatementsWith .standard host n limit (ss ++ next')) :
    (first.ending = .completed → Run.Matches T .empty first.written second joined) ∧
      (first.ending ≠ .completed → joined = first) := by
  let start : State := { session.state with output := { limit } }
  have hstart : start.Orderly T := h.of_same rfl rfl rfl
  have hself : (Setting.self start).EndsAlike T ⟨start, start⟩ _
      (execProgramWith .standard host n ss start) (execProgramWith .standard host n ss start) :=
    hstart.sound.execProgram (fun _ => rfl) n hss
  have hafter := hstart.after hself
  rw [Session.runStatementsWith_eq] at hfirst hsecond hjoined
  cases hrun : execProgramWith .standard host n ss start with
  | error halt s =>
    -- the joined run halts there as well
    rw [hrun] at hfirst
    rw [execProgram_append_of_error hrun next'] at hjoined
    refine ⟨?_, fun _ => hjoined.trans hfirst.symm⟩
    intro hcompleted
    rw [hfirst] at hcompleted
    cases hcompleted
  | ok value s =>
    rw [hrun] at hself hafter
    have hlimit : s.output.limit = limit := by
      cases hself with
      | ok w hleft _ _ hstep _ =>
        subst hleft
        exact hstep.limit
    -- the second run has what room the first has left
    let output : Output := { limit := limit.map (· - s.output.written.size) }
    have hroom : s.output.room = output.room := by
      unfold Output.room
      rw [hlimit]
      show _ = (limit.map (· - s.output.written.size)).map (· - 0)
      cases limit <;> rfl
    rw [hrun] at hfirst
    rw [hfirst] at hsecond
    rw [execProgram_append_of_ok hrun next'] at hjoined
    refine ⟨fun _ => ?_, fun hnot => absurd (congrArg Run.ending hfirst) hnot⟩
    rw [hsecond, hjoined, hfirst]
    exact Run.matches_of_endsAlike (State.Orderly.execProgram_cut host hafter hroom n hnext)

end

/-! ## Places of faults

A fault has the place of its token, and a token the place it has in its source. Whether that is the
source that is run or an earlier one cannot be read off the token. It shows when text is put in front
of the source: the fault is then told further on, or it is not. -/

/-- The same end, but for a fault, which is told further on. -/
def Session.Ending.shift (d : Shift) : Ending → Ending
  | .halted (.fault e) => .halted (.fault { e with token := e.token.shift d })
  | ending => ending

/-- How a run ends when its source stands behind other text. A fault in the source itself (`own`) is
told further on then, and one in a function of an earlier source is told where it was. -/
def Session.Ending.behind (own : Bool) (d : Shift) (ending : Ending) : Ending :=
  if own then ending.shift d else ending

/-- A text in which there is nothing to run: it has no static faults and no statements, and it leaves
no comment open. -/
structure Silent (text : String) : Prop where
  valid : (Program.ofSource text).errors = []
  empty : (Program.ofSource text).statements = []
  closed : endsInComment text.toList = false

/-- Whether the fault of a run is in the source that is run (`own`): put behind any silent text, the
source makes the run end with the fault further on, by that text; and the token of the fault is one of
the source. Otherwise the fault stays where it is, and its token is an earlier one. -/
structure Session.PlacesFault (session : Session) (host : Host) (n : Nat) (limit : Option Nat)
    (source : String) (earlier : Token → Prop) (own : Bool) : Prop where
  behind : ∀ text, Silent text → (session.run host n limit (text ++ "\n" ++ source)).ending =
    (session.run host n limit source).ending.behind own (.past text.toList)
  token : ∀ e, (session.run host n limit source).ending = .halted (.fault e) →
    if own then e.token ∈ (scan source).tokens else earlier e.token

/-- A fault is in one place only. -/
theorem Session.PlacesFault.unique {session : Session} {host : Host} {n : Nat} {limit : Option Nat}
    {source : String} {earlier earlier' : Token → Prop} {own own' : Bool} {e : RuntimeError}
    (h : session.PlacesFault host n limit source earlier own)
    (h' : session.PlacesFault host n limit source earlier' own')
    (hfault : (session.run host n limit source).ending = .halted (.fault e)) : own = own' := by
  have hsilent : Silent "" := ⟨by cbv, by cbv, by cbv⟩
  have hplaces := (h.behind "" hsilent).symm.trans (h'.behind "" hsilent)
  rw [hfault] at hplaces
  have hmoved : (Session.Ending.halted (.fault e)).shift (.past "".toList) ≠ .halted (.fault e) := by
    intro heq
    have hline : e.token.line + 1 = e.token.line := by
      injection heq with heq
      injection heq with heq
      exact congrArg (fun e => e.token.line) heq
    omega
  cases own <;> cases own'
  · rfl
  · exact absurd hplaces.symm hmoved
  · exact absurd hplaces hmoved
  · rfl

theorem Token.shift_injective (d : Shift) : Function.Injective (Token.shift d) := by
  rintro ⟨kind, lexeme, literal, line, ⟨start, stop⟩⟩ ⟨kind', lexeme', literal', line', ⟨start', stop'⟩⟩
    heq
  simpa [Token.shift, Span.shift] using heq

/-- Tokens can be moved so far on that they are equal to none of a list. -/
theorem exists_shift_apart (ts : List Token) :
    ∃ far : Shift, ∀ t ∈ ts, ∀ u : Token, t ≠ u.shift far := by
  obtain ⟨last, hlast⟩ := (ts.map Token.line).finite_toSet.bddAbove
  refine ⟨⟨0, last + 1⟩, ?_⟩
  rintro _ ht u rfl
  have hline : (u.shift ⟨0, last + 1⟩).line ≤ last := hlast (List.mem_map_of_mem ht)
  change u.line + (last + 1) ≤ last at hline
  omega

/-- Tokens of a source that is far on, and of the same source elsewhere; earlier ones stay. -/
def movedFrom (source : String) (far : Shift) (earlier : Token → Prop) (d : Shift) :
    TokenMatch where
  Rel _ t t' := (∃ u ∈ (scan source).tokens, t = u.shift far ∧ t' = u.shift d) ∨ earlier t ∧ t' = t
  kind_eq h := by
    rcases h with ⟨u, -, rfl, rfl⟩ | ⟨-, rfl⟩ <;> rfl
  lexeme_eq h := by
    rcases h with ⟨u, -, rfl, rfl⟩ | ⟨-, rfl⟩ <;> rfl

section

variable {next : String} {far : Shift} {earlier : Token → Prop}

/-- A run whose source is so far on that its tokens are equal to no earlier ones tells which source
the fault is of, wherever the source is. -/
theorem Session.Ending.exists_behind (hapart : ∀ t, earlier t → ∀ u : Token, t ≠ u.shift far)
    {reference ending : Ending} (h : reference.Matches (movedFrom next far earlier ⟨0, 0⟩) ending)
    (hstuck : ∀ reason, ending ≠ .halted (.stuck reason)) :
    ∃ own : Bool, (∀ d moved, reference.Matches (movedFrom next far earlier d) moved →
        moved = ending.behind own d) ∧
      ∀ e, ending = .halted (.fault e) →
        if own then e.token ∈ (scan next).tokens else earlier e.token := by
  cases h with
  | completed =>
    refine ⟨true, ?_, fun e he => by cases he⟩
    rintro d _ ⟨⟩
    rfl
  | halted h =>
    cases h with
    | noOperator ht => exact absurd rfl (hstuck _)
    | @fault role t t' fault _ ht =>
      rcases ht with ⟨u, hu, rfl, rfl⟩ | ⟨ht, rfl⟩
      · refine ⟨true, ?_, fun e he => ?_⟩
        · intro d moved hmoved
          obtain ⟨_, ⟨_, ⟨u', -, heq, rfl⟩ | ⟨hearlier, -⟩⟩, rfl⟩ := hmoved.of_fault
          · rw [← Token.shift_injective far heq]
            rfl
          · exact absurd rfl (hapart _ hearlier u)
        · cases he
          exact hu
      · refine ⟨false, ?_, fun e he => ?_⟩
        · intro d moved hmoved
          obtain ⟨_, ⟨_, ⟨u', -, heq, -⟩ | ⟨-, rfl⟩⟩, rfl⟩ := hmoved.of_fault
          · exact absurd heq (hapart _ ht u')
          · rfl
        · cases he
          exact ht
    | outputClosed =>
      refine ⟨true, ?_, fun e he => by cases he⟩
      intro d moved hmoved
      cases hmoved with
      | halted h =>
        cases h
        rfl
    | outOfBudget =>
      refine ⟨true, ?_, fun e he => by cases he⟩
      intro d moved hmoved
      cases hmoved with
      | halted h =>
        cases h
        rfl

/-! ## Runs beside the distant one

The trees of the second source far on (`distant`) are run where the second source is. The runs of that
source, of the source behind silent text, and of the joined sources are all in step with this one. -/

variable {distant : List Stmt}

theorem Program.Moved.exists_matching (h : Program.Moved next far distant) (earlier : Token → Prop)
    (d : Shift) : ∃ ss, Program.Moved next d ss ∧
      List.Forall₂ (Stmt.Matches (movedFrom next far earlier d) .top) distant ss :=
  h.elsewhere d fun t ht _ _ => .inl ⟨t, ht, rfl, rfl⟩

/-- A source without static faults can be moved on. -/
theorem Program.exists_moved (hvalid : (Program.ofSource next).errors = []) (d : Shift) :
    ∃ ss, Program.Moved next d ss := by
  obtain ⟨ss, hss, -⟩ := (Program.moved_zero hvalid).exists_matching (fun _ => False) d
  exact ⟨ss, hss⟩

theorem Session.run_matches_distant (hdistant : Program.Moved next far distant) (host : Host)
    {session : Session} (h : session.state.Orderly (movedFrom next far earlier ⟨0, 0⟩)) (n : Nat)
    (limit : Option Nat) (hnext : (Program.ofSource next).errors = []) :
    Run.Matches (movedFrom next far earlier ⟨0, 0⟩) .empty .empty
      (session.runStatementsWith .standard host n limit distant)
      (session.run host n limit next) := by
  obtain ⟨ss, hss, hmatches⟩ := hdistant.exists_matching earlier ⟨0, 0⟩
  rw [hss.unique (Program.moved_zero hnext)] at hmatches
  rw [Session.run_of_valid _ _ _ _ hnext]
  exact Session.runStatements_matches host h n limit hmatches

theorem Session.run_behind_matches_distant (hdistant : Program.Moved next far distant)
    (host : Host) {session : Session} {text : String}
    (h : session.state.Orderly (movedFrom next far earlier (.past text.toList))) (n : Nat)
    (limit : Option Nat) (hnext : (Program.ofSource next).errors = []) (hsilent : Silent text) :
    Run.Matches (movedFrom next far earlier (.past text.toList)) .empty .empty
      (session.runStatementsWith .standard host n limit distant)
      (session.run host n limit (text ++ "\n" ++ next)) := by
  obtain ⟨ss, hss, hmatches⟩ := hdistant.exists_matching earlier (.past text.toList)
  obtain ⟨hvalid, hjoin⟩ := Program.ofSource_join hsilent.valid hnext hsilent.closed hss
  rw [Session.run_of_valid _ _ _ _ hvalid, hjoin, hsilent.empty, List.nil_append]
  exact Session.runStatements_matches host h n limit hmatches

/-- In an orderly session the fault of a run has its place, and runs beside the distant one end as that
place says. -/
theorem Session.exists_placesFault (hapart : ∀ t, earlier t → ∀ u : Token, t ≠ u.shift far)
    (hdistant : Program.Moved next far distant) (host : Host) {session : Session}
    (h : ∀ d, session.state.Orderly (movedFrom next far earlier d))
    (hadmits : session.state.Sound Role.Admits) (n : Nat) (limit : Option Nat)
    (hnext : (Program.ofSource next).errors = []) :
    ∃ own, session.PlacesFault host n limit next earlier own ∧ ∀ d moved,
      (session.runStatementsWith .standard host n limit distant).ending.Matches
        (movedFrom next far earlier d) moved →
      moved = (session.run host n limit next).ending.behind own d := by
  have hrun := Session.run_matches_distant hdistant host (h _) n limit hnext
  obtain ⟨-, hstuck⟩ := Session.run_admits host hadmits n limit next
  obtain ⟨own, hown, htoken⟩ := Session.Ending.exists_behind hapart hrun.ending hstuck
  refine ⟨own, ⟨fun text hsilent => ?_, htoken⟩, hown⟩
  exact hown _ _ (Session.run_behind_matches_distant hdistant host (h _) n limit hnext hsilent).ending

theorem Session.run_join_matches_distant (hdistant : Program.Moved next far distant)
    (host : Host) {session : Session} {source : String}
    (h : session.state.Orderly (movedFrom next far earlier (.past source.toList))) (n : Nat)
    (limit : Option Nat) (hsource : (Program.ofSource source).errors = [])
    (hnext : (Program.ofSource next).errors = []) (hclosed : endsInComment source.toList = false)
    (hearlier : ∀ t ∈ (scan source).tokens, earlier t) :
    let first := session.run host n limit source
    let joined := session.run host n limit (source ++ "\n" ++ next)
    (first.ending = .completed →
      Run.Matches (movedFrom next far earlier (.past source.toList)) .empty first.written
        (first.session.runStatementsWith .standard host n (limit.map (· - first.written.size))
          distant) joined) ∧
    (first.ending ≠ .completed → joined = first) := by
  intro first joined
  obtain ⟨ss, hss, hmatches⟩ := hdistant.exists_matching earlier (.past source.toList)
  obtain ⟨hvalid, hjoin⟩ := Program.ofSource_join hsource hnext hclosed hss
  have hjoined : joined = session.runStatementsWith .standard host n limit
      ((Program.ofSource source).statements ++ ss) := by
    rw [← hjoin]
    exact session.run_of_valid host n limit hvalid
  have hstatements := Program.matches_self (T := movedFrom next far earlier (.past source.toList))
    hsource fun t ht _ _ => .inr ⟨hearlier t ht, rfl⟩
  exact Session.runStatements_joins host n limit h hstatements hmatches
    (session.run_of_valid host n limit hsource) rfl hjoined

end

/-! ## The theorem -/

/-- **Splitting a source over two runs makes no difference.** In a session that has run some inputs,
let two sources without static faults be run one after the other, and joined by a newline at once;
let the first not end inside a comment, and let the second have what room of the output the first
leaves. If the first one completes, the joined run writes what both write, ends like the second, and
leaves the same globals with the same texts. If the fault of the second run is in the second source,
the joined run tells it further on, by the bytes and lines of the first source and the newline; if it
is in a function of the first source or an earlier one, the joined run tells it where it was. If the
first does not complete, the joined run is the same. -/
theorem run_join (host : Host) (inputs : List Session.Input) (n : Nat) (limit : Option Nat)
    {source next : String} (hsource : (Program.ofSource source).errors = [])
    (hnext : (Program.ofSource next).errors = []) (hclosed : endsInComment source.toList = false) :
    let session := Session.fresh.after .standard host inputs
    let first := session.run host n limit source
    let room := limit.map (· - first.written.size)
    let second := first.session.run host n room next
    let joined := session.run host n limit (source ++ "\n" ++ next)
    (first.ending = .completed →
      joined.written = first.written ++ second.written ∧
      (∃ own : Bool, first.session.PlacesFault host n room next
          (fun t => t ∈ (scan source).tokens ∨ ∃ input ∈ inputs, t ∈ (scan input.source).tokens) own ∧
        joined.ending = second.ending.behind own (.past source.toList)) ∧
      (∀ name, name ∈ joined.session.names ↔ name ∈ second.session.names) ∧
      ∀ name, (joined.session.global? name).map Value.text =
        (second.session.global? name).map Value.text) ∧
    (first.ending ≠ .completed → joined = first) := by
  intro session first room second joined
  let earlier : Token → Prop := fun t =>
    t ∈ (scan source).tokens ∨ ∃ input ∈ inputs, t ∈ (scan input.source).tokens
  obtain ⟨far, hfar⟩ := exists_shift_apart
    ((scan source).tokens ++ inputs.flatMap fun input => (scan input.source).tokens)
  have hapart : ∀ t, earlier t → ∀ u : Token, t ≠ u.shift far := by
    intro t ht
    apply hfar t
    rw [List.mem_append, List.mem_flatMap]
    exact ht
  obtain ⟨distant, hdistant⟩ := Program.exists_moved hnext far
  let reference := first.session.runStatementsWith .standard host n room distant
  have hself : ∀ d t, earlier t → ∀ role : Role, role.isPlaced = true →
      (movedFrom next far earlier d).Rel role t t := fun _ _ ht _ _ => .inr ⟨ht, rfl⟩
  have hsession : ∀ d, session.state.Orderly (movedFrom next far earlier d) := fun d =>
    after_orderly host inputs fun input hinput t ht => hself d t (.inr ⟨input, hinput, ht⟩)
  have hfirst : ∀ d, first.session.state.Orderly (movedFrom next far earlier d) := fun d =>
    Session.run_orderly host (hsession d) n limit source fun t ht => hself d t (.inl ht)
  -- the sessions are those after some inputs
  let firstInputs : List Session.Input := inputs ++ [⟨source, n, limit⟩]
  let secondInputs : List Session.Input := firstInputs ++ [⟨next, n, room⟩]
  have hafterFirst : Session.fresh.after .standard host firstInputs = first.session :=
    Session.after_concat host inputs ⟨source, n, limit⟩
  have hafterSecond : Session.fresh.after .standard host secondInputs = second.session := by
    rw [Session.after_concat, hafterFirst]
  have hadmits := after_admits host firstInputs
  rw [hafterFirst] at hadmits
  have hsecond : reference.Matches _ .empty .empty second :=
    Session.run_matches_distant hdistant host (hfirst _) n room hnext
  obtain ⟨own, hplaces, hown⟩ :=
    Session.exists_placesFault hapart hdistant host hfirst hadmits n room hnext
  obtain ⟨hjoins, hhalts⟩ := Session.run_join_matches_distant hdistant host (hsession _) n limit
    hsource hnext hclosed fun t ht => .inl ht
  refine ⟨fun hcompleted => ?_, hhalts⟩
  have hjoined : reference.Matches _ .empty first.written joined := hjoins hcompleted
  have htexts : ∀ name, (joined.session.global? name).map Value.text =
      (second.session.global? name).map Value.text :=
    fun name => (hjoined.texts name).trans (hsecond.texts name).symm
  refine ⟨?_, ⟨own, hplaces, hown _ _ hjoined.ending⟩, ?_, htexts⟩
  · rw [hjoined.written_eq, hsecond.written_eq, ByteArray.empty_append]
  · intro name
    have hsecondNames := mem_names_after_iff host secondInputs name
    have hjoinedNames := mem_names_after_iff host
      (inputs ++ [⟨source ++ "\n" ++ next, n, limit⟩]) name
    rw [hafterSecond] at hsecondNames
    rw [Session.after_concat] at hjoinedNames
    rw [hsecondNames, ← Option.isSome_map, ← htexts name, Option.isSome_map]
    exact hjoinedNames

/-- A source that can be run once: the test case it makes takes the place of the function that made
it. -/
def runsOnce : String :=
  "TestCase = TestCase(\"a\", nil);"

/-- Run again, it fails at a token that is equal to one of the run before. The fault is in the second
source all the same, and the joined run tells it a line further on. -/
theorem run_join_runsOnce :
    let first := Session.fresh.run idleHost 8 none runsOnce
    let second := first.session.run idleHost 8 none runsOnce
    let joined := Session.fresh.run idleHost 8 none (runsOnce ++ "\n" ++ runsOnce)
    let paren : Token := ⟨.rightParen, ")", none, 1, ⟨28, 29⟩⟩
    (Program.ofSource runsOnce).errors = [] ∧ endsInComment runsOnce.toList = false ∧
      first.ending = .completed ∧ second.ending = .halted (.fault ⟨.notCallable, paren⟩) ∧
      joined.ending = .halted (.fault ⟨.notCallable, { paren with line := 2, span := ⟨59, 60⟩ }⟩) ∧
      first.session.PlacesFault idleHost 8 none runsOnce
        (fun t => t ∈ (scan runsOnce).tokens ∨
          ∃ input ∈ ([] : List Session.Input), t ∈ (scan input.source).tokens) true := by
  intro first second joined paren
  have hvalid : (Program.ofSource runsOnce).errors = [] := by cbv
  have hclosed : endsInComment runsOnce.toList = false := by cbv
  have hfirst : first.ending = .completed := by
    show (Session.fresh.run idleHost 8 none runsOnce).ending = _
    cbv
  have hsecond : second.ending = .halted (.fault ⟨.notCallable, paren⟩) := by
    show ((Session.fresh.run idleHost 8 none runsOnce).session.run idleHost 8 none runsOnce).ending =
      .halted (.fault ⟨.notCallable, .rightParen, ")", none, 1, 28, 29⟩)
    cbv
  have hjoined : joined.ending =
      .halted (.fault ⟨.notCallable, { paren with line := 2, span := ⟨59, 60⟩ }⟩) := by
    show (Session.fresh.run idleHost 8 none (runsOnce ++ "\n" ++ runsOnce)).ending =
      .halted (.fault ⟨.notCallable, .rightParen, ")", none, 2, 59, 60⟩)
    cbv
  obtain ⟨own, hplaces, hbehind⟩ :=
    ((run_join idleHost [] 8 none hvalid hvalid hclosed).1 hfirst).2.1
  refine ⟨hvalid, hclosed, hfirst, hsecond, hjoined, ?_⟩
  cases own with
  | true => exact hplaces
  | false =>
    have hsame : joined.ending = second.ending := hbehind
    rw [hsecond, hjoined] at hsame
    injection hsame with hsame
    injection hsame with hsame
    exact absurd (congrArg (fun e => e.token.line) hsame) (by decide)

/-- A function that fails when it is called. -/
def declaresFailing : String :=
  "fun f() { return -nil; } // not yet"

/-- The same report about a place further on. -/
def Diagnostic.shift (d : Shift) : Diagnostic → Diagnostic
  | .io message => .io message
  | .scan message line span => .scan message (line + d.lines) (span.shift d)
  | .parse message location line span => .parse message location (line + d.lines) (span.shift d)
  | .runtime message line span => .runtime message (line + d.lines) (span.shift d)

/-- Not all that the second run tells is told further on by the joined one: the fault in the function
is on the first line in both. -/
theorem join_not_always_shifted :
    ¬ ∀ (host : Host) (inputs : List Session.Input) (n : Nat) (limit : Option Nat)
      (source next : String), (Program.ofSource source).errors = [] →
      (Program.ofSource next).errors = [] → endsInComment source.toList = false →
      let session := Session.fresh.after .standard host inputs
      let first := session.run host n limit source
      let second := first.session.run host n (limit.map (· - first.written.size)) next
      let joined := session.run host n limit (source ++ "\n" ++ next)
      first.ending = .completed →
        joined.diagnostics = second.diagnostics.map (Diagnostic.shift (.past source.toList)) := by
  intro hall
  have hsource : (Program.ofSource declaresFailing).errors = [] := by cbv
  have hnext : (Program.ofSource "f();").errors = [] := by cbv
  have hclosed : endsInComment declaresFailing.toList = false := by cbv
  have hfirst : (Session.fresh.run idleHost 8 none declaresFailing).ending = .completed := by cbv
  have hsecond : ((Session.fresh.run idleHost 8 none declaresFailing).session.run idleHost 8 none
      "f();").ending = .halted (.fault ⟨.operandNotNumber, .minus, "-", none, 1, 17, 18⟩) := by
    cbv
  have hjoined : (Session.fresh.run idleHost 8 none (declaresFailing ++ "\n" ++ "f();")).ending =
      .halted (.fault ⟨.operandNotNumber, .minus, "-", none, 1, 17, 18⟩) := by
    cbv
  have hshifted : (Session.fresh.run idleHost 8 none
        (declaresFailing ++ "\n" ++ "f();")).diagnostics =
      ((Session.fresh.run idleHost 8 none declaresFailing).session.run idleHost 8 none
        "f();").diagnostics.map (Diagnostic.shift (.past declaresFailing.toList)) :=
    hall idleHost [] 8 none declaresFailing "f();" hsource hnext hclosed hfirst
  rw [Session.Run.diagnostics, Session.Run.diagnostics, hsecond, hjoined] at hshifted
  -- the lines alone tell them apart
  have hlines := congrArg (List.map Diagnostic.line?) hshifted
  change [some 1] = [some (1 + (newlines declaresFailing.toList + 1))] at hlines
  simp at hlines

end GradedScript
