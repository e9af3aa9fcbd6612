import GradedScript.Proofs.Machine.Congruence
import GradedScript.Proofs.Machine.Placement

/-!
# Rules that a program cannot tell apart

Rules that do the same at the tokens of a program, each in its role, run it the same. What they do
at other tokens is never asked for, also not by the functions that the program leaves behind
(`execProgram_of_agree`).

The argument has two halves. A guarded machine halts at names on tokens without a property. Beside
any machine that does as the language does at the other ones, it does the same or halts, whatever
runs (`guarding`). And on a program all of whose tokens have the property it never halts so, since
it is as sound as the machine of the language.
-/

namespace GradedScript

open Exec

variable {P : Role → Token → Prop} {host : Host} {rules rules' : Rules} {s : State}

/-- Rules that do the same at tokens that have a property in their role. -/
structure Exec.Rules.AgreeOn (P : Role → Token → Prop) (rules rules' : Rules) : Prop where
  read : ∀ t, P .read t → rules.readName t = rules'.readName t
  assign : ∀ t, P .assigned t → rules.assignName t = rules'.assignName t
  declareVariable : ∀ t, P .variableName t → rules.declareVariable t = rules'.declareVariable t
  declareFunction : rules.declareFunction = rules'.declareFunction
  leaveScope : rules.leaveScope = rules'.leaveScope

theorem Exec.Rules.AgreeOn.refl (P : Role → Token → Prop) (rules : Rules) :
    rules.AgreeOn P rules :=
  ⟨fun _ _ => rfl, fun _ _ => rfl, fun _ _ => rfl, rfl, rfl⟩

/-! ## The guarded machine -/

/-- As in the language, but at tokens without a property names are neither read nor written: the
machine halts there. -/
def Exec.Rules.guarded (P : Role → Token → Prop) [∀ role t, Decidable (P role t)] (halt : Halt) :
    Rules :=
  { Rules.standard with
    readName := fun t => if P .read t then Exec.readName t else throw halt
    assignName := fun t value => if P .assigned t then Exec.assignName t value else throw halt
    declareVariable := fun t value =>
      if P .variableName t then defineName t.lexeme value else throw halt }

section

variable [∀ role t, Decidable (P role t)]

theorem Exec.Rules.guarded_agree (halt : Halt) : Rules.standard.AgreeOn P (.guarded P halt) where
  read _ ht := (if_pos ht).symm
  assign _ ht := funext fun _ => (if_pos ht).symm
  declareVariable _ ht := funext fun _ => (if_pos ht).symm
  declareFunction := rfl
  leaveScope := rfl

/-! ## It does the same or halts -/

/-- Steps of which the first does the same as the second, or halts in some way, and comes back to
where it began. -/
def guarding (halt : Halt) : Congruence where
  Rel k x y := ∀ s, s.callDepth = k →
    s.Returns (stateAfter (x s)) ∧ (x s = y s ∨ ∃ s', x s = .error halt s')
  quiet h s _ := ⟨h.returns s, .inl rfl⟩
  write text s _ := by
    refine ⟨?_, .inl rfl⟩
    unfold writeLine
    split <;> exact ⟨rfl, rfl, rfl⟩
  bind {α β k x y f g} hx hf s hk := by
    obtain ⟨hreturns, hsame⟩ := hx s hk
    have hnext : ∀ a s', x s = .ok a s' → s'.Returns (stateAfter (f a s')) ∧
        (f a s' = g a s' ∨ ∃ s'', f a s' = .error halt s'') := by
      intro a s' hok
      rw [hok] at hreturns
      exact hf a s' (hreturns.callDepth.trans hk)
    refine ⟨returns_bind hreturns fun a s' hok => (hnext a s' hok).1, ?_⟩
    show EStateM.bind x f s = EStateM.bind y g s ∨ ∃ s', EStateM.bind x f s = .error halt s'
    unfold EStateM.bind
    rcases hsame with hsame | ⟨s', hhalted⟩
    · rw [← hsame]
      cases hok : x s with
      | ok a s' => exact (hnext a s' hok).2
      | error halt s' => exact .inl rfl
    · rw [hhalted]
      exact .inr ⟨s', rfl⟩
  look h s hk := by
    subst hk
    exact h s.loopDepth s rfl
  inside {α k k' x y} p hp h s hk := by
    obtain ⟨hreturns, hsame⟩ := h (p.enter s) (hp s hk)
    refine ⟨p.returns_step hreturns, ?_⟩
    rcases hsame with hsame | ⟨s', hhalted⟩
    · left
      unfold Passage.step thenLeave
      rw [hsame]
    · obtain ⟨s₂, hleave, -⟩ := p.leadsBack s _ hreturns
      right
      refine ⟨s₂, ?_⟩
      rw [Passage.step, thenLeave_eq hleave, hhalted]
      rfl

/-- A step that is guarded by a condition, beside one that is the same if the condition holds. -/
theorem guarding_ite {α : Type} {halt : Halt} {k : Nat} {p : Prop} [Decidable p] {x y : Exec α}
    (hx : Quiet x) (h : p → x = y) :
    (guarding halt).Rel k (if p then x else throw halt) y := by
  split
  · rename_i hp
    rw [← h hp]
    exact (guarding halt).quiet hx
  · exact fun s _ => ⟨.refl s, .inr ⟨s, rfl⟩⟩

theorem guarded_respects (halt : Halt) (h : Rules.standard.AgreeOn P rules) :
    (guarding halt).Respects (.guarded P halt) rules where
  read _ t := guarding_ite (quiet_readName t) fun ht => h.read t ht
  assign _ t value :=
    guarding_ite (quiet_assignName t value) fun ht => congrFun (h.assign t ht) value
  declareVariable _ t value :=
    guarding_ite (quiet_defineName t.lexeme value) fun ht => congrFun (h.declareVariable t ht) value
  declareFunction _ name params body := by
    rw [← h.declareFunction]
    exact (guarding halt).quiet (quiet_declareFunction name params body)
  leaves := rfl
  leaves' := h.leaveScope.symm

end

/-! ## It never halts there -/

/-- A comparison carries over to rules that do the same at the tokens that match. -/
def Comparison.ofAgree (C : Comparison (.only P) rules rules host host)
    (h : rules.AgreeOn P rules') : Comparison (.only P) rules' rules' host host :=
  { C with
    read := fun {w t t'} ht => by
      rw [← h.read t ht.2, ← h.read t' (ht.1 ▸ ht.2)]
      exact C.read ht
    assign := fun {w t t' v v'} ht hv => by
      rw [← h.assign t ht.2, ← h.assign t' (ht.1 ▸ ht.2)]
      exact C.assign ht hv
    declareVariable := fun {w p t t' v v'} hp ht hv => by
      rw [← h.declareVariable t ht.2, ← h.declareVariable t' (ht.1 ▸ ht.2)]
      exact C.declareVariable hp ht hv
    declareFunction := by
      rw [← h.declareFunction]
      exact C.declareFunction
    block := fun {w x y} hx => by
      rw [← insideBlock_congr h.leaveScope, ← insideBlock_congr h.leaveScope]
      exact C.block hx
    body := fun {w c c' params params' arguments arguments' x y} hc hparams harguments hx => by
      rw [← insideBody_congr h.leaveScope, ← insideBody_congr h.leaveScope]
      exact C.body hc hparams harguments hx }

section

variable {statements : List Stmt} (n : Nat)

/-- On a program whose tokens have the property, a machine that agrees on them is sound. -/
theorem execProgram_of_agree_endsSound (hs : s.Sound P) (h : Rules.standard.AgreeOn P rules)
    (hstatements : List.Forall₂ (Stmt.Matches (.only P) .top) statements statements) :
    EndsSound P true s (fun _ _ => True) (execProgramWith rules host n statements s) := by
  rw [← Rules.nesting_true] at h
  have htop : (soundness P true host).Allows s .top :=
    ⟨fun hf => absurd hf Bool.false_ne_true, fun hf => absurd hf Bool.false_ne_true⟩
  exact (((soundness P true host).ofAgree h).execProgram_related n hstatements htop hs).mono
    fun _ _ _ => trivial

/-- **What rules do at tokens that a program has not, does not matter to it.** -/
theorem execProgram_of_agree (hs : s.Sound P) (h : Rules.standard.AgreeOn P rules)
    (hstatements : List.Forall₂ (Stmt.Matches (.only P) .top) statements statements) :
    execProgramWith rules host n statements s =
      execProgramWith .standard host n statements s := by
  classical
  -- a halt that no sound machine comes to
  let halt : Halt := .stuck .depthUnderflow
  have hguarded : ∀ rules : Rules, Rules.standard.AgreeOn P rules →
      execProgramWith (.guarded P halt) host n statements s =
        execProgramWith rules host n statements s := by
    intro rules h
    have hsame := (guarding halt).execProgram_related (guarded_respects halt h) host n s.callDepth
      statements s rfl
    rcases hsame.2 with hsame | ⟨s', hhalted⟩
    · exact hsame
    · have hsound : EndsSound P true s _ (execProgramWith (.guarded P halt) host n statements s) :=
        execProgram_of_agree_endsSound n hs (Rules.guarded_agree halt) hstatements
      rw [hhalted] at hsound
      exact hsound.2.2.elim
  exact (hguarded rules h).symm.trans (hguarded .standard (.refl P _))

end

/-- The same for a session that runs a source. -/
theorem Session.runWith_of_agree {session : Session} {source : String} (n : Nat)
    (limit : Option Nat) (hs : session.state.Sound P) (h : Rules.standard.AgreeOn P rules)
    (hstatements : ∀ s ∈ (Program.ofSource source).statements, s.Every P .top) :
    session.runWith rules host n limit source = session.run host n limit source := by
  have hmatches : List.Forall₂ (Stmt.Matches (.only P) .top)
      (Program.ofSource source).statements (Program.ofSource source).statements :=
    List.forall₂_same.2 fun s hs => (hstatements s hs).matches_self
  have hstart : State.Sound P { session.state with output := { limit } } := hs.of_same rfl rfl
  unfold Session.run Session.runWith
  dsimp only
  rw [Session.runStatementsWith_eq, Session.runStatementsWith_eq,
    execProgram_of_agree n hstart h hmatches]

end GradedScript
