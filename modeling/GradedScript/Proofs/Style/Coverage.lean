import GradedScript.Proofs.Machine.Confinement
import GradedScript.Proofs.Text.Names
import GradedScript.Style.Report
import Mathlib

/-!
# Graded names are the names of all runs

The facts that a program is graded on are gathered from its tree. Every name that stands in the tree
where a variable is read, assigned or declared is among them (`Usage.ofProgram_covers`). A run meets
tokens of the tree only, each in its role, so it reads and writes no other names: it does not show
what reading or writing them would do (`run_confined_by_usage`).
-/

namespace GradedScript

open Exec

namespace Usage

/-! ## Names that facts cover -/

/-- The name of a token is among the facts, if it is read or written in that role. -/
def Covers (u : Usage) : Role → Token → Prop
  | .read, t => t.lexeme ∈ u.reads
  | .assigned, t => t.lexeme ∈ u.writes
  | .variableName, t => t.lexeme ∈ u.writes
  | _, _ => True

instance (u : Usage) (role : Role) (t : Token) : Decidable (u.Covers role t) :=
  match role with
  | .read => inferInstanceAs (Decidable (t.lexeme ∈ u.reads))
  | .assigned => inferInstanceAs (Decidable (t.lexeme ∈ u.writes))
  | .variableName => inferInstanceAs (Decidable (t.lexeme ∈ u.writes))
  | .unary | .binary | .logical | .functionName | .parameter | .paren | .breakAt _ | .returnAt _ =>
    inferInstanceAs (Decidable True)

/-- Facts with all names of others. -/
structure Extends (u v : Usage) : Prop where
  reads : u.reads ⊆ v.reads
  writes : u.writes ⊆ v.writes

section

variable {u v w : Usage}

theorem Extends.refl (u : Usage) : u.Extends u :=
  ⟨fun _ => id, fun _ => id⟩

theorem Extends.trans (h : u.Extends v) (h' : v.Extends w) : u.Extends w :=
  ⟨List.Subset.trans h.reads h'.reads, List.Subset.trans h.writes h'.writes⟩

theorem Extends.covers (h : u.Extends v) (role : Role) (t : Token) (ht : u.Covers role t) :
    v.Covers role t := by
  cases role with
  | read => exact h.reads ht
  | assigned => exact h.writes ht
  | variableName => exact h.writes ht
  | _ => trivial

theorem addWrite_extends (u : Usage) (name : String) : u.Extends (u.addWrite name) :=
  ⟨fun _ => id, fun _ h => mem_addName.2 (.inr h)⟩

theorem reads_addRead (u : Usage) (owner : Option Nat) (name : String) :
    (u.addRead owner name).reads = addName name u.reads := by
  cases owner <;> rfl

theorem addRead_extends (u : Usage) (owner : Option Nat) (name : String) :
    u.Extends (u.addRead owner name) := by
  refine ⟨fun _ h => ?_, ?_⟩
  · rw [reads_addRead]
    exact mem_addName.2 (.inr h)
  · cases owner <;> exact fun _ => id

theorem addLiteral_extends (u : Usage) (given : Bool) (literal : Literal) (line : Nat) :
    u.Extends (u.addLiteral given literal line) := by
  cases literal with
  | number value => cases given <;> exact ⟨fun _ => id, fun _ => id⟩
  | _ => exact .refl u

theorem addIf_extends (u : Usage) (hasElse : Bool) : u.Extends (u.addIf hasElse) :=
  ⟨fun _ => id, fun _ => id⟩

theorem addFunction_extends (u : Usage) (name : Token) (params : List Token) :
    u.Extends (u.addFunction name params) :=
  ⟨fun _ => id, fun _ => id⟩

/-! ## Facts only grow -/

mutual

theorem addExpr_extends (owner : Option Nat) (given : Bool) :
    (e : Expr) → (u : Usage) → u.Extends (addExpr owner given e u)
  | .literal value line, u => u.addLiteral_extends given value line
  | .grouping inner, u => addExpr_extends owner given inner u
  | .unary _ right, u => addExpr_extends owner given right u
  | .binary left _ right, u =>
    (addExpr_extends owner given left u).trans (addExpr_extends owner given right _)
  | .logical left _ right, u =>
    (addExpr_extends owner given left u).trans (addExpr_extends owner given right _)
  | .var name, u => u.addRead_extends owner name.lexeme
  | .assign name value, u =>
    (u.addWrite_extends name.lexeme).trans (addExpr_extends owner true value _)
  | .call callee _ arguments, u =>
    (addExpr_extends owner given callee u).trans (addExprs_extends owner given arguments _)

theorem addExprs_extends (owner : Option Nat) (given : Bool) :
    (es : List Expr) → (u : Usage) → u.Extends (addExprs owner given es u)
  | [], u => .refl u
  | e :: es, u => (addExpr_extends owner given e u).trans (addExprs_extends owner given es _)

end

theorem addExpr?_extends (owner : Option Nat) (given : Bool) (e : Option Expr) (u : Usage) :
    u.Extends (addExpr? owner given e u) := by
  cases e with
  | none => exact .refl u
  | some e => exact addExpr_extends owner given e u

mutual

theorem addStmt_extends (owner : Option Nat) :
    (s : Stmt) → (u : Usage) → u.Extends (addStmt owner s u)
  | .expression e, u => addExpr_extends owner false e u
  | .print e, u => addExpr_extends owner false e u
  | .varDecl name initializer, u =>
    (u.addWrite_extends name.lexeme).trans (addExpr?_extends owner true initializer _)
  | .block statements, u => addStmts_extends owner statements u
  | .ifElse condition thenBranch elseBranch, u =>
    (u.addIf_extends elseBranch.isSome).trans ((addExpr_extends owner false condition _).trans
      ((addStmt_extends owner thenBranch _).trans (addStmt?_extends owner elseBranch _)))
  | .whileLoop condition body, u =>
    (addExpr_extends owner false condition u).trans (addStmt_extends owner body _)
  | .breakOut _, u => .refl u
  | .funDecl name params body, u =>
    (u.addFunction_extends name params).trans (addStmts_extends (some u.functions.size) body _)
  | .giveBack _ value, u => addExpr?_extends owner false value u

theorem addStmts_extends (owner : Option Nat) :
    (ss : List Stmt) → (u : Usage) → u.Extends (addStmts owner ss u)
  | [], u => .refl u
  | s :: ss, u => (addStmt_extends owner s u).trans (addStmts_extends owner ss _)

theorem addStmt?_extends (owner : Option Nat) :
    (s : Option Stmt) → (u : Usage) → u.Extends (addStmt? owner s u)
  | none, u => .refl u
  | some s, u => addStmt_extends owner s u

end

/-! ## Facts cover the tree they are gathered from -/

mutual

theorem addExpr_covers (owner : Option Nat) (given : Bool) :
    (e : Expr) → (u : Usage) → e.Every (addExpr owner given e u).Covers
  | .literal value line, _ => .literal value line
  | .grouping inner, u => .grouping (addExpr_covers owner given inner u)
  | .unary _ right, u => .unary trivial (addExpr_covers owner given right u)
  | .binary left _ right, u =>
    .binary ((addExpr_covers owner given left u).mono (addExpr_extends owner given right _).covers)
      trivial (addExpr_covers owner given right _)
  | .logical left _ right, u =>
    .logical ((addExpr_covers owner given left u).mono (addExpr_extends owner given right _).covers)
      trivial (addExpr_covers owner given right _)
  | .var name, u => by
    refine .var ?_
    show name.lexeme ∈ (u.addRead owner name.lexeme).reads
    rw [reads_addRead]
    exact mem_addName.2 (.inl rfl)
  | .assign _ value, _ =>
    .assign ((addExpr_extends owner true value _).writes (mem_addName.2 (.inl rfl)))
      (addExpr_covers owner true value _)
  | .call callee _ arguments, u =>
    .call ((addExpr_covers owner given callee u).mono
        (addExprs_extends owner given arguments _).covers)
      trivial (addExprs_covers owner given arguments _)

theorem addExprs_covers (owner : Option Nat) (given : Bool) :
    (es : List Expr) → (u : Usage) → ∀ e ∈ es, e.Every (addExprs owner given es u).Covers
  | [], _, _, he => absurd he List.not_mem_nil
  | e :: es, u, e', he => by
    rcases List.mem_cons.1 he with heq | he
    · rw [heq]
      exact (addExpr_covers owner given e u).mono (addExprs_extends owner given es _).covers
    · exact addExprs_covers owner given es _ e' he

end

theorem addExpr?_covers (owner : Option Nat) (given : Bool) (e : Option Expr) (u : Usage) :
    ∀ e' ∈ e, e'.Every (addExpr? owner given e u).Covers := by
  rintro e' rfl
  exact addExpr_covers owner given e' u

mutual

theorem addStmt_covers (owner : Option Nat) :
    (s : Stmt) → (u : Usage) → (p : Place) → s.Every (addStmt owner s u).Covers p
  | .expression e, u, _ => .expression (addExpr_covers owner false e u)
  | .print e, u, _ => .print (addExpr_covers owner false e u)
  | .varDecl _ initializer, _, _ =>
    .varDecl ((addExpr?_extends owner true initializer _).writes (mem_addName.2 (.inl rfl)))
      (addExpr?_covers owner true initializer _)
  | .block statements, u, p => .block (addStmts_covers owner statements u p)
  | .ifElse condition thenBranch elseBranch, _, p =>
    .ifElse
      ((addExpr_covers owner false condition _).mono
        ((addStmt_extends owner thenBranch _).trans (addStmt?_extends owner elseBranch _)).covers)
      ((addStmt_covers owner thenBranch _ p).mono (addStmt?_extends owner elseBranch _).covers)
      (addStmt?_covers owner elseBranch _ p)
  | .whileLoop condition body, u, p =>
    .whileLoop ((addExpr_covers owner false condition u).mono (addStmt_extends owner body _).covers)
      (addStmt_covers owner body _ p.loopBody)
  | .breakOut _, _, _ => .breakOut trivial
  | .funDecl _ _ body, u, _ =>
    .funDecl trivial (fun _ _ => trivial) (addStmts_covers (some u.functions.size) body _ .body)
  | .giveBack _ value, u, _ => .giveBack trivial (addExpr?_covers owner false value u)

theorem addStmts_covers (owner : Option Nat) :
    (ss : List Stmt) → (u : Usage) → (p : Place) →
      ∀ s ∈ ss, s.Every (addStmts owner ss u).Covers p
  | [], _, _, _, hs => absurd hs List.not_mem_nil
  | s :: ss, u, p, s', hs => by
    rcases List.mem_cons.1 hs with heq | hs
    · rw [heq]
      exact (addStmt_covers owner s u p).mono (addStmts_extends owner ss _).covers
    · exact addStmts_covers owner ss _ p s' hs

theorem addStmt?_covers (owner : Option Nat) :
    (s : Option Stmt) → (u : Usage) → (p : Place) →
      ∀ s' ∈ s, s'.Every (addStmt? owner s u).Covers p
  | none, _, _, _, hs => absurd hs (by simp)
  | some s, u, p, s', hs => by
    obtain rfl := Option.some.inj hs
    exact addStmt_covers owner s u p

end

end

/-- **The facts of a program cover its tree**: each name that it reads or writes is known. -/
theorem ofProgram_covers (statements : List Stmt) :
    ∀ s ∈ statements, s.Every (ofProgram statements).Covers .top :=
  addStmts_covers none statements {} .top

end Usage

/-! ## Names of runs -/

/-- As in the language, but reading one name does something else. -/
def Exec.Rules.reading (name : String) (other : Token → Exec Value) : Rules :=
  { Rules.standard with
    readName := fun t => if t.lexeme = name then other t else Exec.readName t }

/-- Facts that do not know a name as read tell nothing about reading it. -/
theorem Exec.Rules.reading_agree {u : Usage} {name : String} (other : Token → Exec Value)
    (hunread : name ∉ u.reads) : Rules.standard.AgreeOn u.Covers (.reading name other) where
  read t ht := by
    have hne : t.lexeme ≠ name := fun heq => hunread (heq ▸ ht)
    exact (if_neg hne).symm
  assign _ _ := rfl
  declareVariable _ _ := rfl
  declareFunction := rfl
  leaveScope := rfl

/-- The report of given facts lists the names that are written and not read. -/
theorem Report.mem_unusedLocals {comments : Comments} {usage : Usage} {name : String} :
    name ∈ (Report.ofUsage comments usage).unusedLocals ↔
      name ∈ usage.writes ∧ name ∉ usage.reads := by
  simp [Report.ofUsage, sortNames]

theorem Report.ofSource_eq_ok {source : String} {report : Report} :
    Report.ofSource source = .ok report ↔
      (Program.ofSource source).errors = [] ∧
        report = Report.ofUsage (Program.ofSource source).comments
          (.ofProgram (Program.ofSource source).statements) := by
  unfold Report.ofSource
  dsimp only
  split
  · rename_i hclean
    rw [Except.ok.injEq, ← List.isEmpty_iff, eq_comm]
    exact (and_iff_right hclean).symm
  · rename_i hfaulty
    constructor
    · intro h
      cases h
    · rintro ⟨hclean, -⟩
      exact absurd (List.isEmpty_iff.2 hclean) hfaulty

/-- **Graded names are sound for every run.** Take any run of a source in a new session, of any
length and however it ends. What the rules do where a name is read that is not among the reads of
the facts, or a variable is declared or assigned that is not among the writes, does not show in it:
the run does not come there. In particular the machine may halt there, in whatever way, and reading
a name that the report lists as never read may do anything. -/
theorem run_confined_by_usage (host : Host) (n : Nat) (limit : Option Nat) (source : String) :
    let usage := Usage.ofProgram (Program.ofSource source).statements
    let run := Session.fresh.run host n limit source
    (∀ rules, Rules.standard.AgreeOn usage.Covers rules →
      Session.fresh.runWith rules host n limit source = run) ∧
    (∀ halt, Session.fresh.runWith (.guarded usage.Covers halt) host n limit source = run) ∧
    ∀ report, Report.ofSource source = .ok report → ∀ name ∈ report.unusedLocals,
      name ∈ usage.writes ∧ name ∉ usage.reads ∧
      ∀ other, Session.fresh.runWith (.reading name other) host n limit source = run := by
  intro usage run
  have hagree : ∀ rules, Rules.standard.AgreeOn usage.Covers rules →
      Session.fresh.runWith rules host n limit source = run :=
    fun rules h => Session.runWith_of_agree n limit (fresh_sound _) h
      (Usage.ofProgram_covers (Program.ofSource source).statements)
  refine ⟨hagree, fun halt => hagree _ (Rules.guarded_agree halt), ?_⟩
  intro report hreport name hname
  obtain ⟨-, rfl⟩ := Report.ofSource_eq_ok.1 hreport
  obtain ⟨hwritten, hunread⟩ := Report.mem_unusedLocals.1 hname
  exact ⟨hwritten, hunread, fun other => hagree _ (Rules.reading_agree other hunread)⟩

/-- A function with a variable that nothing reads, and a closure that reads its parameter. -/
def sparesVariable : String :=
  "fun f(x) { var spare = x; fun g() { return x; } return g; } print f(nil)();"

/-- The variable is set, the closure is called and its value is printed. -/
theorem run_confined_by_usage_sparesVariable :
    let usage := Usage.ofProgram (Program.ofSource sparesVariable).statements
    let run := Session.fresh.run idleHost 20 none sparesVariable
    (∃ report, Report.ofSource sparesVariable = .ok report ∧ "spare" ∈ report.unusedLocals) ∧
      0 < run.written.size ∧
      Session.fresh.runWith (.guarded usage.Covers .outputClosed) idleHost 20 none sparesVariable =
        run ∧
      Session.fresh.runWith (.reading "spare" fun _ => throw .outputClosed) idleHost 20 none
        sparesVariable = run := by
  obtain ⟨hagree, -, hunused⟩ := run_confined_by_usage idleHost 20 none sparesVariable
  have hclean : (Program.ofSource sparesVariable).errors = [] := by cbv
  have hspare : "spare" ∈ (Usage.ofProgram (Program.ofSource sparesVariable).statements).writes ∧
      "spare" ∉ (Usage.ofProgram (Program.ofSource sparesVariable).statements).reads := by
    decide +kernel
  have hreport := Report.ofSource_eq_ok.2 ⟨hclean, rfl⟩
  refine ⟨⟨_, hreport, Report.mem_unusedLocals.2 hspare⟩, ?_, hagree _ (Rules.guarded_agree _), ?_⟩
  · decide +kernel
  · exact (hunused _ hreport "spare" (Report.mem_unusedLocals.2 hspare)).2.2 _

end GradedScript
