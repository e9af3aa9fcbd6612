import GradedScript.Style.Usage
import Mathlib.Data.List.Basic

/-!
# The nodes of a tree

Every expression and statement in a tree is a node of it. `Node.occurrences` lists them with each
node before its parts, and the parts from left to right. An occurrence knows the branches that lead
to it, so it can be asked what it lies under.
-/

namespace GradedScript

/-- A node of a tree. -/
inductive Node where
  | expr (e : Expr)
  | stmt (s : Stmt)

/-- The way from a node to one of its parts: to the value that a variable is declared with, to the
value that is assigned, to the body of a function, or to any other part. -/
inductive Branch where
  | initializer
  | assigned
  | body
  | part
deriving DecidableEq

/-- The parts of a node, in order. -/
def Node.parts : Node → List (Branch × Node)
  | .expr (.literal ..) | .expr (.var _) => []
  | .expr (.grouping inner) => [(.part, .expr inner)]
  | .expr (.unary _ right) => [(.part, .expr right)]
  | .expr (.binary left _ right) | .expr (.logical left _ right) =>
    [(.part, .expr left), (.part, .expr right)]
  | .expr (.assign _ value) => [(.assigned, .expr value)]
  | .expr (.call callee _ arguments) =>
    (.part, .expr callee) :: arguments.map fun e => (.part, .expr e)
  | .stmt (.expression e) | .stmt (.print e) => [(.part, .expr e)]
  | .stmt (.varDecl _ initializer) => initializer.toList.map fun e => (.initializer, .expr e)
  | .stmt (.block statements) => statements.map fun s => (.part, .stmt s)
  | .stmt (.ifElse condition thenBranch elseBranch) =>
    (.part, .expr condition) :: (.part, .stmt thenBranch) ::
      elseBranch.toList.map fun s => (.part, .stmt s)
  | .stmt (.whileLoop condition body) => [(.part, .expr condition), (.part, .stmt body)]
  | .stmt (.breakOut _) => []
  | .stmt (.funDecl _ _ body) => body.map fun s => (.body, .stmt s)
  | .stmt (.giveBack _ value) => value.toList.map fun e => (.part, .expr e)

theorem Node.sizeOf_lt_of_mem_parts {n : Node} {p : Branch × Node} (h : p ∈ n.parts) :
    sizeOf p.2 < sizeOf n := by
  have hexpr : ∀ (e : Expr) (es : List Expr), e ∈ es → sizeOf e < sizeOf es :=
    fun _ _ => List.sizeOf_lt_of_mem
  have hstmt : ∀ (s : Stmt) (ss : List Stmt), s ∈ ss → sizeOf s < sizeOf ss :=
    fun _ _ => List.sizeOf_lt_of_mem
  cases n with
  | expr e => cases e <;> simp [parts] at h <;> simp <;> grind
  | stmt s => cases s <;> simp [parts] at h <;> simp <;> grind

/-- A node that occurs in a tree, and the branches that lead to it, outermost first. -/
structure Occurrence where
  path : List Branch
  node : Node

/-- An occurrence in a part, seen from the whole. -/
def Occurrence.below (branch : Branch) (o : Occurrence) : Occurrence :=
  { o with path := branch :: o.path }

/-- The nodes of a tree: its root, then those of its parts in order. -/
def Node.occurrences (n : Node) : List Occurrence :=
  ⟨[], n⟩ :: n.parts.attach.flatMap fun p => p.1.2.occurrences.map (.below p.1.1)
termination_by sizeOf n
decreasing_by exact Node.sizeOf_lt_of_mem_parts p.2

/-- The nodes of parts, as seen from the whole. -/
def occurrencesBelow (parts : List (Branch × Node)) : List Occurrence :=
  parts.flatMap fun p => p.2.occurrences.map (.below p.1)

/-- The nodes of parts, as seen from the parts. -/
def occurrencesIn (parts : List (Branch × Node)) : List Occurrence :=
  parts.flatMap fun p => p.2.occurrences

/-- The nodes of a program. -/
def programNodes (statements : List Stmt) : List Occurrence :=
  statements.flatMap fun s => (Node.stmt s).occurrences

theorem Node.occurrences_eq (n : Node) : n.occurrences = ⟨[], n⟩ :: occurrencesBelow n.parts := by
  rw [Node.occurrences, List.flatMap_subtype (g := fun p => p.2.occurrences.map (.below p.1))
    fun _ _ => rfl, List.unattach_attach, occurrencesBelow]

/-- Every node of a tree has a property. -/
def Node.All (P : Node → Prop) (n : Node) : Prop :=
  ∀ o ∈ n.occurrences, P o.node

/-- Every node of a tree has a property if the root has it and every node of a part has it. -/
theorem Node.all_iff {P : Node → Prop} {n : Node} :
    n.All P ↔ P n ∧ ∀ p ∈ n.parts, p.2.All P := by
  rw [Node.All, Node.occurrences_eq, List.forall_mem_cons]
  refine and_congr_right fun _ => ?_
  simp only [occurrencesBelow, List.forall_mem_flatMap, List.forall_mem_map]
  rfl

/-- What follows for a node from its parts holds of every node. -/
theorem Node.induction {P : Node → Prop} (h : ∀ n, (∀ p ∈ n.parts, P p.2) → P n) (n : Node) : P n :=
  h n fun p _ => Node.induction h p.2
termination_by sizeOf n
decreasing_by exact Node.sizeOf_lt_of_mem_parts (by assumption)

end GradedScript
