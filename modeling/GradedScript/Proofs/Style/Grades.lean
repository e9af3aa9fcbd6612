import GradedScript.Proofs.Style.Coverage
import GradedScript.Proofs.Tree.Occurrences

/-!
# Reports and trees

A report is made from facts that one walk over the tree gathers. Here a report is compared with the
nodes of the tree instead: `Report.Describes` says for each of its entries which nodes it tells of,
with no walk and no facts between. Two things are told by where a node lies: a number is part of a
value given to a variable if its path leads through one, and a read belongs to the function whose
body is the last on its path.

The walk is followed part by part (`Usage.addNode_eq`). Names, counts and numbers depend on the
nodes alone (`Usage.outline_addNode`), functions also on which one the walk is in
(`Usage.functions_addNode`). Every report describes its tree (`report_describes_tree`).
-/

namespace GradedScript

/-! ## What a node tells -/

/-- The number that a node is. -/
def Node.number? : Node → Option NumberUse
  | .expr (.literal (.number value) line) => some ⟨value, line⟩
  | _ => none

/-- The name that a node reads. -/
def Node.read? : Node → Option String
  | .expr (.var name) => some name.lexeme
  | _ => none

/-- The name that a node declares as a variable or assigns to. -/
def Node.written? : Node → Option String
  | .expr (.assign name _) => some name.lexeme
  | .stmt (.varDecl name _) => some name.lexeme
  | _ => none

/-- Whether a node is an `if` statement. -/
def Node.isIf : Node → Bool
  | .stmt (.ifElse ..) => true
  | _ => false

/-- Whether a node is an `if` statement without an `else`. -/
def Node.isBareIf : Node → Bool
  | .stmt (.ifElse _ _ none) => true
  | _ => false

/-- Whether a branch leads to a value that is given to a variable. -/
def Branch.gives : Branch → Bool
  | .initializer | .assigned => true
  | .body | .part => false

/-- Whether a node lies in a value that is given to a variable. -/
def Occurrence.given (o : Occurrence) : Bool :=
  o.path.any Branch.gives

/-- The names read by nodes that no function between holds. -/
def ownReads (nodes : List Occurrence) : List String :=
  (nodes.filter fun o => !o.path.contains .body).filterMap fun o => o.node.read?

namespace Usage

/-! ## The walk over a tree, node by node -/

/-- Adds the facts of a node and all below it. -/
def addNode (owner : Option Nat) (given : Bool) : Node → Usage → Usage
  | .expr e, u => addExpr owner given e u
  | .stmt s, u => addStmt owner s u

/-- Adds the facts of parts, one after the other. -/
def addParts (owner : Option Nat) (given : Bool) (parts : List (Branch × Node)) (u : Usage) :
    Usage :=
  parts.foldl (fun u p => addNode owner (given || p.1.gives) p.2 u) u

/-- Adds what a node tells by itself. -/
def addRoot (owner : Option Nat) (given : Bool) : Node → Usage → Usage
  | .expr (.literal value line), u => u.addLiteral given value line
  | .expr (.var name), u => u.addRead owner name.lexeme
  | .expr (.assign name _), u => u.addWrite name.lexeme
  | .stmt (.varDecl name _), u => u.addWrite name.lexeme
  | .stmt (.ifElse _ _ elseBranch), u => u.addIf elseBranch.isSome
  | .stmt (.funDecl name params _), u => u.addFunction name params
  | _, u => u

/-- The function that the parts of a node belong to. -/
def partsOwner (owner : Option Nat) (u : Usage) : Node → Option Nat
  | .stmt (.funDecl ..) => some u.functions.size
  | _ => owner

/-- A statement is no part of a value, whatever it is part of. -/
def partsGiven (given : Bool) : Node → Bool
  | .expr _ => given
  | .stmt _ => false

theorem addExprs_eq_addParts (owner : Option Nat) (given : Bool) (es : List Expr) (u : Usage) :
    addExprs owner given es u = addParts owner given (es.map fun e => (.part, .expr e)) u := by
  induction es generalizing u with
  | nil => rfl
  | cons e es ih =>
    rw [addExprs, ih]
    simp [addParts, addNode, Branch.gives]

theorem addStmts_eq_addParts (owner : Option Nat) (b : Branch) (ss : List Stmt) (u : Usage) :
    addStmts owner ss u = addParts owner false (ss.map fun s => (b, .stmt s)) u := by
  induction ss generalizing u with
  | nil => rfl
  | cons s ss ih =>
    rw [addStmts, ih]
    simp [addParts, addNode]

/-- **The walk over a tree**: a node tells what it is, then come its parts. -/
theorem addNode_eq (owner : Option Nat) (given : Bool) (n : Node) (u : Usage) :
    addNode owner given n u = addParts (partsOwner owner u n) (partsGiven given n) n.parts
      (addRoot owner (partsGiven given n) n u) := by
  cases n with
  | expr e =>
    cases e with
    | call callee paren arguments =>
      show addExprs _ _ _ _ = _
      rw [addExprs_eq_addParts]
      simp [Node.parts, addParts, addNode, Branch.gives, partsOwner, partsGiven, addRoot]
    | _ =>
      simp [addNode, addExpr, Node.parts, addParts, Branch.gives, partsOwner, partsGiven, addRoot]
  | stmt s =>
    cases s with
    | block statements => exact addStmts_eq_addParts owner .part statements u
    | funDecl name params body => exact addStmts_eq_addParts _ .body body _
    | ifElse condition thenBranch elseBranch => cases elseBranch <;> rfl
    | varDecl name initializer => cases initializer <;> rfl
    | giveBack keyword value => cases value <;> rfl
    | _ => rfl

/-- Parts of a statement do not depend on what the statement is part of. -/
theorem partsGiven_of_mem_parts {n : Node} {p : Branch × Node} (hp : p ∈ n.parts) (given : Bool) :
    partsGiven (partsGiven given n || p.1.gives) p.2 = (partsGiven given n || p.1.gives) := by
  cases n with
  | expr e =>
    cases e <;> simp [Node.parts] at hp <;> grind [partsGiven]
  | stmt s =>
    cases s <;> simp [Node.parts] at hp <;> grind [partsGiven, Branch.gives]

end Usage

/-! ## Names, numbers and `if` statements -/

/-- The facts about a program apart from its functions. -/
structure Outline where
  writes : List String
  reads : List String
  ifCount : Nat
  ifWithoutElse : Nat
  numbers : List NumberUse

/-- What the facts say apart from functions. -/
def Usage.outline (u : Usage) : Outline :=
  ⟨u.writes, u.reads, u.ifCount, u.ifWithoutElse, u.numbers.toList⟩

namespace Outline

/-- Adds names, each once. -/
def addNames (added names : List String) : List String :=
  added.foldl (fun found name => addName name found) names

/-- Adds what nodes tell; `given` says that they all lie in a value given to a variable. -/
def add (given : Bool) (nodes : List Occurrence) (x : Outline) : Outline where
  writes := addNames (nodes.filterMap fun o => o.node.written?) x.writes
  reads := addNames (nodes.filterMap fun o => o.node.read?) x.reads
  ifCount := x.ifCount + nodes.countP fun o => o.node.isIf
  ifWithoutElse := x.ifWithoutElse + nodes.countP fun o => o.node.isBareIf
  numbers := x.numbers ++
    (nodes.filter fun o => !(given || o.given)).filterMap fun o => o.node.number?

theorem add_nil (given : Bool) (x : Outline) : x.add given [] = x := by
  simp [add, addNames]

theorem add_append (given : Bool) (nodes more : List Occurrence) (x : Outline) :
    x.add given (nodes ++ more) = (x.add given nodes).add given more := by
  simp [add, addNames, Nat.add_assoc]

theorem add_root (given : Bool) (n : Node) (x : Outline) :
    x.add given [⟨[], n⟩] =
      ⟨addNames n.written?.toList x.writes, addNames n.read?.toList x.reads,
        x.ifCount + n.isIf.toNat, x.ifWithoutElse + n.isBareIf.toNat,
        x.numbers ++ if given then [] else n.number?.toList⟩ := by
  have hsingle : ∀ {α : Type} (f : Occurrence → Option α), [⟨[], n⟩].filterMap f =
      (f ⟨[], n⟩).toList := by
    intro α f
    cases hf : f ⟨[], n⟩ <;> simp [hf]
  have hgiven : [(⟨[], n⟩ : Occurrence)].filter (fun o => !(given || o.given)) =
      if given then [] else [⟨[], n⟩] := by
    cases given <;> rfl
  have hcount : ∀ p : Occurrence → Bool, [⟨[], n⟩].countP p = (p ⟨[], n⟩).toNat := by
    intro p
    cases hp : p ⟨[], n⟩ <;> simp [hp]
  simp only [add, hsingle, hgiven, hcount]
  cases given
  · simp only [Bool.false_eq_true, if_false, hsingle]
  · rfl

theorem add_below (given : Bool) (branch : Branch) (nodes : List Occurrence) (x : Outline) :
    x.add given (nodes.map (.below branch)) = x.add (given || branch.gives) nodes := by
  have hgiven : ∀ o : Occurrence, (o.below branch).given = (branch.gives || o.given) := fun _ => rfl
  simp only [add, List.filterMap_map, List.countP_map, List.filter_map, Function.comp_def, hgiven,
    Bool.or_assoc]
  rfl

end Outline

namespace Usage

/-- What a node tells by itself. -/
theorem outline_addRoot (owner : Option Nat) (given : Bool) (n : Node) (u : Usage) :
    (addRoot owner given n u).outline = u.outline.add given [⟨[], n⟩] := by
  -- most nodes are no numbers
  have hnone : u.numbers.toList = u.numbers.toList ++ if given then [] else [] := by
    rw [ite_self, List.append_nil]
  rw [Outline.add_root]
  cases n with
  | expr e =>
    cases e with
    | literal value line =>
      cases value with
      | number value =>
        cases given with
        | true => exact congrArg (Outline.mk _ _ _ _) hnone
        | false => exact congrArg (Outline.mk _ _ _ _) Array.toList_push
      | _ => exact congrArg (Outline.mk _ _ _ _) hnone
    | var name => cases owner <;> exact congrArg (Outline.mk _ _ _ _) hnone
    | _ => exact congrArg (Outline.mk _ _ _ _) hnone
  | stmt s =>
    cases s with
    | ifElse condition thenBranch elseBranch =>
      cases elseBranch <;> exact congrArg (Outline.mk _ _ _ _) hnone
    | _ => exact congrArg (Outline.mk _ _ _ _) hnone

theorem outline_addParts {parts : List (Branch × Node)} {given : Bool}
    (h : ∀ p ∈ parts, ∀ owner u, (addNode owner (given || p.1.gives) p.2 u).outline =
      u.outline.add (given || p.1.gives) p.2.occurrences) (owner : Option Nat) (u : Usage) :
    (addParts owner given parts u).outline = u.outline.add given (occurrencesBelow parts) := by
  induction parts generalizing u with
  | nil => exact (u.outline.add_nil given).symm
  | cons p parts ih =>
    obtain ⟨hp, hparts⟩ := List.forall_mem_cons.1 h
    have hrest := ih hparts (addNode owner (given || p.1.gives) p.2 u)
    rw [hp, ← Outline.add_below, ← Outline.add_append] at hrest
    exact hrest

/-- **The walk finds what the nodes tell**, apart from functions. -/
theorem outline_addNode (owner : Option Nat) (given : Bool) (n : Node) (u : Usage) :
    (addNode owner given n u).outline = u.outline.add (partsGiven given n) n.occurrences := by
  induction n using Node.induction generalizing owner given u with
  | h n ih =>
    have hparts : ∀ p ∈ n.parts, ∀ owner u,
        (addNode owner (partsGiven given n || p.1.gives) p.2 u).outline =
          u.outline.add (partsGiven given n || p.1.gives) p.2.occurrences := by
      intro p hp owner u
      rw [ih p hp, partsGiven_of_mem_parts hp]
    rw [addNode_eq, outline_addParts hparts, outline_addRoot, ← Outline.add_append,
      List.singleton_append, ← Node.occurrences_eq]

theorem outline_addProgram (u : Usage) (statements : List Stmt) :
    (u.addProgram statements).outline = u.outline.add false (programNodes statements) := by
  induction statements generalizing u with
  | nil => exact (u.outline.add_nil false).symm
  | cons s statements ih =>
    have hfirst : (addStmt none s u).outline = u.outline.add false (Node.stmt s).occurrences :=
      outline_addNode none false (.stmt s) u
    have hrest := ih (addStmt none s u)
    rw [hfirst, ← Outline.add_append] at hrest
    exact hrest

end Usage

/-! ## Functions -/

/-- Counts reads of names for a function. -/
def FunctionUse.noteAll (names : List String) (f : FunctionUse) : FunctionUse :=
  names.foldl (fun f name => Usage.noteParam name f) f

/-- The function that a node declares, with the parameters that its own body reads. -/
def Node.function? : Node → Option FunctionUse
  | .stmt (.funDecl name params body) =>
    some (.noteAll (ownReads (programNodes body))
      { name := name.lexeme, params := params.map Token.lexeme })
  | _ => none

/-- The functions that nodes declare. -/
def declared (nodes : List Occurrence) : List FunctionUse :=
  nodes.filterMap fun o => o.node.function?

theorem ownReads_append (nodes more : List Occurrence) :
    ownReads (nodes ++ more) = ownReads nodes ++ ownReads more := by
  simp [ownReads]

theorem declared_append (nodes more : List Occurrence) :
    declared (nodes ++ more) = declared nodes ++ declared more :=
  List.filterMap_append

theorem declared_below (parts : List (Branch × Node)) :
    declared (occurrencesBelow parts) = declared (occurrencesIn parts) := by
  induction parts with
  | nil => rfl
  | cons p parts ih =>
    have hbelow : declared (p.2.occurrences.map (.below p.1)) = declared p.2.occurrences := by
      simp [declared, List.filterMap_map, Function.comp_def, Occurrence.below]
    rw [occurrencesBelow, occurrencesIn, List.flatMap_cons, List.flatMap_cons, declared_append,
      declared_append, hbelow]
    exact congrArg _ ih

/-- Reads outside the bodies of functions are the reads of the parts. -/
theorem ownReads_below {parts : List (Branch × Node)} (h : ∀ p ∈ parts, p.1 ≠ .body) :
    ownReads (occurrencesBelow parts) = ownReads (occurrencesIn parts) := by
  induction parts with
  | nil => rfl
  | cons p parts ih =>
    obtain ⟨hp, hparts⟩ := List.forall_mem_cons.1 h
    have hbelow : ownReads (p.2.occurrences.map (.below p.1)) = ownReads p.2.occurrences := by
      have hpath : ∀ o : Occurrence, (o.below p.1).path.contains .body = o.path.contains .body := by
        intro o
        simp [Occurrence.below, Ne.symm hp]
      simp only [ownReads, List.filter_map, List.filterMap_map, Function.comp_def, hpath]
      rfl
    rw [occurrencesBelow, occurrencesIn, List.flatMap_cons, List.flatMap_cons, ownReads_append,
      ownReads_append, hbelow]
    exact congrArg _ (ih hparts)

/-- What is read in the body of a function is not read by what is around it. -/
theorem ownReads_body {parts : List (Branch × Node)} (h : ∀ p ∈ parts, p.1 = .body) :
    ownReads (occurrencesBelow parts) = [] := by
  have hnone : ∀ o ∈ occurrencesBelow parts, ¬ (!o.path.contains .body) = true := by
    intro o ho
    obtain ⟨p, hp, hmem⟩ := List.mem_flatMap.1 ho
    obtain ⟨o', -, rfl⟩ := List.mem_map.1 hmem
    simp [Occurrence.below, h p hp]
  rw [ownReads, List.filter_eq_nil_iff.2 hnone, List.filterMap_nil]

namespace Usage

/-- Counts reads of names for the function that they are part of. -/
def noteOwn (owner : Option Nat) (names : List String) (functions : List FunctionUse) :
    List FunctionUse :=
  match owner with
  | some index => functions.modify index (·.noteAll names)
  | none => functions

section

variable {owner : Option Nat} {names more : List String} {functions others : List FunctionUse}

theorem noteOwn_nil : noteOwn owner [] functions = functions := by
  cases owner with
  | none => rfl
  | some index => exact List.modify_id ..

theorem noteOwn_append :
    noteOwn owner (names ++ more) functions =
      noteOwn owner more (noteOwn owner names functions) := by
  cases owner with
  | none => rfl
  | some index =>
    simp only [noteOwn, List.modify_modify_eq]
    congr 1
    funext f
    exact List.foldl_append

theorem length_noteOwn : (noteOwn owner names functions).length = functions.length := by
  cases owner with
  | none => rfl
  | some index => exact List.length_modify ..

/-- Functions that come later do not matter. -/
theorem noteOwn_append_left (h : ∀ index ∈ owner, index < functions.length) :
    noteOwn owner names (functions ++ others) = noteOwn owner names functions ++ others := by
  cases owner with
  | none => rfl
  | some index =>
    have hindex : index < functions.length := h index rfl
    have hindex' : index < (functions ++ others).length :=
      Nat.lt_of_lt_of_le hindex (by simp)
    simp only [noteOwn]
    rw [List.modify_eq_take_cons_drop hindex, List.modify_eq_take_cons_drop hindex',
      List.take_append_of_le_length hindex.le, List.drop_append_of_le_length hindex,
      List.getElem_append_left hindex, List.append_assoc, List.cons_append]

theorem noteOwn_last (f : FunctionUse) :
    noteOwn (some functions.length) names (functions ++ [f]) = functions ++ [f.noteAll names] := by
  have hindex : functions.length < (functions ++ [f]).length := by simp
  simp only [noteOwn]
  rw [List.modify_eq_take_cons_drop hindex]
  simp

end

/-- A node declares a function, or its parts belong to the function that it belongs to. -/
theorem function_cases (n : Node) :
    (∃ name params body, n = .stmt (.funDecl name params body)) ∨
      (n.function? = none ∧ (∀ p ∈ n.parts, p.1 ≠ .body) ∧
        ∀ owner given u, partsOwner owner u n = owner ∧
          (addRoot owner given n u).functions.toList =
            noteOwn owner n.read?.toList u.functions.toList) := by
  cases n with
  | stmt s =>
    cases s with
    | funDecl name params body => exact .inl ⟨name, params, body, rfl⟩
    | _ => refine .inr ⟨rfl, by simp [Node.parts], fun owner given u => ⟨rfl, noteOwn_nil.symm⟩⟩
  | expr e =>
    cases e with
    | literal value line =>
      refine .inr ⟨rfl, by simp [Node.parts], fun owner given u => ⟨rfl, ?_⟩⟩
      cases value with
      | number value => cases given <;> exact noteOwn_nil.symm
      | _ => exact noteOwn_nil.symm
    | var name =>
      refine .inr ⟨rfl, by simp [Node.parts], fun owner given u => ⟨rfl, ?_⟩⟩
      cases owner with
      | none => rfl
      | some index => exact Array.toList_modify ..
    | _ => refine .inr ⟨rfl, by simp [Node.parts], fun owner given u => ⟨rfl, noteOwn_nil.symm⟩⟩

/-- The functions after a walk over nodes that belong to the function with index `owner`, if there
is one. -/
def walked (owner : Option Nat) (nodes : List Occurrence) (functions : List FunctionUse) :
    List FunctionUse :=
  noteOwn owner (ownReads nodes) functions ++ declared nodes

theorem walked_nil (owner : Option Nat) (functions : List FunctionUse) :
    walked owner [] functions = functions := by
  rw [walked]
  exact (List.append_nil _).trans noteOwn_nil

theorem walked_append {owner : Option Nat} {functions : List FunctionUse}
    (h : ∀ index ∈ owner, index < functions.length) (nodes more : List Occurrence) :
    walked owner (nodes ++ more) functions = walked owner more (walked owner nodes functions) := by
  have hnoted : ∀ index ∈ owner, index < (noteOwn owner (ownReads nodes) functions).length := by
    rwa [length_noteOwn]
  rw [walked, walked, walked, ownReads_append, declared_append, noteOwn_append,
    noteOwn_append_left hnoted, List.append_assoc]

theorem occurrencesIn_funDecl (name : Token) (params : List Token) (body : List Stmt) :
    occurrencesIn (Node.stmt (.funDecl name params body)).parts = programNodes body :=
  List.flatMap_map ..

/-- A declaration adds a function and those that its body declares. Its body reads nothing for the
function around it. -/
theorem walked_funDecl (owner : Option Nat) (name : Token) (params : List Token) (body : List Stmt)
    (functions : List FunctionUse) :
    walked owner (Node.stmt (.funDecl name params body)).occurrences functions =
      functions ++ .noteAll (ownReads (programNodes body))
        { name := name.lexeme, params := params.map Token.lexeme } ::
          declared (programNodes body) := by
  have hreads : ownReads (Node.stmt (.funDecl name params body)).occurrences = [] := by
    rw [Node.occurrences_eq]
    exact ownReads_body (by simp [Node.parts])
  have hdeclared : declared (Node.stmt (.funDecl name params body)).occurrences =
      .noteAll (ownReads (programNodes body))
        { name := name.lexeme, params := params.map Token.lexeme } ::
          declared (programNodes body) := by
    have hbody : declared (occurrencesBelow (Node.stmt (.funDecl name params body)).parts) =
        declared (programNodes body) := by
      rw [declared_below, occurrencesIn_funDecl]
    rw [Node.occurrences_eq, ← hbody]
    rfl
  rw [walked, hreads, noteOwn_nil, hdeclared]

/-- Any other node declares nothing itself, and its parts belong where it does. -/
theorem walked_of_function?_eq_none {n : Node} (hnone : n.function? = none)
    (hbranch : ∀ p ∈ n.parts, p.1 ≠ .body) (owner : Option Nat) (functions : List FunctionUse) :
    walked owner n.occurrences functions =
      walked owner (occurrencesIn n.parts) (noteOwn owner n.read?.toList functions) := by
  have hreads : ownReads n.occurrences = n.read?.toList ++ ownReads (occurrencesIn n.parts) := by
    rw [Node.occurrences_eq, ← ownReads_below hbranch]
    cases hread : n.read? <;> simp [ownReads, hread]
  have hdeclared : declared n.occurrences = declared (occurrencesIn n.parts) := by
    rw [Node.occurrences_eq, ← declared_below]
    exact List.filterMap_cons_none hnone
  rw [walked, walked, hreads, hdeclared, noteOwn_append]

theorem functions_addParts {parts : List (Branch × Node)} {owner : Option Nat} {given : Bool}
    (h : ∀ p ∈ parts, ∀ given u, (∀ index ∈ owner, index < u.functions.toList.length) →
      (addNode owner given p.2 u).functions.toList =
        walked owner p.2.occurrences u.functions.toList)
    {u : Usage} (howner : ∀ index ∈ owner, index < u.functions.toList.length) :
    (addParts owner given parts u).functions.toList =
      walked owner (occurrencesIn parts) u.functions.toList := by
  induction parts generalizing u with
  | nil => exact (walked_nil owner _).symm
  | cons p parts ih =>
    obtain ⟨hp, hparts⟩ := List.forall_mem_cons.1 h
    have hfirst := hp (given || p.1.gives) u howner
    have hlength : u.functions.toList.length ≤
        (addNode owner (given || p.1.gives) p.2 u).functions.toList.length := by
      rw [hfirst, walked, List.length_append, length_noteOwn]
      exact Nat.le_add_right ..
    have hrest := ih hparts (u := addNode owner (given || p.1.gives) p.2 u)
      fun index hindex => (howner index hindex).trans_le hlength
    rw [hfirst, ← walked_append howner] at hrest
    exact hrest

/-- **The walk finds the functions** that the nodes declare, and gives each read to the function
whose own body it is in. -/
theorem functions_addNode (n : Node) (owner : Option Nat) (given : Bool) (u : Usage)
    (howner : ∀ index ∈ owner, index < u.functions.toList.length) :
    (addNode owner given n u).functions.toList =
      walked owner n.occurrences u.functions.toList := by
  induction n using Node.induction generalizing owner given u with
  | h n ih =>
    rw [addNode_eq]
    rcases function_cases n with ⟨name, params, body, rfl⟩ | ⟨hnone, hbranch, hroot⟩
    · -- the body belongs to the new function, which is the last one
      have hlast : (addRoot owner (partsGiven given (.stmt (.funDecl name params body)))
          (.stmt (.funDecl name params body)) u).functions.toList = u.functions.toList ++
            [{ name := name.lexeme, params := params.map Token.lexeme }] :=
        Array.toList_push
      rw [partsOwner, functions_addParts (fun p hp given u howner => ih p hp _ given u howner)
          (by rw [hlast]; simp), hlast, occurrencesIn_funDecl, walked, ← Array.length_toList,
        noteOwn_last, walked_funDecl, List.append_assoc, List.singleton_append]
    · obtain ⟨howner', hfunctions⟩ := hroot owner (partsGiven given n) u
      have hlength : ∀ index ∈ owner,
          index < (addRoot owner (partsGiven given n) n u).functions.toList.length := by
        rwa [hfunctions, length_noteOwn]
      rw [howner', functions_addParts (fun p hp given u howner => ih p hp _ given u howner) hlength,
        hfunctions, walked_of_function?_eq_none hnone hbranch]

theorem functions_addProgram (u : Usage) (statements : List Stmt) :
    (u.addProgram statements).functions.toList =
      u.functions.toList ++ declared (programNodes statements) := by
  have howner : ∀ index ∈ (none : Option Nat), index < u.functions.toList.length := by simp
  have hnodes : occurrencesIn (statements.map fun s => (.part, .stmt s)) =
      programNodes statements :=
    List.flatMap_map ..
  rw [addProgram, addStmts_eq_addParts none .part, functions_addParts
    (fun p _ given u howner => functions_addNode p.2 none given u howner) howner, hnodes]
  rfl

end Usage

/-! ## Parameters -/

namespace FunctionUse

variable {names : List String}

theorem noteAll_same (names : List String) (f : FunctionUse) :
    (f.noteAll names).name = f.name ∧ (f.noteAll names).params = f.params := by
  induction names generalizing f with
  | nil => exact ⟨rfl, rfl⟩
  | cons name names ih =>
    obtain ⟨hname, hparams⟩ := ih (Usage.noteParam name f)
    have hnote : (Usage.noteParam name f).name = f.name ∧
        (Usage.noteParam name f).params = f.params := by
      unfold Usage.noteParam
      split <;> exact ⟨rfl, rfl⟩
    exact ⟨hname.trans hnote.1, hparams.trans hnote.2⟩

theorem mem_paramsRead_noteAll {f : FunctionUse} {param : String} (hparam : param ∈ f.params) :
    param ∈ (f.noteAll names).paramsRead ↔ param ∈ f.paramsRead ∨ param ∈ names := by
  induction names generalizing f with
  | nil => simp [noteAll]
  | cons name names ih =>
    have hstep : param ∈ (Usage.noteParam name f).paramsRead ↔
        param = name ∨ param ∈ f.paramsRead := by
      unfold Usage.noteParam
      split
      · exact mem_addName
      · rename_i hname
        have hne : param ≠ name := by
          rintro rfl
          exact hname (List.contains_iff_mem.2 hparam)
        simp [hne]
    have hparam' : param ∈ (Usage.noteParam name f).params := by
      unfold Usage.noteParam
      split <;> exact hparam
    rw [noteAll, List.foldl_cons, ← noteAll, ih hparam', hstep, List.mem_cons]
    tauto

/-- The parameters that no read names, in their order. -/
theorem unusedParams_noteAll (name : String) (params : List String) :
    (noteAll names { name, params }).unusedParams = params.filter fun p => !names.contains p := by
  obtain ⟨-, hparams⟩ := noteAll_same names { name, params }
  rw [unusedParams, hparams]
  refine List.filter_congr fun param hparam => ?_
  have hmem : param ∈ (noteAll names { name, params }).paramsRead ↔ param ∈ [] ∨ param ∈ names :=
    mem_paramsRead_noteAll hparam
  simp only [List.not_mem_nil, false_or] at hmem
  simp [hmem]

end FunctionUse

/-- The parameters of the function that a node declares which its own body does not read: no
variable there names them, functions within the body apart. -/
def Node.unusedParams : Node → List UnusedParam
  | .stmt (.funDecl name params body) =>
    (params.filter fun p => !(ownReads (programNodes body)).contains p.lexeme).map fun p =>
      ⟨name.lexeme, p.lexeme⟩
  | _ => []

theorem Node.unusedParams_eq (n : Node) :
    n.unusedParams =
      n.function?.toList.flatMap fun f => f.unusedParams.map fun p => ⟨f.name, p⟩ := by
  cases n with
  | expr e => rfl
  | stmt s =>
    cases s with
    | funDecl name params body =>
      have hname := (FunctionUse.noteAll_same (ownReads (programNodes body))
        { name := name.lexeme, params := params.map Token.lexeme }).1
      simp [unusedParams, function?, hname, FunctionUse.unusedParams_noteAll, List.filter_map,
        Function.comp_def]
    | _ => rfl

/-! ## The report -/

/-- A report says what there is in a tree. -/
structure Report.Describes (report : Report) (nodes : List Occurrence) : Prop where
  /-- all `if` statements are counted -/
  ifCount : report.ifCount = nodes.countP fun o => o.node.isIf
  /-- and those without an `else` -/
  ifWithoutElse : report.ifWithoutElse = nodes.countP fun o => o.node.isBareIf
  ifWithoutElse_le : report.ifWithoutElse ≤ report.ifCount
  /-- what is left are the `if` statements with an `else` -/
  ifWithElse : report.ifCount - report.ifWithoutElse =
    nodes.countP fun o => o.node.isIf && !o.node.isBareIf
  /-- names that are declared or assigned and never read -/
  mem_unusedLocals : ∀ name, name ∈ report.unusedLocals ↔
    (∃ o ∈ nodes, o.node.written? = some name) ∧ ∀ o ∈ nodes, o.node.read? ≠ some name
  ascending : report.unusedLocals.Pairwise fun a b => utf8Bytes a < utf8Bytes b
  /-- declaration by declaration, the parameters that the function's own body does not read -/
  unusedParams : report.unusedParams = nodes.flatMap fun o => o.node.unusedParams
  /-- the numbers other than zero and one that lie in no value given to a variable -/
  magicNumbers : report.magicNumbers =
    (((nodes.filter fun o => !o.given).filterMap fun o => o.node.number?).filter
      fun n => isMagic n.value).map fun n => ⟨numberText n.value, n.line⟩

/-- Facts that are those of two walks together. -/
structure Usage.Joins (u v w : Usage) : Prop where
  mem_writes : ∀ name, name ∈ w.writes ↔ name ∈ u.writes ∨ name ∈ v.writes
  mem_reads : ∀ name, name ∈ w.reads ↔ name ∈ u.reads ∨ name ∈ v.reads
  ifCount : w.ifCount = u.ifCount + v.ifCount
  ifWithoutElse : w.ifWithoutElse = u.ifWithoutElse + v.ifWithoutElse
  functions : w.functions = u.functions ++ v.functions
  numbers : w.numbers = u.numbers ++ v.numbers
  nodup_writes : u.writes.Nodup → w.writes.Nodup
  nodup_reads : u.reads.Nodup → w.reads.Nodup

section

variable (u : Usage) (statements : List Stmt)

theorem Usage.writes_addProgram : (u.addProgram statements).writes =
    Outline.addNames ((programNodes statements).filterMap fun o => o.node.written?) u.writes :=
  congrArg Outline.writes (outline_addProgram u statements)

theorem Usage.reads_addProgram : (u.addProgram statements).reads =
    Outline.addNames ((programNodes statements).filterMap fun o => o.node.read?) u.reads :=
  congrArg Outline.reads (outline_addProgram u statements)

theorem Usage.mem_writes_addProgram (name : String) :
    name ∈ (u.addProgram statements).writes ↔
      name ∈ u.writes ∨ ∃ o ∈ programNodes statements, o.node.written? = some name := by
  rw [writes_addProgram]
  exact mem_foldl_addName.trans (or_congr_right List.mem_filterMap)

theorem Usage.mem_reads_addProgram (name : String) :
    name ∈ (u.addProgram statements).reads ↔
      name ∈ u.reads ∨ ∃ o ∈ programNodes statements, o.node.read? = some name := by
  rw [reads_addProgram]
  exact mem_foldl_addName.trans (or_congr_right List.mem_filterMap)

theorem Usage.ifCount_addProgram : (u.addProgram statements).ifCount =
    u.ifCount + (programNodes statements).countP fun o => o.node.isIf :=
  congrArg Outline.ifCount (outline_addProgram u statements)

theorem Usage.ifWithoutElse_addProgram : (u.addProgram statements).ifWithoutElse =
    u.ifWithoutElse + (programNodes statements).countP fun o => o.node.isBareIf :=
  congrArg Outline.ifWithoutElse (outline_addProgram u statements)

theorem Usage.numbers_addProgram : (u.addProgram statements).numbers.toList =
    u.numbers.toList ++ ((programNodes statements).filter fun o => !o.given).filterMap
      fun o => o.node.number? :=
  congrArg Outline.numbers (outline_addProgram u statements)

/-- **A walk adds to what was found before**, whatever that is. -/
theorem Usage.addProgram_joins : u.Joins (ofProgram statements) (u.addProgram statements) where
  mem_writes name := by
    simp only [ofProgram, mem_writes_addProgram, List.not_mem_nil, false_or]
  mem_reads name := by
    simp only [ofProgram, mem_reads_addProgram, List.not_mem_nil, false_or]
  ifCount := by
    simp only [ofProgram, ifCount_addProgram, Nat.zero_add]
  ifWithoutElse := by
    simp only [ofProgram, ifWithoutElse_addProgram, Nat.zero_add]
  functions := by
    refine Array.toList_inj.1 ?_
    simp only [ofProgram, Array.toList_append, functions_addProgram, List.nil_append]
  numbers := by
    refine Array.toList_inj.1 ?_
    simp only [ofProgram, Array.toList_append, numbers_addProgram, List.nil_append]
  nodup_writes h := by
    rw [writes_addProgram]
    exact nodup_foldl_addName h
  nodup_reads h := by
    rw [reads_addProgram]
    exact nodup_foldl_addName h

end

/-- An `if` statement has an `else` or not. -/
theorem countP_isIf (nodes : List Occurrence) :
    (nodes.countP fun o => o.node.isIf) = (nodes.countP fun o => o.node.isBareIf) +
      nodes.countP fun o => o.node.isIf && !o.node.isBareIf := by
  have hbare : ∀ n : Node, n.isBareIf = true → n.isIf = true := by
    intro n
    cases n with
    | expr e => exact id
    | stmt s => cases s <;> simp [Node.isBareIf, Node.isIf]
  induction nodes with
  | nil => rfl
  | cons o nodes ih =>
    have := hbare o.node
    grind

theorem flatMap_declared (nodes : List Occurrence) :
    ((declared nodes).flatMap fun f => f.unusedParams.map fun p => (⟨f.name, p⟩ : UnusedParam)) =
      nodes.flatMap fun o => o.node.unusedParams := by
  simp only [declared, List.filterMap_eq_flatMap_toList, List.flatMap_assoc, Node.unusedParams_eq]

/-- The report on the facts of a tree describes the tree. -/
theorem Report.ofUsage_describes (comments : Comments) (statements : List Stmt) :
    (Report.ofUsage comments (.ofProgram statements)).Describes (programNodes statements) := by
  have hjoins := Usage.addProgram_joins {} statements
  have hifs : (Usage.ofProgram statements).ifCount =
      (programNodes statements).countP fun o => o.node.isIf :=
    (Usage.ifCount_addProgram {} statements).trans (Nat.zero_add _)
  have hbare : (Usage.ofProgram statements).ifWithoutElse =
      (programNodes statements).countP fun o => o.node.isBareIf :=
    (Usage.ifWithoutElse_addProgram {} statements).trans (Nat.zero_add _)
  have hsplit := countP_isIf (programNodes statements)
  rw [← hifs, ← hbare] at hsplit
  constructor
  case ifCount => exact hifs
  case ifWithoutElse => exact hbare
  case ifWithoutElse_le => exact Nat.le.intro hsplit.symm
  case ifWithElse => exact Nat.sub_eq_of_eq_add' hsplit
  case mem_unusedLocals =>
    intro name
    rw [mem_unusedLocals, Usage.ofProgram, Usage.mem_writes_addProgram, Usage.mem_reads_addProgram]
    simp
  case ascending => exact sortNames_ascending ((hjoins.nodup_writes List.nodup_nil).filter _)
  case unusedParams =>
    show (Usage.ofProgram statements).functions.toList.flatMap _ = _
    rw [Usage.ofProgram, Usage.functions_addProgram]
    exact flatMap_declared (programNodes statements)
  case magicNumbers =>
    show ((Usage.ofProgram statements).numbers.toList.filter _).map _ = _
    rw [Usage.ofProgram, Usage.numbers_addProgram]
    rfl

/-- **Reports say what is in the tree.** A source without static faults gets a report, and the
report describes the tree of the source. Facts can also be gathered from one program after another:
a walk adds its names, counts and lists to those that are there already. -/
theorem report_describes_tree (source : String) (hclean : (Program.ofSource source).errors = []) :
    (∃ report, Report.ofSource source = .ok report ∧
      report.Describes (programNodes (Program.ofSource source).statements)) ∧
    ∀ (u : Usage) (statements : List Stmt),
      u.Joins (.ofProgram statements) (u.addProgram statements) := by
  refine ⟨⟨_, Report.ofSource_eq_ok.2 ⟨hclean, rfl⟩, ?_⟩, Usage.addProgram_joins⟩
  exact Report.ofUsage_describes _ (Program.ofSource source).statements

/-- A function within a function: the inner one reads a parameter of the outer one and has its own
of the same name as another. Values are assigned within an argument. -/
def nestedFunctions : String :=
  "fun f(a, b) { fun g(b) { return a; } return g(8 + (c = b + 9)); } if (f(1, 5)) c = 7;"

/-- The inner function's reads are not those of the outer one, and the numbers within assigned
values are not listed. -/
theorem report_describes_tree_nestedFunctions :
    ∃ report, Report.ofSource nestedFunctions = .ok report ∧
      report.unusedParams = [⟨"f", "a"⟩, ⟨"g", "b"⟩] ∧
      "c" ∈ report.unusedLocals ∧ report.magicNumbers.length = 2 ∧
      report.Describes (programNodes (Program.ofSource nestedFunctions).statements) := by
  have hclean : (Program.ofSource nestedFunctions).errors.isEmpty := by decide +kernel
  obtain ⟨⟨report, hreport, hdescribes⟩, -⟩ :=
    report_describes_tree nestedFunctions (List.isEmpty_iff.1 hclean)
  obtain ⟨-, rfl⟩ := Report.ofSource_eq_ok.1 hreport
  exact ⟨_, hreport, by decide +kernel, Report.mem_unusedLocals.2 (by decide +kernel),
    by decide +kernel, hdescribes⟩

end GradedScript
