import GradedScript.Value

/-!
# Scopes

A `ScopeStore` holds scopes by index; each but the first, the global one, lies inside an enclosing
scope. Scopes are opened and released in stack order. A released scope is dropped once it is on
top, unless a function captured it: a captured scope and all around it stay for good, since the
function reads and writes their names later.

Operations that need a scope answer `missing` when the store does not hold it.
-/

namespace GradedScript

/-! ### Bindings -/

/-- The names bound in one scope, each once, with their values. -/
structure Bindings where
  entries : List (String × Value) := []
deriving Inhabited

/-- The value of a name. -/
def Bindings.find? (b : Bindings) (name : String) : Option Value :=
  b.entries.lookup name

/-- The entries with a name's value replaced, or the name put last. -/
def insertEntry (name : String) (value : Value) : List (String × Value) → List (String × Value)
  | [] => [(name, value)]
  | (other, old) :: entries =>
    if other == name then (name, value) :: entries
    else (other, old) :: insertEntry name value entries

/-- Binds a name, in place of an earlier binding of it. -/
def Bindings.insert (b : Bindings) (name : String) (value : Value) : Bindings :=
  ⟨insertEntry name value b.entries⟩

/-- The bound names. -/
def Bindings.names (b : Bindings) : List String :=
  b.entries.map Prod.fst

/-! ### Scopes and their store -/

/-- A scope: its bindings, the scope around it, whether a function captured it, and whether it was
released. -/
structure Scope where
  bindings : Bindings := {}
  enclosing : Option ScopeId := none
  captured : Bool := false
  released : Bool := false
deriving Inhabited

/-- Whether nothing can reach the scope any more. -/
def Scope.dead (s : Scope) : Bool :=
  s.released && !s.captured

/-- The scopes that are held, by index. -/
structure ScopeStore where
  scopes : Array Scope
deriving Inhabited

namespace ScopeStore

/-- The index of the global scope. -/
def globalId : ScopeId := 0

/-- A store with the global scope only, which stays for good. -/
def fresh : ScopeStore :=
  ⟨#[{ captured := true }]⟩

/-- The number of scopes held. -/
def size (store : ScopeStore) : Nat :=
  store.scopes.size

/-- The scope with an index. -/
def scope? (store : ScopeStore) (id : ScopeId) : Option Scope :=
  store.scopes[id]?

/-- Opens a scope inside another; its index is the former size. -/
def push (store : ScopeStore) (enclosing : ScopeId) : ScopeStore :=
  ⟨store.scopes.push { enclosing := some enclosing }⟩

/-- Changes the scope with an index, if there is one. -/
def update (store : ScopeStore) (id : ScopeId) (f : Scope → Scope) : ScopeStore :=
  ⟨store.scopes.modify id f⟩

/-- Drops the dead scopes on top. -/
def reclaim (store : ScopeStore) : ScopeStore :=
  ⟨store.scopes.popWhile Scope.dead⟩

/-- Marks a scope as left, and drops what is dead on top. A scope that is gone is no matter. -/
def release (store : ScopeStore) (id : ScopeId) : ScopeStore :=
  (store.update id fun s => { s with released := true }).reclaim

/-- Why a name has no value: nothing binds it, or a scope is not held. -/
inductive Absence where
  | unbound
  | missing (id : ScopeId)
deriving DecidableEq, Inhabited

/-- The nearest scope outward from `id` that binds a name, and the value there. -/
def resolve (store : ScopeStore) (name : String) (id : ScopeId) :
    Except Absence (ScopeId × Value) :=
  match store.scope? id with
  | none => .error (.missing id)
  | some s =>
    match s.bindings.find? name with
    | some value => .ok (id, value)
    | none =>
      match s.enclosing with
      | none => .error .unbound
      | some outer => if outer < id then store.resolve name outer else .error (.missing outer)
termination_by id

/-- The value of a name, seen from a scope. -/
def get (store : ScopeStore) (id : ScopeId) (name : String) : Except Absence Value :=
  (store.resolve name id).map Prod.snd

/-- Binds a name in a scope to a value, whether it holds the name or not. -/
def bind (store : ScopeStore) (id : ScopeId) (name : String) (value : Value) : ScopeStore :=
  store.update id fun s => { s with bindings := s.bindings.insert name value }

/-- Gives the nearest binding of a name a new value; never makes a binding. -/
def assign (store : ScopeStore) (id : ScopeId) (name : String) (value : Value) :
    Except Absence ScopeStore :=
  match store.resolve name id with
  | .ok (owner, _) => .ok (store.bind owner name value)
  | .error absence => .error absence

/-- Binds a name in the scope itself. -/
def define (store : ScopeStore) (id : ScopeId) (name : String) (value : Value) :
    Except Absence ScopeStore :=
  if id < store.size then .ok (store.bind id name value) else .error (.missing id)

/-- The first scope outward from `id` that is not held, up to the first captured one. -/
def missingOutward? (store : ScopeStore) (id : ScopeId) : Option ScopeId :=
  match store.scope? id with
  | none => some id
  | some s =>
    if s.captured then none
    else
      match s.enclosing with
      | none => none
      | some outer => if outer < id then store.missingOutward? outer else some outer
termination_by id

/-- Marks the scopes outward from `id` as captured, up to the first that is. -/
def markOutward (store : ScopeStore) (id : ScopeId) : ScopeStore :=
  match store.scope? id with
  | none => store
  | some s =>
    if s.captured then store
    else
      let enclosing := s.enclosing
      let store := store.update id fun s => { s with captured := true }
      match enclosing with
      | none => store
      | some outer => if outer < id then store.markOutward outer else store
termination_by id

/-- Keeps a scope and all around it for good. What lies around a captured scope is captured
already. -/
def capture (store : ScopeStore) (id : ScopeId) : Except Absence ScopeStore :=
  match store.missingOutward? id with
  | none => .ok (store.markOutward id)
  | some gone => .error (.missing gone)

/-- The value of a name in one scope only. -/
def getLocal? (store : ScopeStore) (id : ScopeId) (name : String) : Option Value :=
  (store.scope? id).bind fun s => s.bindings.find? name

/-- The names that can be seen from a scope and are not among those found already, after them. -/
def namesFrom (store : ScopeStore) (found : List String) (id : ScopeId) :
    Except Absence (List String) :=
  match store.scope? id with
  | none => .error (.missing id)
  | some s =>
    let found := found ++ s.bindings.names.filter (!found.contains ·)
    match s.enclosing with
    | none => .ok found
    | some outer => if outer < id then store.namesFrom found outer else .error (.missing outer)
termination_by id

/-- The names that can be seen from a scope, each once. -/
def names (store : ScopeStore) (id : ScopeId) : Except Absence (List String) :=
  store.namesFrom [] id

end ScopeStore

end GradedScript
