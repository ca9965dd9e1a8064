import LoopClosure.Scope.Basic

/-!
# The table of scopes

Scopes refer to one another by id. An id may be absent or stand for no scope; an operation on such
an id changes nothing. A way up the table is cut off after `maxWalk` scopes.
-/

namespace LoopClosure

open Syntax (NodeId)

def maxWalk : Nat := 10000

/-- Scopes by id. -/
structure Scopes where
  table : Array Scope := #[]
deriving DecidableEq, Repr

/-- A name is declared again where that is not allowed. -/
structure Duplicate where
  name : String
  scope : ScopeId
deriving DecidableEq, Repr

namespace Scopes

def size (s : Scopes) : Nat := s.table.size

def get? (s : Scopes) (id : Option ScopeId) : Option Scope := id.bind fun id => s.table[id]?

def update (s : Scopes) (id : Option ScopeId) (f : Scope → Scope) : Scopes :=
  match id with
  | some id => ⟨s.table.modify id f⟩
  | none => s

/-- Adds a scope below `parent`. -/
def alloc (s : Scopes) (kind : ScopeKind) (node : Option NodeId) (parent : Option ScopeId)
    (flags : Flags) : Scopes × ScopeId :=
  let id := s.size
  let s : Scopes := ⟨s.table.push { kind, node, parent, flags }⟩
  (s.update parent fun p => { p with children := p.children ++ [id] }, id)

def parent? (s : Scopes) (id : Option ScopeId) : Option ScopeId := (s.get? id).bind (·.parent)

def kind? (s : Scopes) (id : Option ScopeId) : Option ScopeKind := (s.get? id).map (·.kind)

def node? (s : Scopes) (id : Option ScopeId) : Option NodeId := (s.get? id).bind (·.node)

def flags (s : Scopes) (id : Option ScopeId) : Flags := ((s.get? id).map (·.flags)).getD {}

def walkUp (s : Scopes) : Nat → Option ScopeId → List ScopeId
  | 0, _ => []
  | _ + 1, none => []
  | n + 1, some id => id :: s.walkUp n (s.parent? id)

/-- A scope and its ancestors. -/
def walk (s : Scopes) (id : Option ScopeId) : List ScopeId := s.walkUp maxWalk id

/-! ## Declarations -/

/-- Where a hoisted name goes: to the first hoisting scope of the way up, unless a block on the way
has a block-scoped binding of that name. -/
def hoistTarget (s : Scopes) (name : String) : List ScopeId → Except Duplicate (Option ScopeId)
  | [] => .ok none
  | id :: ids =>
    match s.get? id with
    | none => .ok none
    | some scope =>
      if scope.isHoist then .ok (some id)
      else if ((scope.declaration? name).map (·.kind.isBlockScoped)).getD false then
        .error ⟨name, id⟩
      else s.hoistTarget name ids

/-- Declares a name at scope `id`. The answer holds the scope that received it. A name that is there
is kept as it was, unless one of the two is block-scoped, which is refused. -/
def declare (s : Scopes) (id : Option ScopeId) (name : String) (kind : BindingKind)
    (node : Option NodeId) (fromPos : Option Nat) : Except Duplicate (Scopes × Option ScopeId) :=
  let target := if kind.isHoisted then s.hoistTarget name (s.walk id) else .ok id
  match target with
  | .error d => .error d
  | .ok none => .ok (s, none)
  | .ok (some target) =>
    match s.get? target with
    | none => .ok (s, some target)
    | some scope =>
      match scope.declaration? name with
      | some existing =>
        if existing.kind.isBlockScoped || kind.isBlockScoped then .error ⟨name, target⟩
        else .ok (s, some target)
      | none =>
        .ok (s.update target fun scope => scope.append name { kind, node, fromPos }, some target)

/-- Declares a global at scope `id`, in place of what the name was. -/
def addGlobal (s : Scopes) (id : Option ScopeId) (name : String) (kind : BindingKind)
    (fromPos : Option Nat) : Scopes :=
  s.update id fun scope =>
    (scope.remove name).append name { kind, node := none, fromPos, isGlobal := true }

def declaration? (s : Scopes) (id : Option ScopeId) (name : String) : Option Declaration :=
  (s.get? id).bind (·.declaration? name)

def remove (s : Scopes) (id : Option ScopeId) (name : String) : Scopes :=
  s.update id (·.remove name)

def modify (s : Scopes) (id : Option ScopeId) (name : String) (f : Declaration → Declaration) :
    Scopes :=
  s.update id (·.modify name f)

def addType (s : Scopes) (id : Option ScopeId) (name : String) (t : ValueType) : Scopes :=
  s.modify id name (·.addType t)

/-- The nearest scope of the way up that declares the name. -/
def lookup? (s : Scopes) (id : Option ScopeId) (name : String) : Option ScopeId :=
  (s.walk id).find? fun id => ((s.get? id).map (·.declares name)).getD false

/-! ## Ways up -/

def closestHoist? (s : Scopes) (id : Option ScopeId) : Option ScopeId :=
  (s.walk id).find? fun id => s.kind? id = some .hoist

/-- The nearest program or function; wrapped loops and classes do not count. -/
def closestFunction? (s : Scopes) (id : Option ScopeId) : Option ScopeId :=
  (s.walk id).find? fun id =>
    s.kind? id = some .hoist && !(s.flags id).loopWrapper && !(s.flags id).class_

/-- Whether a function lies on the way from `inner` up to `outer`, which does not count itself. -/
def hasFunctionBetween (s : Scopes) (inner outer : Option ScopeId) : Bool :=
  ((s.walk inner).takeWhile fun id => some id ≠ outer).any fun id => (s.flags id).function

def isAncestor (s : Scopes) (ancestor id : Option ScopeId) : Bool :=
  (s.walk id).any fun id => some id = ancestor

/-! ## Flags, uses and temporaries -/

def addFlags (s : Scopes) (id : Option ScopeId) (flags : Flags) : Scopes :=
  s.update id fun scope => { scope with flags := scope.flags.union flags }

def markPropagates (s : Scopes) (id : Option ScopeId) (name : String) : Scopes :=
  s.update id (·.propagate name)

def hasPropagated (s : Scopes) (id : Option ScopeId) (name : String) : Bool :=
  ((s.get? id).map fun scope => decide (name ∈ scope.propagates)).getD false

def addReference (s : Scopes) (id : Option ScopeId) (name : String) (node : NodeId) : Scopes :=
  s.update id (·.addReference name node)

/-- Takes out the uses of a name. -/
def takeReferences (s : Scopes) (id : Option ScopeId) (name : String) : Scopes × List NodeId :=
  (s.update id (·.dropReferences name), ((s.get? id).map (·.referencesTo name)).getD [])

/-- Gives back a temporary that is free from a position on. -/
def pushFree (s : Scopes) (id : Option ScopeId) (name : String) (position : Nat) : Scopes :=
  s.update id fun scope => { scope with freeTemps := scope.freeTemps ++ [(name, position)] }

/-- Takes the first temporary that is free at a position. -/
def popFree? (s : Scopes) (id : Option ScopeId) (position : Nat) : Option (Scopes × String) := do
  let scope ← s.get? id
  let i ← scope.freeTemps.findIdx? (·.2 ≤ position)
  let temp ← scope.freeTemps[i]?
  return (s.update id fun scope => { scope with freeTemps := scope.freeTemps.eraseIdx i }, temp.1)

/-! ## Restructuring -/

def setKind (s : Scopes) (id : Option ScopeId) (kind : ScopeKind) : Scopes :=
  s.update id fun scope => { scope with kind }

/-- Moves a scope below another parent, behind the children that are there. -/
def reparent (s : Scopes) (child : ScopeId) (parent : Option ScopeId) : Scopes :=
  let old := s.parent? child
  if old = parent then s
  else
    let s := s.update old fun p => { p with children := p.children.filter (· ≠ child) }
    let s := s.update child fun c => { c with parent }
    s.update parent fun p => { p with children := p.children ++ [child] }

end Scopes

end LoopClosure
