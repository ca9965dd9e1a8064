import LoopClosure.Draft.Basic

/-!
# Generated variables

Temporaries are declared at the top of a hoisting scope and used again once they are given back.
A shared variable is declared once for a logical name and its value; a request from a place that
its declaration does not cover moves it outward.
-/

namespace LoopClosure

open Syntax

namespace Bound

/-- Whether a `var` statement can stand in a hoisting scope. In a class body and in the expression
of an arrow it cannot. -/
def takesVar (b : Bound) (id : ScopeId) : Bool :=
  let concise := ((b.scopes.node? id).bind b.nodes.form?).elim false (·.isConcise)
  !concise && !(b.scopes.flags id).class_

/-- Looks at no more than that many hoisting scopes. -/
def declarationScopeWithin (b : Bound) : Nat → Option ScopeId → Option ScopeId
  | 0, _ => none
  | n + 1, id =>
    match b.scopes.closestHoist? id with
    | none => none
    | some hoist =>
      if b.takesVar hoist then some hoist
      else b.declarationScopeWithin n (b.scopes.parent? hoist)

/-- The nearest hoisting scope in which a `var` statement can stand. -/
def declarationScope? (b : Bound) (id : Option ScopeId) : Option ScopeId :=
  b.declarationScopeWithin (b.scopes.size + 1) id

/-- Where the declarations of a scope are inserted. -/
def insertPosition (b : Bound) (scope : Option ScopeId) : Nat :=
  match (b.scopes.node? scope).bind b.nodes.get? with
  | none => 0
  | some n =>
    match n.form with
    | .function _ _ _ body _ => ((b.nodes.get? body).map (·.start + 1)).getD 0
    | .program _ _ => 0
    | .block _ => n.start + 1
    | _ => n.start

/-- The innermost hoisting scope around both scopes; `a` if there is none. -/
def commonHoist (b : Bound) (a other : Option ScopeId) : Option ScopeId :=
  let around := (b.scopes.walk a).filter fun (id : ScopeId) => b.scopes.kind? id = some .hoist
  ((b.scopes.walk other).find? around.contains).or a

/-- The innermost block around a node, or the program, and where its statements end. -/
def blockEnd? (b : Bound) (id : NodeId) : Option (NodeId × Nat) :=
  (b.nodes.ancestors id).findSome? fun ancestor =>
    match b.nodes.get? ancestor with
    | some ⟨_, stop, .block _, _⟩ => some (ancestor, stop - 1)
    | some ⟨_, stop, .program _ _, _⟩ => some (ancestor, stop)
    | _ => none

end Bound

namespace Draft

def varText (name : String) : String := "var " ++ name ++ ";"

def initializedText (name value : String) : String := "var " ++ name ++ " = " ++ value ++ ";"

/-- A temporary for use at a node in a scope. -/
def temporary (d : Draft) (user : NodeId) (scope : Option ScopeId) (base : String := "$D") :
    Except Failure (Draft × String) :=
  let hoist := d.bound.declarationScope? scope
  match d.scopes.popFree? hoist (((d.nodes.get? user).map (·.start)).getD 0) with
  | some (s, name) => .ok (d.withScopes s, name)
  | none => do
    let (d, name) ← d.unique base
    let d ← d.declareVar hoist name
    return (d.insertBefore (d.bound.insertPosition hoist) (varText name), name)

/-- Clears a temporary at the end of a block, and no longer where it was cleared before. -/
def clear (d : Draft) (block : NodeId) (position : Nat) (name : String) : Draft :=
  let edits :=
    match d.cleanups.lookup (block, name) with
    | some previous => d.edits.deactivate previous
    | none => d.edits
  let (edits, id) := edits.push .insert position position (";" ++ name ++ " = void 0")
  { d with
    edits
    cleanups := ((block, name), id) :: d.cleanups }

/-- Gives a temporary back behind a node. With `cleanup` it is cleared at the end of the block, so
that it keeps nothing alive. -/
def release (d : Draft) (name : String) (user : NodeId) (cleanup : Bool) : Draft :=
  let hoist := d.bound.declarationScope? (d.bound.nodeScope? user)
  let free := ((d.nodes.get? user).map (·.stop)).getD 0
  let d := d.withScopes (d.scopes.pushFree hoist name free)
  match if cleanup then d.bound.blockEnd? user else none with
  | some (block, position) => d.clear block position name
  | none => d

def shared? (d : Draft) (logical : String) : Option SharedVar := d.shared.lookup logical

/-- Declares a variable with its value and notes it for its logical name. -/
def declareShared (d : Draft) (logical name value : String) (hoist : Option ScopeId) :
    Except Failure Draft := do
  let d ← d.declareVar hoist name
  let position := d.bound.insertPosition hoist
  let (edits, edit) := d.edits.push .insertBefore position position (initializedText name value)
  return { d with
    edits
    shared := (logical, { name, value, scope := hoist, edit }) :: d.shared }

/-- A variable with a value, for use in a scope. -/
def sharedVar (d : Draft) (scope : Option ScopeId) (logical value : String) :
    Except Failure (Draft × String) := do
  let hoist := d.bound.declarationScope? scope
  match (d.shared? logical).filter (·.value = value) with
  | some old =>
    if d.scopes.isAncestor old.scope hoist then return (d, old.name)
    else
      let common := d.bound.declarationScope? (d.bound.commonHoist hoist old.scope)
      let d := { d with edits := d.edits.deactivate old.edit }
      let d := d.withScopes (d.scopes.remove old.scope old.name)
      return (← d.declareShared logical old.name value common, old.name)
  | none =>
    let (d, name) ← d.unique logical
    return (← d.declareShared logical name value hoist, name)

end Draft

end LoopClosure
