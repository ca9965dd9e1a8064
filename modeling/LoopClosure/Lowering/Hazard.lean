import LoopClosure.Lowering.Wrap

/-!
# Hazardous references

A `let` or `const` of a loop is a new binding on each turn. A reference to one from a closure made
in the same loop is a hazard: it keeps the binding of its turn, and as a plain `var` the name would
be shared by all turns. Each loop with a hazard is wrapped, in the order of the first hazards.
-/

namespace LoopClosure

open Syntax

structure Hazard where
  /-- The reference. -/
  ident : NodeId
  name : String
  /-- The scope of the binding. -/
  scope : ScopeId
  /-- The loop that makes the binding anew. -/
  loop : NodeId
deriving DecidableEq, Repr

namespace Syntax.Nodes

/-- The innermost loop at or around a node, in the same function. -/
def enclosingLoop? (ns : Nodes) (id : NodeId) : Option NodeId :=
  let stops (id : NodeId) : Bool :=
    match ns.form? id with
    | some form => form.isFunction || form.isLoop
    | none => false
  ((id :: ns.ancestors id).find? stops).filter fun id =>
    ((ns.form? id).map (·.isLoop)).getD false

/-- Whether the meaning of a node changes when it moves into a function: `super` always, `yield` and
`await` outside of arrows. -/
def isBlocker (inArrow : Bool) : Form NodeId → Bool
  | .super => true
  | .yield .. | .await .. => !inArrow
  | _ => false

def blockedWithin (ns : Nodes) : Nat → Bool → NodeId → Bool
  | 0, _, _ => false
  | depth + 1, inArrow, id =>
    match ns.form? id with
    | none => false
    | some form =>
      isBlocker inArrow form ||
        ((!form.isFunction || form.isArrow) &&
          form.children.any (ns.blockedWithin depth (inArrow || form.isArrow)))

/-- Whether a body holds, outside of functions that are no arrows, what cannot move into a
function. -/
def isBlocked (ns : Nodes) (body : NodeId) : Bool := ns.blockedWithin ns.size false body

end Syntax.Nodes

namespace Bound

/-- The hazard that a reference is. -/
def hazard? (b : Bound) (ident : NodeId) : Option Hazard := do
  let r ← b.resolution? ident
  let name ← b.nodes.identifier? ident
  let d ← b.scopes.declaration? r.scope name
  let inner := b.nodeScope? ident
  if !d.kind.isBlockScoped || inner = some r.scope then none
  else
    let loop ← b.nodes.enclosingLoop? (← b.scopes.node? r.scope)
    if b.scopes.hasFunctionBetween inner r.scope then return ⟨ident, name, r.scope, loop⟩ else none

/-- Whether the binding of a hazard is made in the head of the loop where wrapping the body does not
help: turns of a plain `for` share what test and step use, and a reference in the head itself is not
moved. -/
def isHeaderCapture (b : Bound) (h : Hazard) (body : NodeId) : Bool :=
  let plainFor :=
    match b.nodes.form? h.loop with
    | some (.forLoop ..) => true
    | _ => false
  b.scopes.node? h.scope = some h.loop && (plainFor || !b.nodes.contains body h.ident)

/-- The defect at the declaration of the binding. -/
def headerCapture (b : Bound) (h : Hazard) : Failure :=
  match ((b.scopes.declaration? h.scope h.name).map (·.node)).getD (some h.ident) with
  | some id => b.unit.defectAt .unsupportedLoopHeaderCapture id h.name
  | none => b.unit.defect .unsupportedLoopHeaderCapture 0 0 h.name

/-- Wraps the loop of a hazard, if it is not wrapped. -/
def wrapHazard (b : Bound) (wraps : Array Wrap) (h : Hazard) :
    Except Failure (Bound × Array Wrap) :=
  let untransformable := b.unit.defectAt .loopClosureNotTransformable h.ident h.name
  match b.unit.options.loopClosures, (b.nodes.form? h.loop).bind (·.loopBody?) with
  | .error, _ => .error untransformable
  | .iife, none => .ok (b, wraps)
  | .iife, some body =>
    if b.isHeaderCapture h body then .error (b.headerCapture h)
    else if b.nodes.isBlocked body then .error untransformable
    else if wraps.any (·.loop = h.loop) then .ok (b, wraps)
    else do
      let (b, w) ← b.wrap h.loop body
      return (b, wraps.push w)

/-- Wraps the loops with hazards among the references. -/
def wrapAll : Bound → Array Wrap → List NodeId → Except Failure (Bound × Array Wrap)
  | b, wraps, [] => .ok (b, wraps)
  | b, wraps, ident :: idents =>
    match b.hazard? ident with
    | none => wrapAll b wraps idents
    | some h => do
      let (b, wraps) ← b.wrapHazard wraps h
      wrapAll b wraps idents

/-- Wraps the loops with hazards, in the order of the first hazards. -/
def wrapLoops (b : Bound) : Except Failure (Bound × Array Wrap) := wrapAll b #[] b.references

end Bound

end LoopClosure
