import LoopClosure.Lowering.Relay
import LoopClosure.Lowering.Wrap

/-!
# Sites

A site is a place in a wrapped body whose meaning changes when the body becomes a function. What
lies in another wrapped body belongs to that body.
-/

namespace LoopClosure

open Syntax

inductive SiteKind where
  /-- A jump to a target outside of the body. -/
  | jump
  | returns
  | this
  /-- `arguments` that is no binding of the program. -/
  | arguments
  /-- A declaration with `var`. -/
  | var
deriving DecidableEq, Repr

namespace Bound

/-- Whether a jump with an optional label ends at a statement. -/
def isTarget (ns : Nodes) (kind : JumpKind) (label : Option String) (form : Form NodeId) : Bool :=
  match label, form with
  | some name, .labeled label _ => ns.identifier? label = some name
  | some _, _ => false
  | none, .switch .. => kind = .toEnd
  | none, form => form.isLoop

def leavesAmong (ns : Nodes) (kind : JumpKind) (label : Option String) (body : NodeId) :
    List NodeId → Bool
  | [] => true
  | id :: ids =>
    match ns.form? id with
    | none => true
    | some form =>
      if isTarget ns kind label form then false
      else if id = body || form.isFunction then true
      else leavesAmong ns kind label body ids

/-- Whether the target of a jump lies outside of `body`. -/
def leavesBody (ns : Nodes) (jump : NodeId) (kind : JumpKind) (label : Option NodeId)
    (body : NodeId) : Bool :=
  leavesAmong ns kind (label.bind ns.identifier?) body (ns.ancestors jump)

/-- `arguments` that no declaration of the program binds. -/
def isFreeArguments (b : Bound) (ident : NodeId) : Bool :=
  b.references.contains ident &&
    ((b.resolution? ident).map fun r => decide (r.scope = Binding.topScope)).getD true

/-- What a node is a site of. -/
def siteKind? (b : Bound) (body : NodeId) (inArrow : Bool) (id : NodeId) :
    Form NodeId → Option SiteKind
  | .this => some .this
  | .identifier name => if name = "arguments" && b.isFreeArguments id then some .arguments else none
  | .jump kind label =>
    if !inArrow && leavesBody b.nodes id kind label body then some .jump else none
  | .returns _ => if inArrow then none else some .returns
  | .bindings .var _ => if inArrow then none else some .var
  | _ => none

/-- The children of a node that can hold sites. A function has its own, and of a class only the
heritage belongs to the code around. -/
def siteChildren (form : Form NodeId) : List NodeId :=
  match form with
  | .function .arrow .. => form.children
  | .function .. => []
  | .classBody _ _ heritage _ => heritage.toList
  | _ => form.children

def sitesWithin (b : Bound) (isWrapped : NodeId → Bool) (body : NodeId) :
    Nat → Bool → NodeId → List (SiteKind × NodeId)
  | 0, _, _ => []
  | depth + 1, inArrow, id =>
    if id ≠ body && isWrapped id then []
    else
      match b.nodes.form? id with
      | none => []
      | some form =>
        ((b.siteKind? body inArrow id form).map fun kind => (kind, id)).toList ++
          (siteChildren form).flatMap
            (b.sitesWithin isWrapped body depth (inArrow || form.isArrow))

/-- The sites of a wrapped body, in preorder. -/
def sites (b : Bound) (isWrapped : NodeId → Bool) (body : NodeId) : List (SiteKind × NodeId) :=
  b.sitesWithin isWrapped body b.nodes.size false body

end Bound

end LoopClosure
