import LoopClosure.Syntax.Tree

/-!
# Numbered nodes

The nodes of a tree in a table. A node's id is its number in preorder, so a parent comes before its
children, and the nodes below a node directly behind it. Offsets and ids are not bounded; in 32 bits
they fit for a text below `2 ^ 32` bytes with fewer than `2 ^ 32 - 1` nodes.
-/

namespace LoopClosure.Syntax

abbrev NodeId := Nat

/-- Steps up the tree after which a search gives up. -/
def maxClimb : Nat := 10000

structure Node where
  start : Nat
  stop : Nat
  form : Form NodeId
  parent : Option NodeId
deriving DecidableEq, Repr

namespace Tree

/-- Ids of subtrees that lie side by side, the first of which is `id`. -/
def siblingIds (id : NodeId) : List Tree → List NodeId
  | [] => []
  | t :: ts => id :: siblingIds (id + t.size) ts

mutual

/-- The nodes of a subtree whose root gets the number `id`, in front of `behind`. -/
def nodesFrom (id : NodeId) (parent : Option NodeId) (behind : List Node) : Tree → List Node
  | .node start stop form ts =>
    let ids := (siblingIds (id + 1) ts).toArray
    ⟨start, stop, form.map fun i => ids.getD i 0, parent⟩ :: siblingNodes (id + 1) id behind ts

def siblingNodes (id parent : NodeId) (behind : List Node) : List Tree → List Node
  | [] => behind
  | t :: ts => nodesFrom id (some parent) (siblingNodes (id + t.size) parent behind ts) t

end

end Tree

/-- A table of nodes, indexed by id. -/
structure Nodes where
  table : Array Node
deriving DecidableEq, Repr

namespace Nodes

def ofTree (t : Tree) : Nodes := ⟨(t.nodesFrom 0 none []).toArray⟩

/-- The program is the first node. -/
def root : NodeId := 0

def size (ns : Nodes) : Nat := ns.table.size

def get? (ns : Nodes) (id : NodeId) : Option Node := ns.table[id]?

def form? (ns : Nodes) (id : NodeId) : Option (Form NodeId) := (ns.get? id).map (·.form)

def parent? (ns : Nodes) (id : NodeId) : Option NodeId := (ns.get? id).bind (·.parent)

def children (ns : Nodes) (id : NodeId) : List NodeId :=
  match ns.get? id with
  | some n => n.form.children
  | none => []

def identifier? (ns : Nodes) (id : NodeId) : Option String :=
  match ns.form? id with
  | some (.identifier name) => some name
  | _ => none

/-- Whether the range of `inner` lies within that of `outer`. -/
def contains (ns : Nodes) (outer inner : NodeId) : Bool :=
  match ns.get? outer, ns.get? inner with
  | some o, some i => o.start ≤ i.start && i.stop ≤ o.stop
  | _, _ => false

def climb (ns : Nodes) : Nat → NodeId → List NodeId
  | 0, _ => []
  | n + 1, id =>
    match ns.parent? id with
    | none => []
    | some parent => parent :: ns.climb n parent

/-- The nodes around a node, innermost first. -/
def ancestors (ns : Nodes) (id : NodeId) : List NodeId := ns.climb maxClimb id

/-- A node and the nodes below it, in front of `behind`. -/
def subtreeBefore (ns : Nodes) : Nat → NodeId → List NodeId → List NodeId
  | 0, _, behind => behind
  | depth + 1, id, behind => id :: (ns.children id).foldr (ns.subtreeBefore depth) behind

def subtreeWithin (ns : Nodes) (depth : Nat) (id : NodeId) : List NodeId :=
  ns.subtreeBefore depth id []

/-- A node and all nodes below it, in preorder. -/
def subtree (ns : Nodes) (id : NodeId) : List NodeId := ns.subtreeWithin ns.size id

end Nodes

namespace Form

variable {α : Type}

def isFunction : Form α → Bool
  | .function .. => true
  | _ => false

def isArrow : Form α → Bool
  | .function .arrow .. => true
  | _ => false

/-- The body of a function, method or arrow. -/
def functionBody? : Form α → Option α
  | .function _ _ _ body _ => some body
  | _ => none

/-- An arrow with an expression for a body. -/
def isConcise : Form α → Bool
  | .function _ _ _ _ traits => traits.concise
  | _ => false

def isBlock : Form α → Bool
  | .block _ => true
  | _ => false

def isClass : Form α → Bool
  | .classBody .. => true
  | _ => false

/-- The body of a loop. -/
def loopBody? : Form α → Option α
  | .forLoop _ _ _ body | .forEach _ _ _ body | .whileLoop _ body | .doWhile body _ => some body
  | _ => none

def isLoop (f : Form α) : Bool := f.loopBody?.isSome

end Form

namespace Nodes

/-- The identifiers that a target binds, in source order. Below the target at most `depth` levels
are looked at. -/
def bindingIdsWithin (ns : Nodes) : Nat → NodeId → List NodeId
  | 0, _ => []
  | depth + 1, id =>
    match ns.form? id with
    | some (.identifier _) => [id]
    | some (.arrayPattern elements) =>
      (elements.filterMap fun e => e).flatMap (ns.bindingIdsWithin depth)
    | some (.objectPattern properties) =>
      properties.flatMap fun p =>
        match ns.form? p with
        | some (.property _ value _ _) => ns.bindingIdsWithin depth value
        | some (.rest argument) => ns.bindingIdsWithin depth argument
        | _ => []
    | some (.assignmentPattern left _) => ns.bindingIdsWithin depth left
    | some (.rest argument) => ns.bindingIdsWithin depth argument
    | some (.parenthesized e) => ns.bindingIdsWithin depth e
    | _ => []

/-- The identifiers that a target binds, in source order. -/
def bindingIds (ns : Nodes) (target : NodeId) : List NodeId := ns.bindingIdsWithin ns.size target

/-- The names that a target binds, in source order. -/
def bindingNames (ns : Nodes) (target : NodeId) : List String :=
  (ns.bindingIds target).filterMap ns.identifier?

end Nodes

end LoopClosure.Syntax
