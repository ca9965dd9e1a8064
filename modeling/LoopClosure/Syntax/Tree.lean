import LoopClosure.Syntax.Form

/-!
# Syntax trees

A tree node holds its byte range, its form with each child given by number, and its children in
source order.
-/

namespace LoopClosure.Syntax

inductive Tree where
  | node (start stop : Nat) (form : Form Nat) (children : List Tree)
deriving Repr

namespace Tree

def start : Tree → Nat
  | .node s _ _ _ => s

def stop : Tree → Nat
  | .node _ e _ _ => e

def form : Tree → Form Nat
  | .node _ _ f _ => f

def children : Tree → List Tree
  | .node _ _ _ ts => ts

/-- A node over the given subtrees. -/
def ofForm (start stop : Nat) (f : Form Tree) : Tree := .node start stop f.number f.children

def withRange (start stop : Nat) : Tree → Tree
  | .node _ _ f ts => .node start stop f ts

def identifier? (t : Tree) : Option String :=
  match t.form with
  | .identifier name => some name
  | _ => none

mutual

/-- Number of nodes. -/
def size : Tree → Nat
  | .node _ _ _ ts => sizes ts + 1

def sizes : List Tree → Nat
  | [] => 0
  | t :: ts => size t + sizes ts

end

theorem size_pos (t : Tree) : 0 < t.size := by
  cases t; simp [size]

end Tree

end LoopClosure.Syntax
