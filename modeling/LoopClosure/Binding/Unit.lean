import LoopClosure.Diagnostic
import LoopClosure.Options
import LoopClosure.Syntax.Nodes

/-!
# Compilation units
-/

namespace LoopClosure

open Syntax (NodeId Nodes)

/-- A parsed source with its name and options. -/
structure CompilationUnit where
  file : String
  source : List Char
  nodes : Nodes
  options : Options
deriving DecidableEq, Repr

namespace CompilationUnit

def lineOf (u : CompilationUnit) (position : Nat) : Nat :=
  (Text.LineMap.ofText u.source).lineOf position

/-- A defect at a byte range. -/
def defect (u : CompilationUnit) (d : Defect) (start length : Nat) (arg : String) : Failure :=
  .defect (.ofDefect d u.file start length (u.lineOf start) arg)

/-- A defect at a node. -/
def defectAt (u : CompilationUnit) (d : Defect) (id : NodeId) (arg : String) : Failure :=
  match u.nodes.get? id with
  | some n => u.defect d n.start (n.stop - n.start) arg
  | none => u.defect d 0 0 arg

end CompilationUnit

end LoopClosure
