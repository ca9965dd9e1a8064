import LoopClosure.Distinct
import LoopClosure.Draft.Basic
import LoopClosure.Lowering.Hazard
import LoopClosure.Lowering.Relay

/-!
# The state of a lowering

Once the loops to wrap are known, the lowering collects for each of them what its function has to
do besides the body. The wraps nest: the parent of a wrap is the innermost other one whose body
holds its loop.
-/

namespace LoopClosure

open Syntax

/-- What surrounds the call of a wrapped body. -/
structure Exits where
  /-- What the body relays. -/
  relays : List Relay := []
  /-- The result of the call is kept. -/
  valued : Bool := false
  /-- Variables declared in front of the call; only of wraps without parent. -/
  declared : List String := []
  /-- Checks behind the call. -/
  checks : List String := []
deriving DecidableEq, Repr

/-- A keyword whose value is handed into a wrapped body. -/
inductive Alias where
  | this | arguments
deriving DecidableEq, Repr

namespace Alias

def keyword : Alias → String
  | .this => "this"
  | .arguments => "arguments"

/-- Key of the variable. -/
def key : Alias → String
  | .this => "that"
  | .arguments => "args"

end Alias

structure Lowering where
  draft : Draft
  wraps : Array Wrap
  /-- By wrap. -/
  parents : Array (Option Nat)
  /-- By wrap. -/
  exits : Array Exits
  /-- What is declared, and where. -/
  aliases : List (ScopeId × Alias) := []
deriving DecidableEq, Repr

/-- The first element with the least key. -/
def leastBy? {α : Type} (key : α → Nat) : List α → Option α
  | [] => none
  | a :: as =>
    match leastBy? key as with
    | none => some a
    | some b => if key b < key a then some b else some a

/-- The number of bytes of a node. -/
def Syntax.Nodes.length (ns : Nodes) (id : NodeId) : Nat :=
  ((ns.get? id).map fun n => n.stop - n.start).getD 0

def Syntax.Nodes.start (ns : Nodes) (id : NodeId) : Nat := ((ns.get? id).map (·.start)).getD 0

/-- The parent of wrap `i`. -/
def parentOf? (ns : Nodes) (wraps : Array Wrap) (i : Nat) : Option Nat := do
  let w ← wraps[i]?
  let around := (List.range wraps.size).filter fun j =>
    j ≠ i && ((wraps[j]?).map fun o => ns.contains o.body w.loop).getD false
  leastBy? (fun j => ((wraps[j]?).map fun o => ns.length o.body).getD 0) around

namespace Lowering

def ofWraps (b : Bound) (wraps : Array Wrap) : Lowering where
  draft := .ofBound b
  wraps := wraps
  parents := ((List.range wraps.size).map (parentOf? b.nodes wraps)).toArray
  exits := .replicate wraps.size {}

def bound (l : Lowering) : Bound := l.draft.bound

def nodes (l : Lowering) : Nodes := l.draft.nodes

def parent? (l : Lowering) (i : Nat) : Option Nat := (l.parents[i]?).join

def outermostWithin (l : Lowering) : Nat → Nat → Nat
  | 0, i => i
  | n + 1, i =>
    match l.parent? i with
    | some p => l.outermostWithin n p
    | none => i

/-- The wrap without parent that a wrap lies in, or is. -/
def outermost (l : Lowering) (i : Nat) : Nat := l.outermostWithin l.wraps.size i

def isWrappedBody (l : Lowering) (id : NodeId) : Bool := l.wraps.any (·.body = id)

def exit (l : Lowering) (i : Nat) : Exits := (l.exits[i]?).getD {}

def modifyExit (l : Lowering) (i : Nat) (f : Exits → Exits) : Lowering :=
  { l with exits := l.exits.modify i f }

def addRelay (l : Lowering) (i : Nat) (r : Relay) : Lowering :=
  l.modifyExit i fun e => { e with
    relays := appendNew e.relays r
    valued := e.valued || r.isValued }

def addDeclared (l : Lowering) (i : Nat) (names : List String) : Lowering :=
  l.modifyExit i fun e => { e with declared := names.foldl appendNew e.declared }

def addCheck (l : Lowering) (i : Nat) (text : String) : Lowering :=
  l.modifyExit i fun e => { e with checks := e.checks ++ [text] }

def withDraft (l : Lowering) (d : Draft) : Lowering := { l with draft := d }

/-- The name for a key, the same each time. -/
def permanentName (l : Lowering) (key : String) : Except Failure (Lowering × String) := do
  let (d, name) ← l.draft.permanentName key
  return (l.withDraft d, name)

def replace (l : Lowering) (start stop : Nat) (text : String) : Lowering :=
  l.withDraft (l.draft.replace start stop text)

def insert (l : Lowering) (position : Nat) (text : String) : Lowering :=
  l.withDraft (l.draft.insert position text)

def insertAfter (l : Lowering) (position : Nat) (text : String) : Lowering :=
  l.withDraft (l.draft.insertAfter position text)

/-- Declares a generated `var`, which must not come between a reference and its binding. -/
def declare (l : Lowering) (scope : Option ScopeId) (name : String) : Except Failure Lowering :=
  let s := l.draft.scopes
  if s.hasPropagated (s.closestHoist? scope) name then
    .error (.internal ("synthetic name " ++ name ++ " shadows an outer binding"))
  else (l.draft.declareVar scope name).map l.withDraft

end Lowering

end LoopClosure
