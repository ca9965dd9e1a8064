import LoopClosure.Lowering.Calls
import LoopClosure.Lowering.Body

/-!
# Lowering

A bound unit in which every hazardous loop gets a function for its body, so that each turn keeps its
own bindings.
-/

namespace LoopClosure

open Syntax

/-- A loop that was wrapped. -/
structure WrappedLoop where
  start : Nat
  stop : Nat
  params : List String
  /-- The flags that its body relays through. -/
  flags : List String
deriving DecidableEq, Repr

structure Lowered where
  code : List Char
  /-- The edits in effect, in the order made. -/
  edits : List Edit
  /-- In the order of the first hazards. -/
  wrappedLoops : List WrappedLoop
  /-- The unit with the scopes as they are afterwards. -/
  bound : Bound
deriving DecidableEq, Repr

namespace Lowering

/-- The wraps in source order. -/
def inSourceOrder (l : Lowering) : List Nat :=
  sortByKey (fun i => ((l.wraps[i]?).map fun w => l.nodes.start w.loop).getD 0)
    (List.range l.wraps.size)

/-- The wraps by the size of their bodies, so that each comes before its parent. -/
def innerFirst (l : Lowering) : List Nat :=
  let body (i : Nat) : NodeId := ((l.wraps[i]?).map (·.body)).getD Nodes.root
  sortByKey (fun i => l.nodes.length (body i))
    (sortByKey (fun i => l.nodes.start (body i)) l.inSourceOrder)

/-- Adapts the bodies, then resolves the relays, then writes the calls. -/
def finish (l : Lowering) : Except Failure Lowering := do
  let l ← l.inSourceOrder.foldlM adaptBody l
  let l ← l.innerFirst.foldlM resolveRelays l
  l.innerFirst.foldlM writeCall l

def wrappedLoop (l : Lowering) (i : Nat) (w : Wrap) : WrappedLoop where
  start := l.nodes.start w.loop
  stop := ((l.nodes.get? w.loop).map (·.stop)).getD 0
  params := w.params
  flags := (l.exit i).relays.filterMap fun r => l.draft.names.permanent? r.flagKey

end Lowering

/-- Gives every turn of a loop its own bindings where closures capture them. -/
def lower (b : Bound) : Except Failure Lowered := do
  let (b, wraps) ← b.wrapLoops
  let l ← (Lowering.ofWraps b wraps).finish
  let code ← l.draft.apply
  return {
    code
    edits := l.draft.edits.active
    wrappedLoops := wraps.toList.mapIdx l.wrappedLoop
    bound := l.bound }

end LoopClosure
