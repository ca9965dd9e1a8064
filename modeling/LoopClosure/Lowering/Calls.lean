import LoopClosure.Lowering.Basic

/-!
# Calls and checks

The function of a wrapped body is called on the spot. Checks behind the call make the jumps that
the body relays, or hand them on to the wrap around.
-/

namespace LoopClosure.Lowering

open Syntax

/-- Whether the target of a relay of a loop lies outside of the body of the wrap around, too. -/
def crosses (ns : Nodes) (loop outerBody : NodeId) : Relay → Bool
  | .returnVoid | .returnPrimitive | .returnValue => true
  | .break_ none => false
  | .break_ (some label) | .continue_ label =>
    let isLabeled (id : NodeId) : Bool :=
      match ns.form? id with
      | some (.labeled l _) => ns.identifier? l = some label
      | _ => false
    !(((ns.ancestors loop).find? isLabeled).map (ns.contains outerBody)).getD false

/-- The wrap that takes over a relay of wrap `i`. -/
def forwardTo? (l : Lowering) (i : Nat) (r : Relay) : Option Nat := do
  let w ← l.wraps[i]?
  let p ← l.parent? i
  let outer ← l.wraps[p]?
  if crosses l.nodes w.loop outer.body r then some p else none

/-- The check that makes a jump. -/
def checkOf (l : Lowering) (flag : String) : Relay → Except Failure (Lowering × String)
  | .break_ none => .ok (l, jumpText flag "break")
  | .break_ (some label) => .ok (l, jumpText flag ("break " ++ label))
  | .continue_ label => .ok (l, jumpText flag ("continue " ++ label))
  | .returnVoid => .ok (l, jumpText flag "return")
  | .returnPrimitive => do
    let (l, value) ← l.permanentName "value"
    return (l, jumpText flag ("return " ++ value))
  | .returnValue => do
    let (l, value) ← l.permanentName "value"
    let (l, caught) ← l.permanentName "rp"
    return (l, returnText flag value caught)

/-- The variable for the result of a call, where there is one. -/
def valueName? (l : Lowering) (valued : Bool) : Except Failure (Lowering × Option String) :=
  if valued then (l.permanentName "value").map fun (l, name) => (l, some name) else .ok (l, none)

/-- Adds the check for a relay of wrap `i`. -/
def resolveRelay (i : Nat) (l : Lowering) (r : Relay) : Except Failure Lowering := do
  let (l, flag) ← l.permanentName r.flagKey
  match l.forwardTo? i r with
  | some p =>
    let (l, value) ← l.valueName? r.isValued
    return (l.addCheck i (forwardText flag value)).addRelay p r
  | none =>
    let (l, check) ← l.checkOf flag r
    return (l.addCheck i check).addDeclared (l.outermost i) [flag]

/-- Adds the checks for all relays of wrap `i`. -/
def resolveRelays (l : Lowering) (i : Nat) : Except Failure Lowering :=
  (l.exit i).relays.foldlM (resolveRelay i) l

/-- Writes the call of wrap `i` and declares its variables. -/
def writeCall (l : Lowering) (i : Nat) : Except Failure Lowering :=
  match l.wraps[i]? with
  | none => .ok l
  | some w =>
    match l.nodes.get? w.body with
    | none => .error (.internal "wrapped loop body is missing")
    | some body => do
      let e := l.exit i
      let (l, value) ← l.valueName? e.valued
      let declared := if (l.parent? i).isNone then e.declared ++ value.toList else []
      let params := ", ".intercalate w.params
      let head :=
        (if declared.isEmpty then "" else "var " ++ ", ".intercalate declared ++ ";") ++
          (value.map (· ++ " = ")).getD "" ++ "(function(" ++ params ++ ")\x7b"
      let tail := "\x7d)(" ++ params ++ ");" ++ String.join e.checks
      let l :=
        if w.blockBody then (l.insert (body.start + 1) head).insert (body.stop - 1) tail
        else (l.insert body.start ("\x7b" ++ head)).insert body.stop (tail ++ "\x7d")
      declared.foldlM (fun l name => l.declare (l.bound.nodeScope? w.loop) name) l

end LoopClosure.Lowering
