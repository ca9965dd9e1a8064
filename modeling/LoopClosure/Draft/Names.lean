import LoopClosure.Diagnostic

/-!
# Fresh names

A generated name is a base, a dollar sign and a number. It is none of the identifiers of its unit,
and none that was given out before.
-/

namespace LoopClosure

/-- Numbers that are tried for one base. -/
def maxProbes : Nat := 100000

structure Names where
  /-- Names that may not be given out. -/
  taken : List String
  /-- The name for each key that was asked for. -/
  permanent : List (String × String) := []
deriving DecidableEq, Repr

namespace Names

def isTaken (n : Names) (name : String) : Bool := n.taken.contains name

def candidate (base : String) (i : Nat) : String := base ++ "$" ++ toString i

/-- The first candidate that is free, of `count` from number `i` on. -/
def probe? (free : String → Bool) (base : String) : Nat → Nat → Option String
  | 0, _ => none
  | count + 1, i =>
    if free (candidate base i) then some (candidate base i) else probe? free base count (i + 1)

/-- A new name for a base; what `excluded` holds of is passed over. -/
def unique (n : Names) (base : String) (excluded : String → Bool := fun _ => false) :
    Except Failure (Names × String) :=
  match probe? (fun name => !n.isTaken name && !excluded name) base maxProbes 0 with
  | some name => .ok ({ n with taken := name :: n.taken }, name)
  | none =>
    .error (.internal ("no free synthetic name for " ++ base ++ " after " ++ toString maxProbes ++
      " probes"))

/-- The name for a key, if it was asked for. -/
def permanent? (n : Names) (key : String) : Option String := n.permanent.lookup key

/-- The name for a key, the same each time. -/
def permanentName (n : Names) (key : String) : Except Failure (Names × String) :=
  match n.permanent? key with
  | some name => .ok (n, name)
  | none => do
    let (n, name) ← n.unique ("$" ++ key)
    return ({ n with permanent := (key, name) :: n.permanent }, name)

end Names

end LoopClosure
