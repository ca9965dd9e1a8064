/-!
# Options of a unit
-/

namespace LoopClosure

/-- What happens to a loop whose binding is captured by a closure. -/
inductive ClosureMode where
  /-- The body of the loop becomes a function called on the spot. -/
  | iife
  /-- The capture is an error. -/
  | error
deriving DecidableEq, Repr

structure Options where
  disallowVars : Bool := false
  disallowUnknownReferences : Bool := false
  /-- Names of predefined sets of globals. -/
  environments : List String := []
  /-- Further globals, each with whether it may be written. -/
  globals : List (String × Bool) := []
  loopClosures : ClosureMode := .iife
deriving DecidableEq, Repr

/-- Adds an entry to a list of distinct keys; a key that is there keeps its place and takes the new
value. -/
def insertEntry (entries : List (String × Bool)) (name : String) (value : Bool) :
    List (String × Bool) :=
  if entries.any (·.1 = name) then
    entries.map fun e => if e.1 = name then (name, value) else e
  else entries ++ [(name, value)]

end LoopClosure
