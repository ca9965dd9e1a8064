import LoopClosure.Sorting
import LoopClosure.Text.Cursor

/-!
# Line numbers

Lines are numbered from 1 and end behind a line feed, a carriage return, or the two together. The
starts of lines and the offsets looked up are those of `Text.Cursor`. In 32 bits they and the numbers
of the lines fit for texts below `2 ^ 32 - 1` bytes.
-/

namespace LoopClosure.Text

/-- Offsets behind the line ends of a text that begins at offset `n`. -/
def lineEnds (n : Nat) : List Char → List Nat
  | [] => []
  | '\r' :: '\n' :: cs => (n + 2) :: lineEnds (n + 2) cs
  | c :: cs =>
    if c = '\n' || c = '\r' then (n + 1) :: lineEnds (n + 1) cs else lineEnds (n + c.utf8Size) cs

/-- The offsets at which the lines of a text start, in order. -/
structure LineMap where
  starts : List Nat
deriving DecidableEq, Repr

namespace LineMap

def ofText (cs : List Char) : LineMap := ⟨0 :: lineEnds 0 cs⟩

def count (m : LineMap) : Nat := m.starts.length

/-- The line that holds an offset: the one that starts there, or else the last one that starts before,
or the first one if none does. -/
def lineOf (m : LineMap) (offset : Nat) : Nat :=
  let line :=
    match binarySearch m.starts offset with
    | .ok exact => exact
    | .error insertion => insertion - 1
  line + 1

/-- Where a line starts. -/
def start? (m : LineMap) : Nat → Option Nat
  | 0 => none
  | line + 1 => m.starts[line]?

end LineMap

end LoopClosure.Text
