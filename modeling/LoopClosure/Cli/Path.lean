import LoopClosure.Text.Split

/-!
# Paths

Paths are texts with slashes between their parts. Empty parts and single dots say nothing, except a
dot at the front of a path.
-/

namespace LoopClosure.Path

def isAbsolute (p : String) : Bool := p.toList.head? = some '/'

/-- A path that is relative to `base`. -/
def join (base p : String) : String :=
  if isAbsolute p || base = "" then p
  else if base.toList.getLast? = some '/' then base ++ p
  else base ++ "/" ++ p

def isVoid (part : List Char) : Bool := part = [] || part = ['.']

/-- The slash or the dot that a path begins with. -/
def front : List Char → List Char
  | '/' :: _ => ['/']
  | ['.'] => ['.']
  | '.' :: '/' :: _ => ['.']
  | _ => []

/-- The parts behind the front from the last to the first, without the void ones at the end. -/
def partsFromEnd (p : List Char) : List (List Char) :=
  (Text.splitOn '/' (p.drop (front p).length)).reverse.dropWhile isVoid

/-- The last part, if it is a name. -/
def fileName? (p : String) : Option String :=
  match partsFromEnd p.toList with
  | [] => none
  | part :: _ => if part = ['.', '.'] then none else some (String.ofList part)

/-- The path without its last part. -/
def parent? (p : String) : Option String :=
  let cs := p.toList
  match partsFromEnd cs with
  | [] => if front cs = ['.'] then some "" else none
  | _ :: parts =>
    some (String.ofList (front cs ++ ['/'].intercalate (parts.dropWhile isVoid).reverse))

end LoopClosure.Path
