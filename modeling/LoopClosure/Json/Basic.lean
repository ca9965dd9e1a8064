import LoopClosure.Text.Cursor

/-!
# JSON values
-/

namespace LoopClosure

/-- A JSON value. A number keeps its spelling, and an object the order of its members, repeated
names included. The grammar also lets a string spell half of a UTF-16 pair, which is no text: such a
string, or an object with such a name, is `textless`. It may be passed over but not read. -/
inductive Json where
  | null
  | bool (b : Bool)
  | number (spelling : String)
  | string (s : String)
  | array (items : List Json)
  | object (members : List (String × Json))
  | textless
deriving Repr

namespace Json

def nat (n : Nat) : Json := .number (toString n)

/-- The members of that name, in order. -/
def membersNamed (members : List (String × Json)) (name : String) : List Json :=
  members.filterMap fun m => if m.1 = name then some m.2 else none

/-- The first member of that name. -/
def get? : Json → String → Option Json
  | .object members, name => members.lookup name
  | _, _ => none

def string? : Json → Option String
  | .string s => some s
  | _ => none

def bool? : Json → Option Bool
  | .bool b => some b
  | _ => none

def array? : Json → Option (List Json)
  | .array items => some items
  | _ => none

def nat? : Json → Option Nat
  | .number spelling => spelling.toNat?
  | _ => none

end Json

end LoopClosure
