import LoopClosure.Json.Basic
import LoopClosure.Options

/-!
# Records and options in JSON

A record is an object whose member names are the fields; a field may be left out but not repeated.
The values may also stand in an array, in the order of the fields.
-/

namespace LoopClosure

namespace Json

/-- The values given for some of the fields, or `none` if it is no record. Other members are refused
unless `lenient` is set. -/
def record? (fields : List String) (lenient : Bool) : Json → Option (List (String × Json))
  | .array items =>
    if items.length ≤ fields.length then some (fields.zip items) else none
  | .object members =>
    if fields.all (fun f => (membersNamed members f).length ≤ 1) &&
        (lenient || members.all fun m => m.1 ∈ fields) then
      some (members.filter fun m => m.1 ∈ fields)
    else none
  | _ => none

def listOf? {α : Type} (item : Json → Option α) : Json → Option (List α)
  | .array items => items.mapM item
  | _ => none

/-- An object of booleans. The last value of a repeated name counts, in its first place. -/
def globals? : Json → Option (List (String × Bool))
  | .object members =>
    (members.mapM fun (m : String × Json) => m.2.bool?.map (m.1, ·)).map
      (·.foldl (fun entries e => insertEntry entries e.1 e.2) [])
  | _ => none

/-- A mode by its name, which may also be the one member of an object, with `null`. -/
def closureMode? : Json → Option ClosureMode
  | .string "iife" => some .iife
  | .string "error" => some .error
  | .object [("iife", .null)] => some .iife
  | .object [("error", .null)] => some .error
  | _ => none

/-- Reads a field with `item` if it is given, and takes the default if not. -/
def fieldOr {α : Type} (given : List (String × Json)) (name : String) (item : Json → Option α)
    (default : α) : Option α :=
  match given.lookup name with
  | some v => item v
  | none => some default

end Json

namespace Options

def fields : List String :=
  ["disallowVars", "disallowUnknownReferences", "environments", "globals", "loopClosures"]

/-- The options that a record gives. Other members are passed over. -/
def ofJson? (j : Json) : Option Options := do
  let given ← j.record? fields true
  return {
    disallowVars := ← Json.fieldOr given "disallowVars" Json.bool? false
    disallowUnknownReferences := ← Json.fieldOr given "disallowUnknownReferences" Json.bool? false
    environments := ← Json.fieldOr given "environments" (Json.listOf? Json.string?) []
    globals := ← Json.fieldOr given "globals" Json.globals? []
    loopClosures := ← Json.fieldOr given "loopClosures" Json.closureMode? .iife }

def modeName : ClosureMode → String
  | .iife => "iife"
  | .error => "error"

def toJson (o : Options) : Json :=
  .object [
    ("disallowVars", .bool o.disallowVars),
    ("disallowUnknownReferences", .bool o.disallowUnknownReferences),
    ("environments", .array (o.environments.map .string)),
    ("globals", .object (o.globals.map fun (name, writable) => (name, .bool writable))),
    ("loopClosures", .string (modeName o.loopClosures))]

end Options

end LoopClosure
