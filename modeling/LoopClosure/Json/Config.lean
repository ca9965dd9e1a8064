import LoopClosure.Json.Comments
import LoopClosure.Json.Options
import LoopClosure.Json.Read
import LoopClosure.Text.Split

/-!
# Configuration files
-/

namespace LoopClosure

/-- What a configuration says; every part may be left out. -/
structure Config where
  disallowVars : Option Bool := none
  disallowUnknownReferences : Option Bool := none
  environments : Option (List String) := none
  globals : Option (List (String × Bool)) := none
  loopClosures : Option ClosureMode := none
  files : Option (List String) := none
  outDir : Option String := none
deriving DecidableEq, Repr

namespace Config

def fields : List String :=
  ["disallowVars", "disallowUnknownReferences", "environments", "globals", "loopClosures", "files",
   "outDir"]

/-- A truth value by name, in any case and with white space around it. -/
def truth? (s : String) : Option Bool :=
  let word := (String.ofList (Text.trim s.toList)).toLower
  if word ∈ ["true", "1", "yes", "on"] then some true
  else if word ∈ ["false", "0", "no", "off"] then some false
  else none

def boolean? : Json → Option Bool
  | .bool b => some b
  | .string s => truth? s
  | _ => none

/-- Reads a field that is given and not `null`. -/
def field? {α : Type} (given : List (String × Json)) (name : String) (item : Json → Option α) :
    Option (Option α) :=
  match given.lookup name with
  | none | some .null => some none
  | some v => (item v).map some

/-- The configuration that a record gives. -/
def ofJson? (j : Json) : Option Config := do
  let given ← j.record? fields false
  return {
    disallowVars := ← field? given "disallowVars" boolean?
    disallowUnknownReferences := ← field? given "disallowUnknownReferences" boolean?
    environments := ← field? given "environments" (Json.listOf? Json.string?)
    globals := ← field? given "globals" Json.globals?
    loopClosures := ← field? given "loopClosures" Json.closureMode?
    files := ← field? given "files" (Json.listOf? Json.string?)
    outDir := ← field? given "outDir" Json.string? }

/-- Reads a configuration, which may hold comments and trailing commas. -/
def read? (text : List Char) : Option Config :=
  (Json.read? (Json.dropTrailingCommas (Json.stripComments text))).bind ofJson?

end Config

end LoopClosure
