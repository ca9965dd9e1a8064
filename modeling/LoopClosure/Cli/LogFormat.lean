/-!
# Log formats
-/

namespace LoopClosure.Cli

inductive LogFormat where
  | text | tree | json
deriving DecidableEq, Repr

/-- The format of a name in any case; text for other names. -/
def LogFormat.ofName (name : String) : LogFormat :=
  let word := name.toLower
  if word = "tree" then .tree else if word = "json" then .json else .text

end LoopClosure.Cli
