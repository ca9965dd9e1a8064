import LoopClosure.Syntax.Nodes

/-!
# Roles of identifiers

An identifier is a mere name (a label, a property, what a function is called), it binds, or it
refers to a binding, to read or to write it.
-/

namespace LoopClosure.Binding

open Syntax

/-- What an identifier in the place of an expression or target does. -/
inductive Role where
  | binds | writes | reads
deriving DecidableEq, Repr

/-- Whether a parenthesized expression, or one around it, is a whole assignment target. -/
def isWrittenWithin (ns : Nodes) : Nat → NodeId → Bool
  | 0, _ => false
  | n + 1, id =>
    match ns.parent? id with
    | none => false
    | some parent =>
      match ns.form? parent with
      | some (.parenthesized _) => isWrittenWithin ns n parent
      | some (.assignment _ left _) => left = id
      | some (.update _ _ argument) => argument = id
      | some (.forEach _ left _ _) => left = id
      | _ => false

def isWritten (ns : Nodes) (id : NodeId) : Bool := isWrittenWithin ns maxClimb id

/-- The role of a node, told by the patterns around it. -/
def roleWithin (ns : Nodes) : Nat → NodeId → Role
  | 0, _ => .reads
  | n + 1, id =>
    match ns.parent? id with
    | none => .reads
    | some parent =>
      match ns.form? parent with
      | some (.arrayPattern _) | some (.objectPattern _) | some (.rest _) => roleWithin ns n parent
      | some (.property _ value _ _) =>
        if value = id then
          match (ns.parent? parent).bind ns.form? with
          | some (.objectPattern _) => roleWithin ns n parent
          | _ => .reads
        else .reads
      | some (.assignmentPattern left _) => if left = id then roleWithin ns n parent else .reads
      | some (.parenthesized _) => if isWritten ns parent then roleWithin ns n parent else .reads
      | some (.declarator target _) => if target = id then .binds else .reads
      | some (.catchClause param _) => if param = some id then .binds else .reads
      | some (.function _ _ params _ _) => if id ∈ params then .binds else .reads
      | some (.assignment _ left _) => if left = id then .writes else .reads
      | some (.update _ _ argument) => if argument = id then .writes else .reads
      | some (.forEach _ left _ _) => if left = id then .writes else .reads
      | _ => .reads

def role (ns : Nodes) (id : NodeId) : Role := roleWithin ns maxClimb id

/-- Whether an identifier refers to a binding. -/
def isReference (ns : Nodes) (id : NodeId) : Bool :=
  match (ns.parent? id).bind ns.form? with
  | some (.member _ key computed _) => computed || key ≠ id
  | some (.property key _ _ traits) => (key ≠ id || traits.computed) && role ns id ≠ .binds
  | some (.method key _ _ _ computed) => (key ≠ id || computed) && role ns id ≠ .binds
  | some (.field key _ _ computed) => (key ≠ id || computed) && role ns id ≠ .binds
  | some (.labeled label _) => label ≠ id && role ns id ≠ .binds
  | some (.jump _ _) => false
  | some (.function _ name _ _ _) => name ≠ some id && role ns id ≠ .binds
  | some (.classBody _ name _ _) => name ≠ some id && role ns id ≠ .binds
  | _ => role ns id ≠ .binds

end LoopClosure.Binding
