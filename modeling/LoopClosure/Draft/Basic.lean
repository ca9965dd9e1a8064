import LoopClosure.Binding.Bind
import LoopClosure.Draft.Names
import LoopClosure.Edit

/-!
# Drafts

A draft is a bound unit together with the edits and the generated names of a change to it. What the
edits declare is declared in the scopes too.
-/

namespace LoopClosure

open Syntax

/-- A `var` that all who ask for one logical name and value share. -/
structure SharedVar where
  name : String
  value : String
  /-- Where it is declared. -/
  scope : Option ScopeId
  /-- The insertion in effect. -/
  edit : EditId
deriving DecidableEq, Repr

structure Draft where
  bound : Bound
  edits : Edits
  names : Names
  /-- By logical name. -/
  shared : List (String × SharedVar) := []
  /-- For a block and a temporary, the insertion that clears it. -/
  cleanups : List ((NodeId × String) × EditId) := []
deriving DecidableEq, Repr

namespace Draft

/-- A unit without a change. -/
def ofBound (b : Bound) : Draft where
  bound := b
  edits := { source := b.unit.source }
  names := { taken := b.identifiers }

def nodes (d : Draft) : Nodes := d.bound.nodes

def scopes (d : Draft) : Scopes := d.bound.scopes

def withScopes (d : Draft) (s : Scopes) : Draft := { d with bound := { d.bound with scopes := s } }

/-- A new name for a base. -/
def unique (d : Draft) (base : String) : Except Failure (Draft × String) := do
  let (names, name) ← d.names.unique base
  return ({ d with names }, name)

/-- The name for a key, the same each time. -/
def permanentName (d : Draft) (key : String) : Except Failure (Draft × String) := do
  let (names, name) ← d.names.permanentName key
  return ({ d with names }, name)

/-- Declares a generated `var`. -/
def declareVar (d : Draft) (scope : Option ScopeId) (name : String) : Except Failure Draft :=
  match d.scopes.declare scope name .var none none with
  | .ok (s, _) => .ok (d.withScopes s)
  | .error e => .error (.internal ("synthetic name " ++ e.name ++ " collides"))

/-! ## Edits of a draft -/

def replace (d : Draft) (start stop : Nat) (text : String) : Draft :=
  { d with edits := d.edits.replace start stop text }

def insert (d : Draft) (position : Nat) (text : String) : Draft :=
  { d with edits := d.edits.insert position text }

def insertBefore (d : Draft) (position : Nat) (text : String) : Draft :=
  { d with edits := d.edits.insertBefore position text }

def insertAfter (d : Draft) (position : Nat) (text : String) : Draft :=
  { d with edits := d.edits.insertAfter position text }

def apply (d : Draft) : Except Failure (List Char) :=
  d.edits.apply.mapError fun e => .internal e.message

end Draft

end LoopClosure
