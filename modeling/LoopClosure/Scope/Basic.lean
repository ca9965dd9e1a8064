import LoopClosure.Distinct
import LoopClosure.Syntax.Nodes

/-!
# Scopes

A scope holds the declarations of one region of a program. Hoisting scopes belong to programs,
functions, classes and wrapped loop bodies; block scopes hold `let` and `const` only; catch scopes
hold what a `catch` binds.
-/

namespace LoopClosure

open Syntax (NodeId)

abbrev ScopeId := Nat

inductive ScopeKind where
  | hoist | block | catches
deriving DecidableEq, Repr

inductive BindingKind where
  | param | var | let_ | const | caught | function
deriving DecidableEq, Repr

namespace BindingKind

def isBlockScoped : BindingKind → Bool
  | .let_ | .const => true
  | _ => false

/-- Declared in the nearest hoisting scope. -/
def isHoisted : BindingKind → Bool
  | .var | .function | .param => true
  | _ => false

end BindingKind

/-- What a value that a variable takes looks like. -/
inductive ValueType where
  | undefined | number | string | boolean | object | array | function | regExp | class_ | error
  | variant
deriving DecidableEq, Repr

structure Flags where
  /-- A function, method or arrow. -/
  function : Bool := false
  arrow : Bool := false
  class_ : Bool := false
  /-- The function that a loop body was wrapped into. -/
  loopWrapper : Bool := false
  /-- The scope of the globals. -/
  top : Bool := false
  usesThis : Bool := false
  usesArguments : Bool := false
deriving DecidableEq, Repr

def Flags.union (a b : Flags) : Flags where
  function := a.function || b.function
  arrow := a.arrow || b.arrow
  class_ := a.class_ || b.class_
  loopWrapper := a.loopWrapper || b.loopWrapper
  top := a.top || b.top
  usesThis := a.usesThis || b.usesThis
  usesArguments := a.usesArguments || b.usesArguments

structure Declaration where
  kind : BindingKind
  /-- The identifier that binds; none for globals and generated names. -/
  node : Option NodeId
  /-- From where on a block-scoped name may be used. -/
  fromPos : Option Nat
  /-- In the order found, without repetition. -/
  types : List ValueType := []
  isGlobal : Bool := false
  /-- Used from another hoisting scope. -/
  captured : Bool := false
deriving DecidableEq, Repr

def Declaration.addType (d : Declaration) (t : ValueType) : Declaration :=
  { d with types := appendNew d.types t }

structure Scope where
  kind : ScopeKind
  /-- The node that the scope belongs to; none for the scope of the globals. -/
  node : Option NodeId
  parent : Option ScopeId
  children : List ScopeId := []
  flags : Flags := {}
  /-- In the order declared. -/
  declarations : List (String × Declaration) := []
  /-- For each own name, where it is used. -/
  references : List (String × List NodeId) := []
  /-- Names of outer scopes that are used below. -/
  propagates : List String := []
  /-- Temporaries given back, each with the position from which it is free. -/
  freeTemps : List (String × Nat) := []
deriving DecidableEq, Repr

namespace Scope

def isHoist (s : Scope) : Bool := s.kind = .hoist

def declaration? (s : Scope) (name : String) : Option Declaration := s.declarations.lookup name

def declares (s : Scope) (name : String) : Bool := (s.declaration? name).isSome

def referencesTo (s : Scope) (name : String) : List NodeId := (s.references.lookup name).getD []

def remove (s : Scope) (name : String) : Scope :=
  { s with declarations := s.declarations.filter (·.1 ≠ name) }

/-- Puts a declaration behind the others. -/
def append (s : Scope) (name : String) (d : Declaration) : Scope :=
  { s with declarations := s.declarations ++ [(name, d)] }

def modify (s : Scope) (name : String) (f : Declaration → Declaration) : Scope :=
  { s with declarations := s.declarations.map fun e => if e.1 = name then (e.1, f e.2) else e }

def addReference (s : Scope) (name : String) (id : NodeId) : Scope :=
  if s.references.any (·.1 = name) then
    { s with
      references := s.references.map fun e => if e.1 = name then (e.1, e.2 ++ [id]) else e }
  else { s with references := s.references ++ [(name, [id])] }

def dropReferences (s : Scope) (name : String) : Scope :=
  { s with references := s.references.filter (·.1 ≠ name) }

def propagate (s : Scope) (name : String) : Scope :=
  { s with propagates := appendNew s.propagates name }

end Scope

end LoopClosure
