import LoopClosure.Binding.Bind

/-!
# Wrapped loops

The body of a wrapped loop becomes a function that is called on the spot. Its scope is a hoisting
scope; names that the head of a `for`-`in` or `for`-`of` loop binds are its parameters.
-/

namespace LoopClosure

open Syntax

structure Wrap where
  loop : NodeId
  body : NodeId
  /-- The body is a block, not a single statement. -/
  blockBody : Bool
  params : List String
  /-- The scope of the function. -/
  scope : ScopeId
deriving DecidableEq, Repr

/-- The names that a `let` or `const` in the head of a `for`-`in` or `for`-`of` loop binds. -/
def Syntax.Nodes.headerNames (ns : Nodes) (loop : NodeId) : List String :=
  match ns.form? loop with
  | some (.forEach _ left _ _) =>
    match ns.form? left with
    | some (.bindings .var _) => []
    | some (.bindings _ declarators) =>
      declarators.flatMap fun d =>
        match ns.form? d with
        | some (.declarator target _) => ns.bindingNames target
        | _ => []
    | _ => []
  | _ => []

namespace Bound

def withScopes (b : Bound) (s : Scopes) : Bound := { b with scopes := s }

/-- Gives a single-statement body a hoisting scope of its own, with all that lies in the body. -/
def splitBody (b : Bound) (body : NodeId) (outer : ScopeId) : Bound × ScopeId :=
  let (s, scope) := b.scopes.alloc .hoist body outer { loopWrapper := true }
  let moved := (((s.get? outer).map (·.children)).getD []).filter fun (child : ScopeId) =>
    child ≠ scope && ((s.node? child).map (b.nodes.contains body)).getD false
  let s := moved.foldl (fun s child => s.reparent child scope) s
  let nodeScopes := (b.nodes.subtree body).foldl
    (fun table id => if table[id]? = some outer then table.setIfInBounds id scope else table)
    b.nodeScopes
  ({ b with scopes := s, nodeScopes }, scope)

/-- Makes the scope of a body a hoisting scope. -/
def openBody (b : Bound) (body : NodeId) (blockBody : Bool) (scope : ScopeId) : Bound × ScopeId :=
  if blockBody then
    (b.withScopes ((b.scopes.setKind scope .hoist).addFlags scope { loopWrapper := true }), scope)
  else b.splitBody body scope

/-- Lets a reference resolve to another scope. -/
def retarget (b : Bound) (ident : NodeId) (scope : ScopeId) : Bound :=
  { b with resolved := b.resolved.modify ident (·.map fun r => { r with scope }) }

/-- Lets the references to a name of the head that lie in the body resolve to the parameter. -/
def retargetHeader (b : Bound) (header : Option ScopeId) (scope : ScopeId) (body : NodeId)
    (name : String) : Bound :=
  let (s, idents) := b.scopes.takeReferences header name
  idents.foldl
    (fun b ident =>
      if b.nodes.contains body ident then
        (b.retarget ident scope).withScopes (b.scopes.addReference scope name ident)
      else b.withScopes (b.scopes.addReference header name ident))
    (b.withScopes s)

/-- Declares the names of the head as parameters, except those that the body declares itself. -/
def addParams (header : Option ScopeId) (scope : ScopeId) (body : NodeId) :
    Bound → List String → Except Failure (Bound × List String)
  | b, [] => .ok (b, [])
  | b, name :: names =>
    if ((b.scopes.get? scope).map (·.declares name)).getD false then
      addParams header scope body b names
    else
      match b.scopes.declare scope name .param none none with
      | .error e => .error (.internal ("loop parameter " ++ e.name ++ " collides"))
      | .ok (s, _) => do
        let (b, params) ← addParams header scope body
          ((b.withScopes s).retargetHeader header scope body name) names
        return (b, name :: params)

/-- Turns the body of a loop into a function. -/
def wrap (b : Bound) (loop body : NodeId) : Except Failure (Bound × Wrap) :=
  match b.nodeScope? body with
  | none => .error (.internal "wrapped loop body is missing")
  | some outer => do
    let blockBody := ((b.nodes.form? body).map (·.isBlock)).getD false
    let header := b.nodeScope? loop
    let (b, scope) := b.openBody body blockBody outer
    let (b, params) ← addParams header scope body b (b.nodes.headerNames loop)
    return (b, { loop, body, blockBody, params, scope })

end Bound

end LoopClosure
