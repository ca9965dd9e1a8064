import LoopClosure.Binding.Build

/-!
# Resolving references

Each reference is looked up from its scope outward, in source order; the first that breaks a rule
ends the binding.
-/

namespace LoopClosure.Binding

open Syntax

/-- What a reference refers to. -/
structure Resolution where
  /-- Where the binding is declared. -/
  scope : ScopeId
  /-- The identifier that binds; none for globals. -/
  declaration : Option NodeId
  /-- The reference lies in another hoisting scope than the binding. -/
  captured : Bool
deriving DecidableEq, Repr

structure Resolving where
  scopes : Scopes
  /-- By node. -/
  resolved : Array (Option Resolution)
deriving DecidableEq, Repr

/-- Notes that a name passes through the hoisting scopes between a reference and its binding. -/
def markPassage (s : Scopes) (inner : Option ScopeId) (outer : ScopeId) (name : String) : Scopes :=
  (((s.walk inner).takeWhile (· ≠ outer)).filter fun (id : ScopeId) => s.kind? id = some .hoist).foldl
    (fun s (id : ScopeId) => s.markPropagates id name) s

/-- The value of an assignment `ident = value`. -/
def assignedValue? (ns : Nodes) (ident : NodeId) : Option NodeId :=
  match (ns.parent? ident).bind ns.form? with
  | some (.assignment (.punct .equals) left right) => if left = ident then some right else none
  | _ => none

/-- Resolves the reference `ident`. -/
def resolveReference (u : CompilationUnit) (b : Build) (r : Resolving) (ident : NodeId) :
    Except Failure Resolving :=
  match u.nodes.get? ident with
  | some ⟨start, _, .identifier name, _⟩ =>
    let inner := b.nodeScopes[ident]?
    match r.scopes.lookup? inner name with
    | none =>
      if u.options.disallowUnknownReferences then
        .error (u.defectAt .unresolvedReference ident name)
      else .ok r
    | some target =>
      let s := r.scopes.addReference target name ident
      match s.declaration? target name with
      | none => .ok { r with scopes := s }
      | some d =>
        let early := (d.fromPos.map fun first => decide (start < first)).getD false
        if d.kind.isBlockScoped && !d.isGlobal && early && !s.hasFunctionBetween inner target then
          .error (u.defectAt .useBeforeDeclaration ident name)
        else
          let captured := s.closestHoist? inner ≠ s.closestHoist? target
          let s :=
            if captured then
              let s := s.modify target name fun d => { d with captured := true }
              markPassage s inner target name
            else s
          let written := b.writes.contains ident
          if written && d.kind = .const then .error (u.defectAt .assignToConst ident name)
          else
            let s :=
              match if written then assignedValue? u.nodes ident else none with
              | some value => s.addType target name (valueType u.nodes (some value))
              | none => s
            .ok ⟨s, r.resolved.setIfInBounds ident (some ⟨target, d.node, captured⟩)⟩
  | _ => .ok r

def resolveAll (u : CompilationUnit) (b : Build) : Resolving → List NodeId → Except Failure Resolving
  | r, [] => .ok r
  | r, ident :: idents => do resolveAll u b (← resolveReference u b r ident) idents

end LoopClosure.Binding
