import LoopClosure.Binding.Resolve
import LoopClosure.Comment
import LoopClosure.Scope.Globals
import LoopClosure.Syntax.Name

/-!
# Binding

From a parsed unit to its scopes, with every reference resolved: globals are declared in a scope of
their own, scopes are built in one pass over the tree, and references are resolved in a second.
-/

namespace LoopClosure

open Syntax Binding

/-- A unit with its scopes. -/
structure Bound where
  unit : CompilationUnit
  scopes : Scopes
  /-- Scope of each node. -/
  nodeScopes : Array ScopeId
  /-- References in source order. -/
  references : List NodeId
  writes : Array NodeId
  /-- What references refer to, by node. -/
  resolved : Array (Option Resolution)
  /-- Names that occur in the unit, without repetition. -/
  identifiers : List String
deriving DecidableEq, Repr

namespace Bound

def nodes (b : Bound) : Nodes := b.unit.nodes

def nodeScope? (b : Bound) (id : NodeId) : Option ScopeId := b.nodeScopes[id]?

def resolution? (b : Bound) (id : NodeId) : Option Resolution := (b.resolved[id]?).join

end Bound

namespace Binding

def addTable (s : Scopes) (table : List (String × Bool)) : Scopes :=
  table.foldl (fun s e => s.addGlobal topScope e.1 (if e.2 then .var else .const) none) s

def addEnvironments (u : CompilationUnit) : Scopes → List String → Except Failure Scopes
  | s, [] => .ok s
  | s, name :: names =>
    match Globals.environment? name with
    | some table => addEnvironments u (addTable s table) names
    | none => .error (.defect (.ofDefect .unknownEnvironment u.file 0 0 0 name))

/-- Globals that the block comments of a program list, each with the end of its comment. -/
def commentGlobals (source : List Char) (comments : List Comment) : List (String × Bool × Nat) :=
  (comments.filter (·.block)).flatMap fun c =>
    ((Comment.globals? (c.value source)).getD []).map fun (name, writable) =>
      (name, writable, c.stop)

/-- The scope of the globals, without those of comments. -/
def environment (u : CompilationUnit) : Except Failure Scopes := do
  let (s, _) := Scopes.alloc {} .hoist none none { top := true }
  let s ← addEnvironments u (Globals.always.foldl addTable s) u.options.environments
  return addTable s u.options.globals

end Binding

/-- Binds a unit whose program is the node `root`. -/
def bind (u : CompilationUnit) (root : NodeId := Nodes.root) : Except Failure Bound :=
  match u.nodes.form? root with
  | some (.program _ comments) => do
    let scopes ← environment u
    let b ← enterNodes u { scopes } 0 u.nodes.table.toList
    let listed := commentGlobals u.source comments
    let scopes := listed.foldl
      (fun s (name, writable, stop) =>
        s.addGlobal topScope name (if writable then .let_ else .const) (some stop)) b.scopes
    let r ← resolveAll u b ⟨scopes, .replicate u.nodes.size none⟩ b.references.toList
    let names := u.nodes.table.toList.filterMap fun n =>
      match n.form with
      | .identifier name => some name
      | _ => none
    return {
      unit := u
      scopes := r.scopes
      nodeScopes := b.nodeScopes
      references := b.references.toList
      writes := b.writes
      resolved := r.resolved
      identifiers := (names ++ u.options.globals.map (·.1) ++ listed.map (·.1)).foldl appendNew [] }
  | other =>
    .error (.internal ("bind_program expects a Program node, got " ++ (other.map (·.name)).getD "<none>"))

end LoopClosure
