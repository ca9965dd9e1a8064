import LoopClosure.Binding.Role
import LoopClosure.Binding.Unit
import LoopClosure.Scope.Scopes

/-!
# Building scopes

Nodes are entered in preorder. Entering one tells the scope that it and its children belong to; on
the way scopes are made, names declared and references noted.
-/

namespace LoopClosure.Binding

open Syntax

/-- What the value of an initializer or an assignment looks like. -/
def valueType (ns : Nodes) (value : Option NodeId) : ValueType :=
  match value.bind ns.form? with
  | none => .undefined
  | some (.literal .number _) => .number
  | some (.literal .string _) => .string
  | some (.literal .boolean _) => .boolean
  | some (.literal .null _) => .object
  | some (.literal .regExp _) => .regExp
  | some (.template _) => .string
  | some (.arrayLiteral _) => .array
  | some (.objectLiteral _) => .object
  | some (.classBody ..) => .class_
  | some (.catchClause ..) => .error
  | some (.function ..) => .function
  | some _ => .variant

structure Build where
  scopes : Scopes
  /-- Scopes of the nodes entered so far. -/
  nodeScopes : Array ScopeId := #[]
  references : Array NodeId := #[]
  /-- References that are written. -/
  writes : Array NodeId := #[]
deriving DecidableEq, Repr

/-- Declares what an identifier names. -/
def declareAt (u : CompilationUnit) (s : Scopes) (scope : ScopeId) (name : String)
    (kind : BindingKind) (ident : NodeId) (fromPos : Option Nat) :
    Except Failure (Scopes × Option ScopeId) :=
  match s.declare scope name kind ident fromPos with
  | .ok r => .ok r
  | .error d => .error (u.defectAt .duplicateConst ident d.name)

/-- Declares the names of several identifiers; each that has one is given the type. -/
def declareAll (u : CompilationUnit) (scope : ScopeId) (kind : BindingKind) (fromPos : Option Nat)
    (type : Option ValueType) : Scopes → List NodeId → Except Failure Scopes
  | s, [] => .ok s
  | s, ident :: idents =>
    match u.nodes.identifier? ident with
    | none => declareAll u scope kind fromPos type s idents
    | some name => do
      let (s, target) ← declareAt u s scope name kind ident fromPos
      let s :=
        match type with
        | some t => s.addType target name t
        | none => s
      declareAll u scope kind fromPos type s idents

def bindingKind : VarKeyword → BindingKind
  | .var => .var
  | .let_ => .let_
  | .const => .const

/-- Declares what a declarator binds. A block-scoped name may be used from the end of its declarator
on. -/
def declareDeclarator (u : CompilationUnit) (scope : ScopeId) (keyword : VarKeyword) (s : Scopes)
    (declarator : NodeId) : Except Failure Scopes :=
  match u.nodes.get? declarator with
  | some ⟨_, stop, .declarator target init, _⟩ =>
    if keyword = .var && u.options.disallowVars then
      .error (u.defectAt .disallowedVar declarator (", ".intercalate (u.nodes.bindingNames target)))
    else
      let kind := bindingKind keyword
      let single := (u.nodes.identifier? target).isSome
      declareAll u scope kind (if kind.isBlockScoped then some stop else none)
        (if single then some (valueType u.nodes init) else none) s (u.nodes.bindingIds target)
  | _ => .ok s

def declareDeclarators (u : CompilationUnit) (scope : ScopeId) (keyword : VarKeyword) :
    Scopes → List NodeId → Except Failure Scopes
  | s, [] => .ok s
  | s, d :: ds => do declareDeclarators u scope keyword (← declareDeclarator u scope keyword s d) ds

/-- Makes the scope of a function and declares its parameters. -/
def enterFunction (u : CompilationUnit) (s : Scopes) (id : NodeId) (scope : ScopeId)
    (params : List NodeId) (arrow : Bool) : Except Failure (Scopes × ScopeId) := do
  let (s, inner) := s.alloc .hoist id scope { function := true, arrow }
  let s ← declareAll u inner .param none none s (params.flatMap u.nodes.bindingIds)
  return (s, inner)

/-- Sets a flag on the nearest hoisting scope, and on outward through arrows, which share it. -/
def flagFunctions (s : Scopes) (flags : Flags) : Nat → Option ScopeId → Scopes
  | 0, _ => s
  | n + 1, scope =>
    match s.closestHoist? scope with
    | none => s
    | some hoist =>
      let s := s.addFlags hoist flags
      if (s.flags hoist).arrow then flagFunctions s flags n (s.parent? hoist) else s

def isLexical (u : CompilationUnit) (id : NodeId) : Bool :=
  match u.nodes.form? id with
  | some (.bindings keyword _) => keyword ≠ .var
  | _ => false

/-- Whether a block is the body of a function, whose scope it shares. -/
def isFunctionBody (u : CompilationUnit) (id : NodeId) : Bool :=
  match (u.nodes.parent? id).bind u.nodes.form? with
  | some (.function _ _ _ body _) => body = id
  | _ => false

/-- Enters a node that stands in `scope`. The answer holds the scope of the node itself. -/
def enterScopes (u : CompilationUnit) (s : Scopes) (id : NodeId) (scope : ScopeId)
    (form : Form NodeId) : Except Failure (Scopes × ScopeId) :=
  let blockWhen (own : Bool) : Scopes × ScopeId :=
    if own then s.alloc .block id scope {} else (s, scope)
  match form with
  | .program _ _ => .ok (s.alloc .hoist id scope {})
  | .function .declaration name params _ _ =>
    match name.bind fun n => (u.nodes.identifier? n).map (n, ·) with
    | some (ident, name) => do
      let (s, _) ← declareAt u s scope name .function ident none
      enterFunction u (s.addType scope name .function) id scope params false
    | none => enterFunction u s id scope params false
  | .function .expression name params _ _ => do
    let (s, inner) ← enterFunction u s id scope params false
    match name.bind fun n => (u.nodes.identifier? n).map (n, ·) with
    | some (ident, name) =>
      let (s, _) ← declareAt u s inner name .function ident none
      return (s.addType inner name .function, inner)
    | none => return (s, inner)
  | .function .arrow _ params _ _ => enterFunction u s id scope params true
  | .classBody .declaration name _ _ =>
    match name.bind fun n => (u.nodes.identifier? n).map (n, ·) with
    | some (ident, name) => do
      let (s, _) ←
        declareAt u s scope name .let_ ident ((u.nodes.get? ident).map (·.stop))
      return (s.addType scope name .class_).alloc .hoist id scope { class_ := true }
    | none => .ok (s.alloc .hoist id scope { class_ := true })
  | .classBody .expression name _ _ => do
    let (s, inner) := s.alloc .hoist id scope { class_ := true }
    match name.bind fun n => (u.nodes.identifier? n).map (n, ·) with
    | some (ident, name) =>
      let (s, _) ← declareAt u s inner name .const ident none
      return (s.addType inner name .class_, inner)
    | none => return (s, inner)
  | .bindings keyword declarators => do
    return (← declareDeclarators u scope keyword s declarators, scope)
  | .forLoop init _ _ _ => .ok (blockWhen ((init.map (isLexical u)).getD false))
  | .forEach _ left _ _ => .ok (blockWhen (isLexical u left))
  | .block _ => .ok (blockWhen !(isFunctionBody u id))
  | .switch _ _ => .ok (blockWhen true)
  | .catchClause param _ => do
    let (s, inner) := s.alloc .catches id scope {}
    let idents := (param.map u.nodes.bindingIds).getD []
    let s ← declareAll u inner .caught none (some .error) s idents
    -- A `var` of the same name, put into the hoisting scope, would be hidden by the caught one.
    let hoist := s.closestHoist? scope
    return ((idents.filterMap u.nodes.identifier?).foldl (fun s name => s.markPropagates hoist name) s,
      inner)
  | .this => .ok (flagFunctions s { usesThis := true } s.size scope, scope)
  | .identifier name =>
    if name = "arguments" && isReference u.nodes id then
      .ok (flagFunctions s { usesArguments := true } s.size scope, scope)
    else .ok (s, scope)
  | _ => .ok (s, scope)

/-- The scope of the globals. -/
def topScope : ScopeId := 0

/-- The scope of the program. -/
def programScope : ScopeId := 1

/-- Enters the node `id`, the next in preorder. -/
def enterNode (u : CompilationUnit) (b : Build) (id : NodeId) (n : Node) : Except Failure Build := do
  let scope := (n.parent.bind fun p => b.nodeScopes[p]?).getD topScope
  let (scopes, own) ← enterScopes u b.scopes id scope n.form
  let b := { b with scopes, nodeScopes := b.nodeScopes.push own }
  match n.form with
  | .identifier _ =>
    if isReference u.nodes id then
      return { b with
        references := b.references.push id
        writes := if role u.nodes id = .writes then b.writes.push id else b.writes }
    else return b
  | _ => return b

/-- Enters the nodes from number `id` on. -/
def enterNodes (u : CompilationUnit) : Build → NodeId → List Node → Except Failure Build
  | b, _, [] => .ok b
  | b, id, n :: ns => do enterNodes u (← enterNode u b id n) (id + 1) ns

end LoopClosure.Binding
