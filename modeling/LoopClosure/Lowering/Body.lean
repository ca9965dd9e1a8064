import LoopClosure.Lowering.Basic
import LoopClosure.Lowering.Site

/-!
# Bodies that become functions

What a body says must mean the same in the function that it becomes. Jumps and returns raise flags,
`this` and `arguments` become variables that the function around initializes, and `var` loses its
keyword, since its names are declared in front of the outermost call.
-/

namespace LoopClosure.Lowering

open Syntax

/-! ## Jumps and returns -/

def adaptJump (i : Nat) (l : Lowering) (site : NodeId) : Except Failure Lowering :=
  match l.nodes.get? site with
  | some ⟨start, stop, .jump kind label, _⟩ =>
    match Relay.ofJump? kind (label.bind l.nodes.identifier?) with
    | none => .ok (l.replace start stop "return;")
    | some r => do
      let (l, flag) ← l.permanentName r.flagKey
      return (l.replace start stop (raiseText flag)).addRelay i r
  | _ => .ok l

def adaptReturn (i : Nat) (l : Lowering) (site : NodeId) : Except Failure Lowering :=
  match l.nodes.get? site with
  | some ⟨start, stop, .returns argument, _⟩ =>
    match argument.bind l.nodes.get? with
    | none => do
      let (l, flag) ← l.permanentName Relay.returnVoid.flagKey
      return (l.replace start stop (raiseText flag)).addRelay i .returnVoid
    | some a => do
      let r := Relay.ofArgument a.form
      let (l, flag) ← l.permanentName r.flagKey
      let l := l.replace start a.start ("\x7b" ++ flag ++ " = true;return ")
      return (l.insertAfter stop "\x7d").addRelay i r
  | _ => .ok l

/-! ## Aliases -/

/-- Where an alias is declared, searched along the way up from a wrapped body; `arrow` is the last
arrow with a block for a body that was passed. A class that is reached through no arrow has no
place. -/
def aliasScopeAmong (b : Bound) : Option ScopeId → List ScopeId → Option ScopeId
  | _, [] => some Binding.programScope
  | arrow, id :: ids =>
    match b.scopes.get? id with
    | none => aliasScopeAmong b arrow ids
    | some s =>
      if !s.isHoist || s.flags.loopWrapper then aliasScopeAmong b arrow ids
      else if s.flags.arrow then
        let hasBlock :=
          match s.node.bind b.nodes.form? with
          | some (.function _ _ _ _ traits) => !traits.concise
          | _ => false
        aliasScopeAmong b (if hasBlock then some id else arrow) ids
      else if s.flags.class_ then arrow
      else some id

/-- The scope that provides `this` and `arguments` to a scope: that of a function or of the program,
or below a class the outermost arrow that can hold a declaration. -/
def aliasScope? (b : Bound) (scope : ScopeId) : Option ScopeId :=
  aliasScopeAmong b none (b.scopes.walk scope)

def isDirective (ns : Nodes) (statement : NodeId) : Bool :=
  match ns.form? statement with
  | some (.expression e) =>
    match ns.form? e with
    | some (.literal .string _) => true
    | _ => false
  | _ => false

/-- The end of the directives that statements begin with; `start` if there are none. -/
def directivesEnd (ns : Nodes) (start : Nat) (statements : List NodeId) : Nat :=
  match (statements.takeWhile (isDirective ns)).getLast?.bind ns.get? with
  | some n => n.stop
  | none => start

/-- Where declarations in a program or function go: behind its directives. -/
def bodyStart (b : Bound) (scope : ScopeId) : Nat :=
  match (b.scopes.node? scope).bind b.nodes.form? with
  | some (.program statements _) => directivesEnd b.nodes 0 statements
  | some (.function _ _ _ body _) =>
    match b.nodes.get? body with
    | some ⟨start, _, .block statements, _⟩ => directivesEnd b.nodes (start + 1) statements
    | some n => n.start
    | none => 0
  | _ => 0

/-- The variable that holds the value of a keyword for a wrapped body, declared once in the scope
that provides it. -/
def aliasFor (a : Alias) (scope : ScopeId) (site : NodeId) (l : Lowering) :
    Except Failure (Lowering × String) :=
  match aliasScope? l.bound scope with
  | none => .error (l.bound.unit.defectAt .loopClosureNotTransformable site a.keyword)
  | some target => do
    let (l, name) ← l.permanentName a.key
    if l.aliases.contains (target, a) then return (l, name)
    else
      let l := { l with aliases := (target, a) :: l.aliases }
      let l := l.insertAfter (bodyStart l.bound target)
        ("var " ++ name ++ " = " ++ a.keyword ++ ";")
      return (← l.declare target name, name)

/-- Puts a variable for each of the sites of a keyword. -/
def adaptAlias (a : Alias) (scope : ScopeId) (l : Lowering) (sites : List NodeId) :
    Except Failure Lowering :=
  match sites with
  | [] => .ok l
  | first :: _ => do
    let (l, name) ← l.aliasFor a scope first
    return sites.foldl
      (fun l site =>
        match l.nodes.get? site with
        | some n => l.replace n.start n.stop name
        | none => l) l

/-! ## Declarations -/

/-- What stands for the keyword of a declaration: in the head of a loop nothing; in a list of
statements a semicolon, which keeps the statement before from running on. -/
inductive VarPlace where
  | header | listed | single
deriving DecidableEq, Repr

def varPlace (ns : Nodes) (declaration : NodeId) : VarPlace :=
  match (ns.parent? declaration).bind ns.form? with
  | some (.forLoop init _ _ _) => if init = some declaration then .header else .single
  | some (.forEach _ left _ _) => if left = declaration then .header else .single
  | some (.program ..) | some (.block _) | some (.switchCase ..) => .listed
  | _ => .single

/-- Takes the keyword from a declaration. An object pattern at its front is put in parentheses,
since an opening brace would begin a block. -/
def stripVar (root : Nat) (l : Lowering) (site : NodeId) : Lowering :=
  match l.nodes.get? site with
  | some ⟨start, stop, .bindings _ declarators, _⟩ =>
    let targets := declarators.filterMap fun d =>
      match l.nodes.get? d with
      | some ⟨_, stop, .declarator target _, _⟩ => some (target, stop)
      | _ => none
    let l := l.addDeclared root (targets.flatMap fun t => l.nodes.bindingNames t.1)
    let keywordEnd := start + 3
    let place := varPlace l.nodes site
    let instead := if place = .listed then ";" else ""
    let isPattern :=
      match targets.head?.bind fun t => l.nodes.form? t.1 with
      | some (.objectPattern _) => true
      | _ => false
    if isPattern && place ≠ .header then
      let last := (targets.getLast?.map (·.2)).getD stop
      (l.replace start keywordEnd (instead ++ "(")).insertAfter last ")"
    else l.replace start keywordEnd instead
  | _ => l

/-! ## A whole body -/

/-- Adapts the body of wrap `i`. -/
def adaptBody (l : Lowering) (i : Nat) : Except Failure Lowering :=
  match l.wraps[i]? with
  | none => .ok l
  | some w => do
    let sites := l.bound.sites l.isWrappedBody w.body
    let only (kind : SiteKind) : List NodeId := (sites.filter (·.1 = kind)).map (·.2)
    let l ← (only .jump).foldlM (adaptJump i) l
    let l ← (only .returns).foldlM (adaptReturn i) l
    let l ← l.adaptAlias .this w.scope (only .this)
    let l ← l.adaptAlias .arguments w.scope (only .arguments)
    return (only .var).foldl (stripVar (l.outermost i)) l

end LoopClosure.Lowering
