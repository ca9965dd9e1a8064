import LoopClosure.Comment
import LoopClosure.Token.Kind

/-!
# Node forms

`Form α` is one node of the tree with `α` for each child. Children are listed in source order;
`children`, `mapIdx` and `map` are the view through which the rest of the library goes over them.
-/

namespace LoopClosure.Syntax

inductive VarKeyword where
  | var | let_ | const
deriving DecidableEq, Repr

def VarKeyword.text : VarKeyword → String
  | .var => "var"
  | .let_ => "let"
  | .const => "const"

inductive FunctionPlace where
  | declaration | expression | arrow
deriving DecidableEq, Repr

inductive ClassPlace where
  | declaration | expression
deriving DecidableEq, Repr

structure FunctionTraits where
  isAsync : Bool := false
  isGenerator : Bool := false
  /-- An arrow with an expression for a body. -/
  concise : Bool := false
deriving DecidableEq, Repr

inductive MethodRole where
  | method | constructor | getter | setter
deriving DecidableEq, Repr

inductive PropertyRole where
  | init | getter | setter
deriving DecidableEq, Repr

structure PropertyTraits where
  computed : Bool := false
  shorthand : Bool := false
  method : Bool := false
deriving DecidableEq, Repr

/-- What a loop over a collection binds: its keys (`in`) or its values (`of`). -/
inductive Iteration where
  | keys | values
deriving DecidableEq, Repr

/-- A `continue` or a `break`. -/
inductive JumpKind where
  | toNext | toEnd
deriving DecidableEq, Repr

inductive LiteralKind where
  | number | string | boolean | null | regExp
deriving DecidableEq, Repr

/-- One node with `α` for each child. `function` spans declarations, expressions and arrows, and
`classBody` both places of a class; a `property` in short form has two equal children. -/
inductive Form (α : Type) where
  | program (statements : List α) (comments : List Comment)
  | bindings (keyword : VarKeyword) (declarators : List α)
  | declarator (target : α) (init : Option α)
  | function (place : FunctionPlace) (name : Option α) (params : List α) (body : α) (traits : FunctionTraits)
  | classBody (place : ClassPlace) (name : Option α) (heritage : Option α) (members : List α)
  | method (key : α) (value : α) (role : MethodRole) (isStatic : Bool) (computed : Bool)
  | field (key : α) (value : Option α) (isStatic : Bool) (computed : Bool)
  | block (statements : List α)
  | empty
  | debugger
  | expression (value : α)
  | ifElse (test : α) (consequent : α) (alternate : Option α)
  | forLoop (init : Option α) (test : Option α) (step : Option α) (body : α)
  | forEach (each : Iteration) (left : α) (right : α) (body : α)
  | whileLoop (test : α) (body : α)
  | doWhile (body : α) (test : α)
  | returns (argument : Option α)
  | jump (kind : JumpKind) (label : Option α)
  | throws (argument : α)
  | tryCatch (body : α) (handler : Option α) (finalizer : Option α)
  | catchClause (param : Option α) (body : α)
  | switch (discriminant : α) (cases : List α)
  | switchCase (test : Option α) (consequent : List α)
  | labeled (label : α) (body : α)
  | withObject (object : α) (body : α)
  | identifier (name : String)
  | this
  | super
  | literal (kind : LiteralKind) (raw : String)
  | template (expressions : List α)
  | taggedTemplate (tag : α) (quasi : α)
  | arrayLiteral (elements : List (Option α))
  | objectLiteral (properties : List α)
  | property (key : α) (value : α) (role : PropertyRole) (traits : PropertyTraits)
  | spread (argument : α)
  | member (object : α) (key : α) (computed : Bool) (optional : Bool)
  | call (callee : α) (arguments : List α) (optional : Bool)
  | new (callee : α) (arguments : List α)
  | unary (operator : Token.Kind) (argument : α)
  | update (operator : Token.Kind) (before : Bool) (argument : α)
  | binary (operator : Token.Kind) (left : α) (right : α)
  | assignment (operator : Token.Kind) (left : α) (right : α)
  | conditional (test : α) (consequent : α) (alternate : α)
  | sequence (expressions : List α)
  | parenthesized (value : α)
  | yield (argument : Option α) (delegate : Bool)
  | await (argument : α)
  | arrayPattern (elements : List (Option α))
  | objectPattern (properties : List α)
  | assignmentPattern (left : α) (right : α)
  | rest (argument : α)
deriving DecidableEq, Repr

namespace Form

variable {α β γ : Type}

/-- Children in source order; holes of an array and absent parts have none. -/
def children : Form α → List α
  | .program statements _ => statements
  | .bindings _ declarators => declarators
  | .declarator target init => [target] ++ init.toList
  | .function _ name params body _ => name.toList ++ params ++ [body]
  | .classBody _ name heritage members => name.toList ++ heritage.toList ++ members
  | .method key value _ _ _ => [key, value]
  | .field key value _ _ => [key] ++ value.toList
  | .block statements => statements
  | .empty => []
  | .debugger => []
  | .expression value => [value]
  | .ifElse test consequent alternate => [test, consequent] ++ alternate.toList
  | .forLoop init test step body => init.toList ++ test.toList ++ step.toList ++ [body]
  | .forEach _ left right body => [left, right, body]
  | .whileLoop test body => [test, body]
  | .doWhile body test => [body, test]
  | .returns argument => argument.toList
  | .jump _ label => label.toList
  | .throws argument => [argument]
  | .tryCatch body handler finalizer => [body] ++ handler.toList ++ finalizer.toList
  | .catchClause param body => param.toList ++ [body]
  | .switch discriminant cases => [discriminant] ++ cases
  | .switchCase test consequent => test.toList ++ consequent
  | .labeled label body => [label, body]
  | .withObject object body => [object, body]
  | .identifier _ => []
  | .this => []
  | .super => []
  | .literal _ _ => []
  | .template expressions => expressions
  | .taggedTemplate tag quasi => [tag, quasi]
  | .arrayLiteral elements => elements.filterMap id
  | .objectLiteral properties => properties
  | .property key value _ _ => [key, value]
  | .spread argument => [argument]
  | .member object key _ _ => [object, key]
  | .call callee arguments _ => [callee] ++ arguments
  | .new callee arguments => [callee] ++ arguments
  | .unary _ argument => [argument]
  | .update _ _ argument => [argument]
  | .binary _ left right => [left, right]
  | .assignment _ left right => [left, right]
  | .conditional test consequent alternate => [test, consequent, alternate]
  | .sequence expressions => expressions
  | .parenthesized value => [value]
  | .yield argument _ => argument.toList
  | .await argument => [argument]
  | .arrayPattern elements => elements.filterMap id
  | .objectPattern properties => properties
  | .assignmentPattern left right => [left, right]
  | .rest argument => [argument]

/-- `g i` on the present elements, the first of which is child number `i`. -/
def mapHoles (g : Nat → α → β) (i : Nat) : List (Option α) → List (Option β)
  | [] => []
  | none :: es => none :: mapHoles g i es
  | some a :: es => some (g i a) :: mapHoles g (i + 1) es

/-- `g` on the elements, the first of which is child number `i`. -/
def mapList (g : Nat → α → β) (i : Nat) (l : List α) : List β := l.mapIdx fun j a => g (i + j) a

/-- How many children an optional part contributes. -/
def count (o : Option α) : Nat := o.toList.length

/-- `g i` on child number `i`. -/
def mapIdx (g : Nat → α → β) : Form α → Form β
  | .program statements comments => .program (mapList g 0 statements) comments
  | .bindings keyword declarators => .bindings keyword (mapList g 0 declarators)
  | .declarator target init => .declarator (g 0 target) (init.map (g 1))
  | .function place name params body traits =>
    .function place (name.map (g 0)) (mapList g (count name) params)
      (g (count name + params.length) body) traits
  | .classBody place name heritage members =>
    .classBody place (name.map (g 0)) (heritage.map (g (count name)))
      (mapList g (count name + count heritage) members)
  | .method key value role isStatic computed =>
    .method (g 0 key) (g 1 value) role isStatic computed
  | .field key value isStatic computed => .field (g 0 key) (value.map (g 1)) isStatic computed
  | .block statements => .block (mapList g 0 statements)
  | .empty => .empty
  | .debugger => .debugger
  | .expression value => .expression (g 0 value)
  | .ifElse test consequent alternate => .ifElse (g 0 test) (g 1 consequent) (alternate.map (g 2))
  | .forLoop init test step body =>
    .forLoop (init.map (g 0)) (test.map (g (count init)))
      (step.map (g (count init + count test))) (g (count init + count test + count step) body)
  | .forEach each left right body => .forEach each (g 0 left) (g 1 right) (g 2 body)
  | .whileLoop test body => .whileLoop (g 0 test) (g 1 body)
  | .doWhile body test => .doWhile (g 0 body) (g 1 test)
  | .returns argument => .returns (argument.map (g 0))
  | .jump kind label => .jump kind (label.map (g 0))
  | .throws argument => .throws (g 0 argument)
  | .tryCatch body handler finalizer =>
    .tryCatch (g 0 body) (handler.map (g 1)) (finalizer.map (g (count handler + 1)))
  | .catchClause param body => .catchClause (param.map (g 0)) (g (count param) body)
  | .switch discriminant cases => .switch (g 0 discriminant) (mapList g 1 cases)
  | .switchCase test consequent =>
    .switchCase (test.map (g 0)) (mapList g (count test) consequent)
  | .labeled label body => .labeled (g 0 label) (g 1 body)
  | .withObject object body => .withObject (g 0 object) (g 1 body)
  | .identifier name => .identifier name
  | .this => .this
  | .super => .super
  | .literal kind raw => .literal kind raw
  | .template expressions => .template (mapList g 0 expressions)
  | .taggedTemplate tag quasi => .taggedTemplate (g 0 tag) (g 1 quasi)
  | .arrayLiteral elements => .arrayLiteral (mapHoles g 0 elements)
  | .objectLiteral properties => .objectLiteral (mapList g 0 properties)
  | .property key value role traits => .property (g 0 key) (g 1 value) role traits
  | .spread argument => .spread (g 0 argument)
  | .member object key computed optional => .member (g 0 object) (g 1 key) computed optional
  | .call callee arguments optional => .call (g 0 callee) (mapList g 1 arguments) optional
  | .new callee arguments => .new (g 0 callee) (mapList g 1 arguments)
  | .unary operator argument => .unary operator (g 0 argument)
  | .update operator before argument => .update operator before (g 0 argument)
  | .binary operator left right => .binary operator (g 0 left) (g 1 right)
  | .assignment operator left right => .assignment operator (g 0 left) (g 1 right)
  | .conditional test consequent alternate =>
    .conditional (g 0 test) (g 1 consequent) (g 2 alternate)
  | .sequence expressions => .sequence (mapList g 0 expressions)
  | .parenthesized value => .parenthesized (g 0 value)
  | .yield argument delegate => .yield (argument.map (g 0)) delegate
  | .await argument => .await (g 0 argument)
  | .arrayPattern elements => .arrayPattern (mapHoles g 0 elements)
  | .objectPattern properties => .objectPattern (mapList g 0 properties)
  | .assignmentPattern left right => .assignmentPattern (g 0 left) (g 1 right)
  | .rest argument => .rest (g 0 argument)

def map (g : α → β) (f : Form α) : Form β := f.mapIdx fun _ => g

/-- Each child replaced by its number. -/
def number (f : Form α) : Form Nat := f.mapIdx fun i _ => i

theorem filterMap_mapHoles (g : Nat → α → β) (i : Nat) (es : List (Option α)) :
    (mapHoles g i es).filterMap id = (es.filterMap id).mapIdx fun j a => g (i + j) a := by
  induction es generalizing i with
  | nil => simp [mapHoles]
  | cons e es ih =>
    cases e with
    | none => simpa [mapHoles] using ih i
    | some a =>
      have h : (fun j b => g (i + (j + 1)) b) = fun j b => g (i + 1 + j) b := by
        funext j b
        rw [Nat.add_right_comm, Nat.add_assoc]
      simp only [mapHoles, List.filterMap_cons, id_eq, List.mapIdx_cons, Nat.add_zero, h]
      exact congrArg (List.cons (g i a)) (ih (i + 1))

end Form

end LoopClosure.Syntax
