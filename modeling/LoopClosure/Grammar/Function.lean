import LoopClosure.Grammar.Binding

/-!
# Blocks, functions and classes
-/

namespace LoopClosure.Grammar

open Syntax Token

/-- A statement of a block. -/
def blockItem (rules : Rules) : Parse (Option Tree) := do
  if ← isPunct .closeBrace then return none
  if ← isEnd then fail (.expected (.punct .closeBrace))
  return some (← rules .statement)

def block (rules : Rules) : Parse Tree := do
  let start ← here
  expectPunct .openBrace
  let statements ← collect (blockItem rules)
  next
  finish start (.block statements)

def parameterList (rules : Rules) : Parse (List Tree) := do
  expectPunct .openParen
  commaList .closeParen (bindingOrRest rules)

/-- Parameters and body of a function that is no arrow. -/
def parametersAndBody (rules : Rules) (traits : FunctionTraits) : Parse (List Tree × Tree) :=
  withIn <| inFunction traits do
    let params ← parameterList rules
    return (params, ← block rules)

/-- Whether `function` follows on the same line. -/
def functionFollows : Parse Bool := do
  next
  return (← isWord .kFunction) && !(← afterLineBreak)

def startsAsyncFunction : Parse Bool := lookAhead functionFollows

/-- A function from its first keyword on; only an expression may go without a name. -/
def function (rules : Rules) (place : FunctionPlace) : Parse Tree := do
  let start ← here
  let isAsync ← acceptWord .kAsync
  expect (.word .kFunction)
  let isGenerator ← acceptPunct .star
  let name ←
    if ← isIdentifier then some <$> identifier
    else if place = .declaration then fail .identifierExpected
    else pure none
  let traits := { isAsync, isGenerator }
  let (params, body) ← parametersAndBody rules traits
  finish start (.function place name params body traits)

/-- The function of a method, from its parameters on. -/
def methodFunction (rules : Rules) (traits : FunctionTraits) : Parse Tree := do
  let start ← here
  let (params, body) ← parametersAndBody rules traits
  finish start (.function .expression none params body traits)

/-- Whether `async` is in front of parameters, and none itself. -/
def parametersFollow : Parse Bool := do
  next
  return !(← isPunct .arrow)

/-- An arrow function, where `startsArrow` has found one. -/
def arrowFunction (rules : Rules) : Parse Tree := do
  let start ← here
  let isAsync ←
    if ← isWord .kAsync then lookAhead parametersFollow else pure false
  if isAsync then next
  let params ←
    if ← isPunct .openParen then withIn (inFunction { isAsync } (parameterList rules))
    else do
      let param ← identifier
      pure [param]
  if ← afterLineBreak then fail .lineBreakBeforeArrow
  expectPunct .arrow
  let concise := !(← isPunct .openBrace)
  let body ←
    inFunction { isAsync } (if concise then rules .assignment else withIn (block rules))
  finish start (.function .arrow none params body { isAsync, concise })

/-- Whether a modifier such as `static` or `get` is followed by the name it modifies. -/
def nameFollows (enders : List Punctuator) : Parse Bool := do
  next
  let k ← kind
  return !(← afterLineBreak) && !enders.any fun p => k = .punct p

def modifies (enders : List Punctuator) : Parse Bool := lookAhead (nameFollows enders)

def modifiesMember : Parse Bool :=
  modifies [.openParen, .equals, .semicolon, .closeBrace, .comma, .colon]

/-- The string without its quotes: without its first byte, that is, and its last. In a string that is not
closed the last byte may belong to a character of several bytes, and no cut can be made there. -/
def unquoted? (raw : String) : Option (List Char) :=
  Text.slice? raw.toList 1 (max (Text.size raw.toList - 1) 1)

/-- Whether a member of this name is the constructor of its class. -/
def isConstructorKey (key : Tree) : Parse Bool :=
  match key.form with
  | .identifier name => return name = "constructor"
  | .literal .string raw =>
    match unquoted? raw with
    | some name => return name = "constructor".toList
    | none => abort
  | _ => return false

/-- Only a string that cannot be cut aborts. -/
theorem isConstructorKey_cases (key : Tree) : (∃ b, isConstructorKey key = pure b) ∨
    isConstructorKey key = abort ∧ ∃ raw, key.form = .literal .string raw ∧ unquoted? raw = none := by
  unfold isConstructorKey
  split
  · exact .inl ⟨_, rfl⟩
  · next raw hform =>
    cases hcut : unquoted? raw with
    | some name => exact .inl ⟨_, rfl⟩
    | none => exact .inr ⟨rfl, raw, hform, hcut⟩
  · exact .inl ⟨_, rfl⟩

def acceptModifier (k : Keyword) : Parse Bool := do
  if ← isWord k then
    if ← modifiesMember then
      next
      return true
  return false

/-- The role that a modifier in front of a name gives. -/
def accessorRole : Parse MethodRole := do
  if ← acceptModifier .kGet then return .getter
  if ← acceptModifier .kSet then return .setter
  return .method

/-- Without modifiers a method may be the constructor. -/
def methodRole (role : MethodRole) (isStatic computed : Bool) (key : Tree) : Parse MethodRole := do
  if role = .method && !isStatic && !computed then
    if ← isConstructorKey key then return .constructor
  return role

def classMember (rules : Rules) : Parse Tree := do
  let start ← here
  let isStatic ← acceptModifier .kStatic
  let isAsync ← acceptModifier .kAsync
  let isGenerator ← acceptPunct .star
  let role ← if isAsync || isGenerator then pure .method else accessorRole
  let (key, computed) ← propertyName rules
  if ← isPunct .openParen then
    let role ← methodRole role isStatic computed key
    let value ← methodFunction rules { isAsync, isGenerator }
    finish start (.method key value role isStatic computed)
  else
    if isAsync || isGenerator || role ≠ .method then fail (.expected (.punct .openParen))
    let value ←
      if ← acceptPunct .equals then some <$> withIn (rules .assignment) else pure none
    semicolon
    finish start (.field key value isStatic computed)

/-- A member of a class, or a semicolon. -/
def classItem (rules : Rules) : Parse (Option (Option Tree)) := do
  if ← isPunct .closeBrace then return none
  if ← acceptPunct .semicolon then return some none
  if ← isEnd then fail (.expected (.punct .closeBrace))
  return some (some (← classMember rules))

def classBody (rules : Rules) (place : ClassPlace) : Parse Tree := do
  let start ← here
  expect (.word .kClass)
  let name ←
    if ← isIdentifier then some <$> identifier
    else if place = .declaration then fail .identifierExpected
    else pure none
  let heritage ←
    if ← acceptWord .kExtends then some <$> rules .leftHandSide else pure none
  expectPunct .openBrace
  let members ← collect (classItem rules)
  next
  finish start (.classBody place name heritage (members.filterMap id))

end LoopClosure.Grammar
