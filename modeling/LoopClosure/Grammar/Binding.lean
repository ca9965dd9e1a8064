import LoopClosure.Grammar.Basic

/-!
# Property names and binding patterns
-/

namespace LoopClosure.Grammar

open Syntax Token

/-- An expression with commas. -/
def expression (rules : Rules) : Parse Tree := do
  let start ← here
  let first ← rules .assignment
  if !(← isPunct .comma) then return first
  let others ← collect (behindComma (rules .assignment))
  finish start (.sequence (first :: others))

/-- A name, string, number or computed key, and whether it is computed. -/
def propertyName (rules : Rules) : Parse (Tree × Bool) := do
  match ← kind with
  | .string => return (← literal .string, false)
  | .number => return (← literal .number, false)
  | .punct .openBracket =>
    next
    let key ← withIn (rules .assignment)
    expectPunct .closeBracket
    return (key, true)
  | k => if k.isName then return (← identifierName, false) else fail .propertyNameExpected

/-- A target with an optional default. -/
def bindingElement (rules : Rules) : Parse Tree := do
  let start ← here
  let target ← rules .bindingTarget
  if ← acceptPunct .equals then
    let value ← withIn (rules .assignment)
    finish start (.assignmentPattern target value)
  else return target

def restElement (rules : Rules) : Parse Tree := do
  let start ← here
  expectPunct .ellipsis
  let argument ← rules .bindingTarget
  finish start (.rest argument)

def bindingOrRest (rules : Rules) : Parse Tree := do
  if ← isPunct .ellipsis then restElement rules else bindingElement rules

/-- An element of an array with its comma, or a hole. -/
def arrayItem (item : Parse Tree) : Parse (Option (Option Tree)) := do
  if ← isPunct .closeBracket then return none
  if ← acceptPunct .comma then return some none
  let element ← item
  if !(← isPunct .closeBracket) then expectPunct .comma
  return some (some element)

/-- The elements of an array between its brackets, with `none` for a hole. -/
def arrayElements (item : Parse Tree) : Parse (List (Option Tree)) := do
  let elements ← collect (arrayItem item)
  next
  return elements

def bindingProperty (rules : Rules) : Parse Tree := do
  let start ← here
  let mayBeShort ← isIdentifier
  let (key, computed) ← propertyName rules
  if ← acceptPunct .colon then
    let value ← bindingElement rules
    finish start (.property key value .init { computed })
  else if !mayBeShort || computed then fail (.expected (.punct .colon))
  else if ← acceptPunct .equals then
    let value ← withIn (rules .assignment)
    let value ← finish start (.assignmentPattern key value)
    finish start (.property key value .init { shorthand := true })
  else finish start (.property key key .init { shorthand := true })

def patternItem (rules : Rules) : Parse Tree := do
  if ← isPunct .ellipsis then restElement rules else bindingProperty rules

/-- An identifier, an array pattern or an object pattern. -/
def bindingTarget (rules : Rules) : Parse Tree := do
  let start ← here
  match ← kind with
  | .punct .openBracket =>
    next
    let elements ← arrayElements (bindingOrRest rules)
    finish start (.arrayPattern elements)
  | .punct .openBrace =>
    next
    let properties ← commaList .closeBrace (patternItem rules)
    finish start (.objectPattern properties)
  | _ => identifier

end LoopClosure.Grammar
