import LoopClosure.Grammar.Arrow
import LoopClosure.Grammar.Function

/-!
# Expressions
-/

namespace LoopClosure.Grammar

open Syntax Token

/-! ## Primary expressions -/

/-- One more expression of a template, in front of those read before, and whether there are more. -/
def templatePart (rules : Rules) :
    List Tree × Bool → Parse (Option (List Tree × Bool)) := fun (expressions, more) => do
  if !more then return none
  next
  let e ← withIn (expression rules)
  if !(← isPunct .closeBrace) then fail (.expected (.punct .closeBrace))
  rescan Lexer.rescanTemplate
  return some (e :: expressions, (← kind) ≠ .template .tail)

def templateLiteral (rules : Rules) : Parse Tree := do
  let start ← here
  let expressions ←
    if (← kind) = .template .head then
      let (expressions, _) ← repeating (templatePart rules) ([], true)
      pure expressions.reverse
    else pure []
  next
  finish start (.template expressions)

def parenthesized (rules : Rules) : Parse Tree := do
  let start ← here
  expectPunct .openParen
  let e ← withIn (expression rules)
  expectPunct .closeParen
  finish start (.parenthesized e)

def spreadElement (rules : Rules) : Parse Tree := do
  let start ← here
  expectPunct .ellipsis
  let argument ← rules .assignment
  finish start (.spread argument)

def valueOrSpread (rules : Rules) : Parse Tree := do
  if ← isPunct .ellipsis then spreadElement rules else rules .assignment

def arrayLiteral (rules : Rules) : Parse Tree := do
  let start ← here
  expectPunct .openBracket
  let elements ← withIn (arrayElements (valueOrSpread rules))
  finish start (.arrayLiteral elements)

/-- Whether `get`, `set` or `async` is followed by the name of a property. -/
def modifiesProperty : Parse Bool := modifies [.openParen, .comma, .colon, .closeBrace, .equals]

def objectProperty (rules : Rules) : Parse Tree := do
  let start ← here
  let modifier : Option Keyword ←
    match ← kind with
    | .word k =>
      if k = .kGet || k = .kSet || k = .kAsync then
        if ← modifiesProperty then
          next
          pure (some k)
        else pure none
      else pure none
    | _ => pure none
  let role : PropertyRole :=
    match modifier with
    | some .kGet => .getter
    | some .kSet => .setter
    | _ => .init
  let isAsync := modifier = some .kAsync
  let isGenerator ← acceptPunct .star
  let mayBeShort ← isIdentifier
  let (key, computed) ← propertyName rules
  if role ≠ .init || isAsync || isGenerator || (← isPunct .openParen) then
    let value ← methodFunction rules { isAsync, isGenerator }
    finish start (.property key value role { computed, method := role = .init })
  else if ← acceptPunct .colon then
    let value ← rules .assignment
    finish start (.property key value role { computed })
  else if !mayBeShort || computed then fail (.expected (.punct .colon))
  else if ← acceptPunct .equals then
    let value ← rules .assignment
    let value ← finish start (.assignment (.punct .equals) key value)
    finish start (.property key value role { shorthand := true })
  else finish start (.property key key role { shorthand := true })

def objectItem (rules : Rules) : Parse Tree := do
  if ← isPunct .ellipsis then spreadElement rules else objectProperty rules

def objectLiteral (rules : Rules) : Parse Tree := do
  let start ← here
  expectPunct .openBrace
  let properties ← withIn (commaList .closeBrace (objectItem rules))
  finish start (.objectLiteral properties)

def primary (rules : Rules) : Parse Tree := do
  let start ← here
  match ← kind with
  | .word .kThis =>
    next
    finish start .this
  | .word .kSuper =>
    next
    finish start .super
  | .number => literal .number
  | .string => literal .string
  | .word .kTrue | .word .kFalse => literal .boolean
  | .word .kNull => literal .null
  | .punct .slash | .punct .slashEquals =>
    rescan Lexer.rescanSlash
    literal .regExp
  | .template .noSubstitution | .template .head => templateLiteral rules
  | .punct .openParen => parenthesized rules
  | .punct .openBracket => arrayLiteral rules
  | .punct .openBrace => objectLiteral rules
  | .word .kFunction => function rules .expression
  | .word .kClass => classBody rules .expression
  | .word .kAsync =>
    if ← startsAsyncFunction then function rules .expression else identifier
  | _ => if ← isIdentifier then identifier else unexpected

/-! ## Members and calls -/

def argumentList (rules : Rules) : Parse (List Tree) := do
  expectPunct .openParen
  withIn (commaList .closeParen (valueOrSpread rules))

def computedMember (rules : Rules) : Parse Tree := do
  expectPunct .openBracket
  let key ← withIn (expression rules)
  expectPunct .closeBracket
  return key

/-- One more access, call or tagged template behind `e`. Under `new` no call binds, and no
optional access. -/
def tailStep (rules : Rules) (start : Nat) (allowCalls : Bool) (e : Tree) :
    Parse (Option Tree) := do
  match ← kind with
  | .punct .dot =>
    next
    let key ← identifierName
    some <$> finish start (.member e key false false)
  | .punct .openBracket =>
    let key ← computedMember rules
    some <$> finish start (.member e key true false)
  | .punct .questionDot =>
    if !allowCalls then return none
    next
    match ← kind with
    | .punct .openBracket =>
      let key ← computedMember rules
      some <$> finish start (.member e key true true)
    | .punct .openParen =>
      let arguments ← argumentList rules
      some <$> finish start (.call e arguments true)
    | _ =>
      let key ← identifierName
      some <$> finish start (.member e key false true)
  | .punct .openParen =>
    if !allowCalls then return none
    let arguments ← argumentList rules
    some <$> finish start (.call e arguments false)
  | .template .noSubstitution | .template .head =>
    let quasi ← templateLiteral rules
    some <$> finish start (.taggedTemplate e quasi)
  | _ => return none

def tail (rules : Rules) (start : Nat) (allowCalls : Bool) (e : Tree) : Parse Tree :=
  repeating (tailStep rules start allowCalls) e

def newExpression (rules : Rules) : Parse Tree := do
  let start ← here
  expect (.word .kNew)
  if ← isPunct .dot then fail .newTarget
  let calleeStart ← here
  let callee ← if ← isWord .kNew then nested (rules .new) else primary rules
  let callee ← tail rules calleeStart false callee
  let arguments ← if ← isPunct .openParen then argumentList rules else pure []
  finish start (.new callee arguments)

def leftHandSide (rules : Rules) : Parse Tree := do
  let start ← here
  let e ← if ← isWord .kNew then newExpression rules else primary rules
  tail rules start true e

/-! ## Operators -/

def postfixed (rules : Rules) : Parse Tree := do
  let start ← here
  let e ← leftHandSide rules
  let k ← kind
  if (k = .punct .plusPlus || k = .punct .minusMinus) && !(← afterLineBreak) then
    if !e.isSimpleTarget then fail .invalidPostfix
    next
    finish start (.update k false e)
  else return e

/-- A sign and its operand. -/
def signed (rules : Rules) (start : Nat) (sign : Kind) : Parse Tree := do
  next
  let argument ← nested (rules .unary)
  finish start (.unary sign argument)

def prefixUpdate (rules : Rules) (start : Nat) (operator : Kind) : Parse Tree := do
  next
  let argument ← nested (rules .unary)
  if !argument.isSimpleTarget then throw (.fault ⟨start, 2, .invalidPrefix⟩)
  finish start (.update operator true argument)

def unary (rules : Rules) : Parse Tree := do
  let start ← here
  let k ← kind
  match k with
  | .punct .bang | .punct .minus | .punct .plus | .punct .tilde | .word .kTypeOf | .word .kVoid
  | .word .kDelete => signed rules start k
  | .punct .plusPlus | .punct .minusMinus => prefixUpdate rules start k
  | .word .kAwait =>
    if (← read).async then
      next
      let argument ← nested (rules .unary)
      finish start (.await argument)
    else postfixed rules
  | _ => postfixed rules

/-- An operator that binds tighter than `above`, with what is right of it. -/
def binaryStep (rules : Rules) (above start : Nat) (left : Tree) : Parse (Option Tree) := do
  let operator ← kind
  let precedence := operator.precedence !(← read).noIn
  if precedence ≤ above then return none
  next
  let right ←
    rules (.binary (if operator = .punct .starStar then precedence - 1 else precedence))
  some <$> finish start (.binary operator left right)

/-- Operators that bind tighter than `above`, grouped to the left, `**` to the right. -/
def binary (rules : Rules) (above : Nat) : Parse Tree := do
  let start ← here
  let first ← unary rules
  repeating (binaryStep rules above start) first

def conditional (rules : Rules) : Parse Tree := do
  let start ← here
  let test ← binary rules 0
  if ← acceptPunct .question then
    let consequent ← withIn (rules .assignment)
    expectPunct .colon
    let alternate ← rules .assignment
    finish start (.conditional test consequent alternate)
  else return test

/-- Whether the current token can begin the operand of `yield`. -/
def startsExpression : Parse Bool := do
  match ← kind with
  | .punct p =>
    match p with
    | .closeParen | .closeBracket | .closeBrace | .comma | .semicolon | .colon | .question =>
      return false
    | .plus | .minus | .slash | .slashEquals => return true
    | p => return !p.isAssignment && p.precedence = 0
  | .endOfFile | .template .middle | .template .tail => return false
  | k => return k.precedence true = 0

def yieldExpression (rules : Rules) : Parse Tree := do
  let start ← here
  next
  if ← afterLineBreak then finish start (.yield none false)
  else
    let delegate ← acceptPunct .star
    let argument ←
      if delegate || (← startsExpression) then some <$> rules .assignment else pure none
    finish start (.yield argument delegate)

def assignment (rules : Rules) : Parse Tree := do
  if ← startsArrow then return ← arrowFunction rules
  if (← isWord .kYield) && (← read).generator then return ← yieldExpression rules
  let start ← here
  let left ← conditional rules
  let operator ← kind
  if !operator.isAssignment then return left
  let left ←
    if operator = .punct .equals then target left
    else if left.isSimpleTarget then pure left
    else fail .invalidAssignment
  next
  let right ← rules .assignment
  finish start (.assignment operator left right)

end LoopClosure.Grammar
