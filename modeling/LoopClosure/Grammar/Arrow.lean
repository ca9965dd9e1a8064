import LoopClosure.Grammar.Basic

/-!
# Arrow heads

Whether a parenthesis opens the parameters of an arrow function shows only behind the matching one.
The tokens in between are passed over without a parse, and the answers for all parentheses on the
way are kept, so that nested heads are read once.
-/

namespace LoopClosure.Grammar

open Syntax Token

/-- An open bracket on the way over an arrow head; `template` for the braces of a substitution. -/
inductive Bracket where
  | paren | bracket | brace | template
deriving DecidableEq, Repr

/-- Whether a slash behind this token divides; elsewhere it begins a regular expression. -/
def endsOperand : Kind → Bool
  | .identifier | .number | .string | .regExp => true
  | .template .noSubstitution | .template .tail => true
  | .punct .closeParen | .punct .closeBracket | .punct .closeBrace => true
  | .punct .plusPlus | .punct .minusMinus => true
  | .word .kThis | .word .kSuper | .word .kTrue | .word .kFalse | .word .kNull => true
  | k => k.isContextual

def isArrowHere : Parse Bool := do
  return (← isPunct .arrow) && !(← afterLineBreak)

def recordArrowHead (offset : Nat) (isArrow : Bool) : Parse Unit := modify fun s =>
  { s with arrowHeads := (offset, isArrow) :: s.arrowHeads }

/-- On the way over an arrow head. -/
structure HeadScan where
  /-- Open brackets with their offsets, innermost first. -/
  stack : List (Bracket × Nat)
  /-- A parenthesis that the token before closed. -/
  closed : Option Nat
  prev : Kind
  /-- Settled before the last bracket closed. -/
  refused : Bool := false
deriving DecidableEq, Repr

/-- Reads a slash on the way as the token before it asks for. -/
def headSlash (stack : List (Bracket × Nat)) (prev : Kind) :
    Parse (Option (List (Bracket × Nat) × Option Nat)) := do
  if !endsOperand prev then rescan Lexer.rescanSlash
  return some (stack, none)

/-- What one token does to the open brackets, `top` being the innermost; `none` if it closes a
bracket that is not open, or nothing is left to read. -/
def headToken (top : Bracket) (stack below : List (Bracket × Nat)) (prev : Kind) :
    Parse (Option (List (Bracket × Nat) × Option Nat)) := do
  let pos ← here
  match ← kind with
  | .endOfFile => return none
  | .punct .openParen => return some ((.paren, pos) :: stack, none)
  | .punct .openBracket => return some ((.bracket, pos) :: stack, none)
  | .punct .openBrace => return some ((.brace, pos) :: stack, none)
  | .template .head => return some ((.template, pos) :: stack, none)
  | .punct .closeParen =>
    if top = .paren then return some (below, stack.head?.map (·.2)) else return none
  | .punct .closeBracket => if top = .bracket then return some (below, none) else return none
  | .punct .closeBrace =>
    match top with
    | .brace => return some (below, none)
    | .template =>
      rescan Lexer.rescanTemplate
      if (← kind) = .template .middle then return some ((.template, pos) :: below, none)
      else return some (below, none)
    | _ => return none
  | .punct .slash | .punct .slashEquals => headSlash stack prev
  | _ => return some (stack, none)

def headStep (h : HeadScan) : Parse (Option HeadScan) := do
  if h.refused then return none
  match h.stack with
  | [] => return none
  | (top, _) :: below =>
    if let some opened := h.closed then recordArrowHead opened (← isArrowHere)
    if h.stack.length > maxNesting then return some { h with refused := true }
    match ← headToken top h.stack below h.prev with
    | none => return some { h with refused := true }
    | some (stack, closed) =>
      let prev ← kind
      next
      return some { stack, closed, prev }

/-- Passes over balanced parentheses and tells whether an arrow follows on the same line. -/
def passArrowHead : Parse Bool := do
  let start : HeadScan := { stack := [(.paren, ← here)], closed := none, prev := ← kind }
  next
  let last ← repeating headStep start
  if last.refused then return false
  isArrowHere

/-- Whether an arrow behind the name follows on the same line. -/
def arrowFollows : Parse Bool := do
  next
  isArrowHere

/-- Whether `async` is in front of an arrow function, or is its parameter. -/
def asyncArrowFollows : Parse Bool := do
  next
  if ← afterLineBreak then return false
  if ← isPunct .arrow then return true
  if ← isPunct .openParen then return ← passArrowHead
  if ← isIdentifier then arrowFollows else return false

/-- Whether an arrow function begins here. -/
def startsArrow : Parse Bool := do
  match ← kind with
  | .punct .openParen =>
    let opened ← here
    match (← get).arrowHeads.lookup opened with
    | some known => return known
    | none =>
      let isArrow ← lookAhead passArrowHead
      recordArrowHead opened isArrow
      return isArrow
  | .word .kAsync => lookAhead asyncArrowFollows
  | _ => if ← isIdentifier then lookAhead arrowFollows else return false

end LoopClosure.Grammar
