import LoopClosure.Syntax.Nodes

/-!
# Relays

A jump or `return` that leaves a wrapped body raises a flag and returns from the function that the
body became. Behind the call the flag is checked and the jump made there.
-/

namespace LoopClosure

open Syntax

/-- What leaves a wrapped body. -/
inductive Relay where
  /-- A `break` of the wrapped loop, or of a labeled statement. -/
  | break_ (label : Option String)
  | continue_ (label : String)
  | returnVoid
  /-- A `return` of a literal that is no regular expression. -/
  | returnPrimitive
  | returnValue
deriving DecidableEq, Repr

namespace Relay

/-- Key of the flag, which all loops of a unit share. -/
def flagKey : Relay → String
  | .break_ none => "break"
  | .break_ (some label) => "break" ++ label
  | .continue_ label => "continue" ++ label
  | .returnVoid => "retVoid"
  | .returnPrimitive => "retPrim"
  | .returnValue => "retVal"

/-- Whether a value is returned. -/
def isValued : Relay → Bool
  | .returnPrimitive | .returnValue => true
  | _ => false

/-- The relay of a jump; none for a `continue` of the innermost loop. -/
def ofJump? : JumpKind → Option String → Option Relay
  | .toEnd, label => some (.break_ label)
  | .toNext, label => label.map .continue_

/-- The relay of a `return` with an argument. -/
def ofArgument : Form NodeId → Relay
  | .literal .regExp _ => .returnValue
  | .literal _ _ => .returnPrimitive
  | _ => .returnValue

end Relay

/-! ## Generated text -/

def braces (text : String) : String := "\x7b" ++ text ++ "\x7d"

/-- Leaves the function after raising a flag. -/
def raiseText (flag : String) : String := braces (flag ++ " = true;return")

def checkText (flag action : String) : String := "if(" ++ flag ++ "===true)" ++ braces action

/-- The check of a flag that hands the relay on to the function around. -/
def forwardText (flag : String) : Option String → String
  | some value => checkText flag ("return " ++ value)
  | none => checkText flag "return"

/-- The check of a flag that makes the jump. -/
def jumpText (flag jump : String) : String := checkText flag (flag ++ "=void 0;" ++ jump)

/-- The check of a flag that returns the value and lets go of it. -/
def returnText (flag value caught : String) : String :=
  checkText flag ("try" ++ braces ("throw " ++ value) ++ "catch(" ++ caught ++ ")" ++
    braces (value ++ "=" ++ flag ++ "=void 0;return " ++ caught))

end LoopClosure
