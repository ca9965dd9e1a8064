import LoopClosure.Text.Lines
import LoopClosure.Text.Split

/-!
# Diagnostics

A unit stops at its first error. A `Failure` is either a defect of the source, reported at a place
in a file, or a broken promise of the library itself.
-/

namespace LoopClosure

/-- What can be wrong with a source. -/
inductive Defect where
  | syntaxError
  | duplicateConst
  | assignToConst
  | useBeforeDeclaration
  | unresolvedReference
  | disallowedVar
  | unknownEnvironment
  | unsupportedLoopHeaderCapture
  | loopClosureNotTransformable
deriving DecidableEq, Repr

namespace Defect

def all : List Defect :=
  [.syntaxError, .duplicateConst, .assignToConst, .useBeforeDeclaration, .unresolvedReference,
   .disallowedVar, .unknownEnvironment, .unsupportedLoopHeaderCapture, .loopClosureNotTransformable]

def code : Defect → Nat
  | .syntaxError => 1001
  | .duplicateConst => 2001
  | .assignToConst => 2002
  | .useBeforeDeclaration => 2003
  | .unresolvedReference => 2004
  | .disallowedVar => 2005
  | .unknownEnvironment => 2006
  | .unsupportedLoopHeaderCapture => 3001
  | .loopClosureNotTransformable => 3002

def ofCode? (code : Nat) : Option Defect := all.find? (·.code = code)

def name : Defect → String
  | .syntaxError => "Syntax"
  | .duplicateConst => "DuplicateConst"
  | .assignToConst => "AssignToConst"
  | .useBeforeDeclaration => "UseBeforeDeclaration"
  | .unresolvedReference => "UnresolvedReference"
  | .disallowedVar => "DisallowedVar"
  | .unknownEnvironment => "UnknownEnvironment"
  | .unsupportedLoopHeaderCapture => "UnsupportedLoopHeaderCapture"
  | .loopClosureNotTransformable => "LoopClosureNotTransformable"

/-- Message with places for the arguments. -/
def template : Defect → String
  | .syntaxError => "\x7b0\x7d"
  | .duplicateConst => "\x7b0\x7d is already declared"
  | .assignToConst => "can't assign to const variable \x7b0\x7d"
  | .useBeforeDeclaration => "\x7b0\x7d is referenced before its declaration"
  | .unresolvedReference => "reference to unknown global variable \x7b0\x7d"
  | .disallowedVar => "var \x7b0\x7d is not allowed (use let or const)"
  | .unknownEnvironment => "environment \"\x7b0\x7d\" not found"
  | .unsupportedLoopHeaderCapture =>
    "Not yet specced ES6 feature. \x7b0\x7d is declared in for-loop header and then captured in loop closure"
  | .loopClosureNotTransformable =>
    "can't transform closure. \x7b0\x7d is defined outside closure, inside loop"

theorem mem_all (d : Defect) : d ∈ all := by cases d <;> decide

theorem ofCode?_code (d : Defect) : ofCode? d.code = some d := by cases d <;> decide

end Defect

inductive Category where
  | error | warning | message
deriving DecidableEq, Repr

/-- A finding at a byte range of a file. -/
structure Diagnostic where
  category : Category
  code : Nat
  file : String
  start : Nat
  length : Nat
  line : Nat
  message : String
deriving DecidableEq, Repr

namespace Diagnostic

/-- The error for a defect that concerns `arg`. -/
def ofDefect (d : Defect) (file : String) (start length line : Nat) (arg : String) : Diagnostic :=
  { category := .error, code := d.code, file, start, length, line
    message := Text.fill d.template [arg] }

def defect? (d : Diagnostic) : Option Defect := Defect.ofCode? d.code

/-- One line: the place, then the message. -/
def display (d : Diagnostic) : String :=
  (if d.file = "" then "line " else d.file ++ ":") ++ toString d.line ++ ": " ++ d.message

end Diagnostic

/-- Why a unit was given up. -/
inductive Failure where
  | defect (d : Diagnostic)
  | internal (message : String)
deriving DecidableEq, Repr

def Failure.display : Failure → String
  | .defect d => d.display
  | .internal message => "internal error: " ++ message

end LoopClosure
