import LoopClosure.Sorting
import LoopClosure.Token.Lexer

/-!
# Syntax errors
-/

namespace LoopClosure

/-- Why there is no result. -/
inductive Halt (ε : Type) where
  /-- Something is wrong, and reported. -/
  | fault (e : ε)
  /-- A text was cut inside of a character. Nothing is reported. -/
  | abort
deriving DecidableEq, Repr

namespace Syntax

/-- Why a text is no program. -/
inductive SyntaxError where
  | lexical (e : Token.LexError)
  | expected (k : Token.Kind)
  | unexpectedEnd
  | unexpectedToken (text : String)
  | identifierExpected
  | propertyNameExpected
  | caseOrDefaultExpected
  | catchOrFinallyExpected
  | nestingTooDeep
  | moduleSyntax
  | newTarget
  | lineBreak
  | lineBreakBeforeArrow
  | invalidAssignment
  | invalidPrefix
  | invalidPostfix
  | invalidTarget
  | invalidDestructuring
  | unfinished
deriving DecidableEq, Repr

def SyntaxError.message : SyntaxError → String
  | .lexical e => e.message
  | .expected k => "'" ++ k.text ++ "' expected"
  | .unexpectedEnd => "Unexpected end of input"
  | .unexpectedToken text => "Unexpected token '" ++ text ++ "'"
  | .identifierExpected => "Identifier expected"
  | .propertyNameExpected => "Property name expected"
  | .caseOrDefaultExpected => "'case' or 'default' expected"
  | .catchOrFinallyExpected => "'catch' or 'finally' expected"
  | .nestingTooDeep => "Maximum nesting depth exceeded"
  | .moduleSyntax => "Module syntax is not supported"
  | .newTarget => "'new.target' is not supported"
  | .lineBreak => "Line break not permitted here"
  | .lineBreakBeforeArrow => "Line terminator not permitted before arrow"
  | .invalidAssignment => "Invalid left-hand side in assignment"
  | .invalidPrefix => "Invalid left-hand side in prefix operation"
  | .invalidPostfix => "Invalid left-hand side in postfix operation"
  | .invalidTarget => "Invalid assignment target"
  | .invalidDestructuring => "Invalid destructuring assignment target"
  | .unfinished => "Text not read to its end"

/-- A syntax error and the bytes it is reported at. -/
structure SyntaxDiagnostic where
  start : Nat
  length : Nat
  error : SyntaxError
deriving DecidableEq, Repr

/-- Ascending by start; equals keep their order. -/
def SyntaxDiagnostic.sort (ds : List SyntaxDiagnostic) : List SyntaxDiagnostic :=
  sortByKey (·.start) ds

end Syntax

end LoopClosure
