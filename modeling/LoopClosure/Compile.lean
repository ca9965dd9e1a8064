import LoopClosure.Grammar.Program
import LoopClosure.Lowering.Lower

/-!
# Compiling a file
-/

namespace LoopClosure

open Syntax

/-- The defect for a syntax error. -/
def syntaxFailure (file : String) (source : List Char) (d : SyntaxDiagnostic) : Failure :=
  let line := (Text.LineMap.ofText source).lineOf d.start
  .defect (.ofDefect .syntaxError file d.start d.length line d.error.message)

/-- Parses, binds and lowers a source. -/
def compile (file : String) (source : List Char) (options : Options) :
    Except (Halt Failure) Lowered :=
  match Grammar.parse source with
  | .error .abort => .error .abort
  | .error (.fault d) => .error (.fault (syntaxFailure file source d))
  | .ok t =>
    (do lower (← bind { file, source, nodes := .ofTree t, options }) : Except Failure Lowered).mapError
      .fault

end LoopClosure
