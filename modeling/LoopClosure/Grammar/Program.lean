import LoopClosure.Grammar.Statement

/-!
# Programs

The rules of the grammar, tied together. Between two tokens at most two rules are entered, so twice
the length of the text bounds the depth.
-/

namespace LoopClosure.Grammar

open Syntax Token

/-- One round of the grammar: the reader of a nonterminal over readers for those inside it. -/
def rule (rules : Rules) : Rules
  | .statement => nested (statement rules)
  | .assignment => nested (assignment rules)
  | .unary => unary rules
  | .binary above => binary rules above
  | .leftHandSide => leftHandSide rules
  | .new => newExpression rules
  | .bindingTarget => bindingTarget rules

/-- The grammar, unrolled to a depth. -/
def rules : Nat → Rules
  | 0 => fun _ => fail .unfinished
  | n + 1 => rule (rules n)

/-- A statement of a program. -/
def programItem (rules : Rules) : Parse (Option Tree) := do
  if ← isEnd then return none
  return some (← rules .statement)

/-- A text of `stop` bytes, from its first token on. -/
def programBody (rules : Rules) (stop : Nat) : Parse Tree := do
  let statements ← collect (programItem rules)
  return .ofForm 0 stop (.program statements (← lexer).comments.toList)

/-- A whole text of `stop` bytes, by a grammar. -/
def programBy (rules : Rules) (stop : Nat) : Parse Tree := do
  next
  programBody rules stop

def program (stop depth : Nat) : Parse Tree := programBy (rules depth) stop

/-- What reading a text brings: its tree, if the grammar accepts it, and everything found wrong, in
order of place. -/
structure Reading where
  tree? : Option Tree
  diagnostics : List SyntaxDiagnostic

def lexical (d : LexDiagnostic) : SyntaxDiagnostic := ⟨d.start, d.length, .lexical d.error⟩

/-- Nothing is brought where reading aborts. -/
def readProgram (text : List Char) : Option Reading :=
  let context : Context := { limit := text.length + 2 }
  let state : State := { lexer := (Lexer.ofText text).skipShebang }
  match program (Text.size text) (2 * text.length + 4) context state with
  | .ok t s => some ⟨some t, SyntaxDiagnostic.sort (s.lexer.errors.toList.map lexical)⟩
  | .error (.fault d) s =>
    some ⟨none, SyntaxDiagnostic.sort (s.lexer.errors.toList.map lexical ++ [d])⟩
  | .error .abort _ => none

/-- The tree of a text without faults, or the first fault. -/
def parse (text : List Char) : Except Stop Tree :=
  match readProgram text with
  | none => .error .abort
  | some ⟨_, d :: _⟩ => .error (.fault d)
  | some ⟨some t, []⟩ => .ok t
  | some ⟨none, []⟩ => .error (.fault ⟨0, 0, .unfinished⟩)

theorem parse_eq_ok_iff {text : List Char} {t : Tree} :
    parse text = .ok t ↔ readProgram text = some ⟨some t, []⟩ := by
  unfold parse
  split <;> simp_all

theorem parse_eq_abort_iff {text : List Char} :
    parse text = .error .abort ↔ readProgram text = none := by
  unfold parse
  split <;> simp_all

end LoopClosure.Grammar
