import LoopClosure.Syntax.Pattern

/-!
# Reading tokens

`Parse α` reads tokens and yields an `α`, or stops at the first syntax error or where it aborts. The
state survives an error, so that what the lexer noticed on the way is still known.

The rules of the grammar refer to one another. A rule is written against `Rules`, a reader for each
nonterminal that a rule may come back to behind at least one token; `Grammar.Program` closes the
circle. Repetitions are bounded by `Context.limit`, which is above the number of tokens.
-/

namespace LoopClosure.Grammar

open Syntax Token

/-- Nesting of statements and expressions beyond which a text is refused. -/
def maxNesting : Nat := 1000

/-- Where in the program a rule reads. -/
structure Context where
  /-- `in` is no operator here. -/
  noIn : Bool := false
  /-- `yield` is an operator here. -/
  generator : Bool := false
  /-- `await` is an operator here. -/
  async : Bool := false
  nesting : Nat := 0
  /-- Bound on the number of turns of a repetition. -/
  limit : Nat
deriving DecidableEq, Repr

structure State where
  lexer : Lexer
  /-- End of the token read last. -/
  prevStop : Nat := 0
  /-- Parentheses by their offset, with whether an arrow follows them. -/
  arrowHeads : List (Nat × Bool) := []
deriving DecidableEq, Repr

/-- Why a reader has no value. -/
abbrev Stop := Halt SyntaxDiagnostic

abbrev Parse := ReaderT Context (EStateM Stop State)

/-- The nonterminals that rules come back to. -/
inductive Nonterminal where
  | statement
  | assignment
  | unary
  /-- Operators that bind tighter than a precedence. -/
  | binary (above : Nat)
  | leftHandSide
  | new
  | bindingTarget
deriving DecidableEq, Repr

abbrev Rules := Nonterminal → Parse Tree

variable {α σ : Type}

/-! ## The current token -/

def lexer : Parse Lexer := do return (← get).lexer

def kind : Parse Kind := do return (← lexer).kind

/-- Offset of the current token. -/
def here : Parse Nat := do return (← lexer).start.offset

def afterLineBreak : Parse Bool := do return (← lexer).lineBreak

def next : Parse Unit := modify fun s =>
  { s with prevStop := s.lexer.cursor.offset, lexer := s.lexer.scan }

/-- Reads the current token in another way. -/
def rescan (f : Lexer → Lexer) : Parse Unit := modify fun s => { s with lexer := f s.lexer }

def fail (e : SyntaxError) : Parse α := do
  let l ← lexer
  throw (.fault ⟨l.start.offset, l.cursor.offset - l.start.offset, e⟩)

def abort : Parse α := throw .abort

def unexpected : Parse α := do
  let l ← lexer
  if l.kind = .endOfFile then fail .unexpectedEnd else fail (.unexpectedToken l.text)

def isPunct (p : Punctuator) : Parse Bool := do return (← kind) = .punct p

def isWord (k : Keyword) : Parse Bool := do return (← kind) = .word k

def isEnd : Parse Bool := do return (← kind) = .endOfFile

def accept (k : Kind) : Parse Bool := do
  if (← kind) = k then
    next
    return true
  else return false

def acceptPunct (p : Punctuator) : Parse Bool := accept (.punct p)

def acceptWord (k : Keyword) : Parse Bool := accept (.word k)

def expect (k : Kind) : Parse Unit := do
  if !(← accept k) then fail (.expected k)

def expectPunct (p : Punctuator) : Parse Unit := expect (.punct p)

/-- Runs `p` and goes back to where it began. What it found out about arrow heads is kept. -/
def lookAhead (p : Parse α) : Parse α := do
  let before ← get
  let a ← p
  modify fun s => { s with lexer := s.lexer.restore before.lexer, prevStop := before.prevStop }
  return a

/-! ## Contexts -/

def withIn (p : Parse α) : Parse α := fun c => p { c with noIn := false }

def withoutIn (p : Parse α) : Parse α := fun c => p { c with noIn := true }

/-- Reads parameters or the body of a function. -/
def inFunction (traits : FunctionTraits) (p : Parse α) : Parse α := fun c =>
  p { c with async := traits.isAsync, generator := traits.isGenerator }

/-- One level of nesting deeper. -/
def nested (p : Parse α) : Parse α := fun c =>
  if c.nesting < maxNesting then p { c with nesting := c.nesting + 1 } else fail .nestingTooDeep c

/-! ## Repetition -/

/-- Turns `s` over and over until `step` ends it. -/
def iterate (step : σ → Parse (Option σ)) : Nat → σ → Parse σ
  | 0, _ => fail .unfinished
  | n + 1, s => do
    match ← step s with
    | none => return s
    | some s => iterate step n s

/-- `iterate` within the limit of the context. -/
def repeating (step : σ → Parse (Option σ)) (s : σ) : Parse σ := do
  iterate step (← read).limit s

/-- The items that `item` reads until it has no more. -/
def collect (item : Parse (Option α)) : Parse (List α) := do
  let reversed ← repeating (fun items => do return (← item).map (· :: items)) []
  return reversed.reverse

/-- An item with a comma behind it, unless `close` follows; none if `close` stands here. -/
def commaItem (close : Punctuator) (item : Parse α) : Parse (Option α) := do
  if ← isPunct close then return none
  let a ← item
  if !(← isPunct close) then expectPunct .comma
  return some a

/-- Items with commas between them, and perhaps behind the last, up to the token `close`. -/
def commaList (close : Punctuator) (item : Parse α) : Parse (List α) := do
  let items ← collect (commaItem close item)
  next
  return items

/-- An item behind a comma, if there is one. -/
def behindComma (item : Parse α) : Parse (Option α) := do
  if ← acceptPunct .comma then return some (← item) else return none

/-! ## Nodes -/

/-- A node from offset `start` to the end of the token read last. -/
def finish (start : Nat) (form : Form Tree) : Parse Tree := do
  return .ofForm start (max (← get).prevStop start) form

/-- Whether the current token is an identifier here. -/
def isIdentifier : Parse Bool := do
  match ← kind with
  | .identifier => return true
  | .word .kYield => return !(← read).generator
  | .word .kAwait => return !(← read).async
  | k => return k.isContextual

/-- An identifier or any keyword. -/
def identifierName : Parse Tree := do
  if !(← kind).isName then fail .identifierExpected
  let start ← here
  let name := (← lexer).value
  next
  finish start (.identifier name)

def identifier : Parse Tree := do
  if !(← isIdentifier) then fail .identifierExpected
  identifierName

def literal (kind : LiteralKind) : Parse Tree := do
  let start ← here
  let raw := (← lexer).text
  next
  finish start (.literal kind raw)

/-! ## Semicolons -/

/-- Whether a semicolon stands here or is supplied. -/
def canEndStatement : Parse Bool := do
  match ← kind with
  | .punct .semicolon | .punct .closeBrace | .endOfFile => return true
  | _ => afterLineBreak

def semicolon : Parse Unit := do
  if !(← acceptPunct .semicolon) then
    if !(← canEndStatement) then fail (.expected (.punct .semicolon))

/-- The subtree, or the place where it stands, as an assignment target. -/
def target (t : Tree) : Parse Tree :=
  match t.toTarget with
  | .ok t => return t
  | .error d => throw (.fault d)

end LoopClosure.Grammar
