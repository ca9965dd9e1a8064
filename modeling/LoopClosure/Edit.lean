import LoopClosure.Sorting
import LoopClosure.Text.Cursor

/-!
# Edits of a text

Edits address byte offsets of a source and are applied all at once. None is ever taken out of the
list: one that is superseded is made inactive. Of the edits at one offset, insertions behind what
ends there come first, then plain insertions, then insertions in front of what starts there, then
replacements; within a kind the order of the calls decides. Offsets are those of `Text.Cursor`.
-/

namespace LoopClosure

inductive EditKind where
  | insertAfter | insert | insertBefore | replace
deriving DecidableEq, Repr

/-- Place among the kinds at one offset. -/
def EditKind.rank : EditKind → Nat
  | .insertAfter => 0
  | .insert => 1
  | .insertBefore => 2
  | .replace => 3

/-- `text` in place of the bytes from `start` up to `stop`, which are equal for an insertion. -/
structure Edit where
  kind : EditKind
  start : Nat
  stop : Nat
  text : String
  active : Bool := true
deriving DecidableEq, Repr

namespace Edit

def isReplacement (e : Edit) : Bool := e.kind = .replace

/-- Whether `a` does not come behind `b` when both are applied. -/
def precedes (a b : Edit) : Bool :=
  a.start < b.start || a.start = b.start && a.kind.rank ≤ b.kind.rank

end Edit

/-- Why edits cannot be applied. -/
inductive EditError where
  | outside (start stop size : Nat)
  | insideReplacement (position : Nat)
  | overlap (start stop start' stop' : Nat)
  | offBoundary (start stop : Nat)
deriving DecidableEq, Repr

namespace EditError

private def range (start stop : Nat) : String := "[" ++ toString start ++ ", " ++ toString stop ++ ")"

def message : EditError → String
  | .outside start stop size =>
    "edit " ++ range start stop ++ " lies outside the source (length " ++ toString size ++ ")"
  | .insideReplacement position =>
    "insert at " ++ toString position ++ " falls inside a replaced range"
  | .overlap start stop start' stop' =>
    "replacements " ++ range start stop ++ " and " ++ range start' stop' ++ " overlap"
  | .offBoundary start stop =>
    "edit boundary " ++ range start stop ++ " is not a character boundary"

end EditError

abbrev EditId := Nat

/-- A source and its edits, in the order of the calls. -/
structure Edits where
  source : List Char
  edits : Array Edit := #[]
deriving DecidableEq, Repr

namespace Edits

/-- The characters of a range; none if it is no range of the source. -/
def get (b : Edits) (start stop : Nat) : List Char := (Text.slice? b.source start stop).getD []

/-- Adds an edit; its id is the number of edits before it. -/
def push (b : Edits) (kind : EditKind) (start stop : Nat) (text : String) : Edits × EditId :=
  ({ b with edits := b.edits.push { kind, start, stop, text } }, b.edits.size)

def replace (b : Edits) (start stop : Nat) (text : String) : Edits :=
  (b.push .replace start stop text).1

def insert (b : Edits) (position : Nat) (text : String) : Edits :=
  (b.push .insert position position text).1

def insertBefore (b : Edits) (position : Nat) (text : String) : Edits :=
  (b.push .insertBefore position position text).1

def insertAfter (b : Edits) (position : Nat) (text : String) : Edits :=
  (b.push .insertAfter position position text).1

def deactivate (b : Edits) (id : EditId) : Edits :=
  { b with edits := b.edits.modify id fun e => { e with active := false } }

def edit? (b : Edits) (id : EditId) : Option Edit := b.edits[id]?

/-- In the order of the calls. -/
def active (b : Edits) : List Edit := b.edits.toList.filter (·.active)

/-! ## Applying -/

/-- The active edits in the order in which they are written. -/
def ordered (b : Edits) : List Edit := sortBy Edit.precedes b.active

/-- What is wrong with the place of an edit, given the replacements. -/
def misplaced? (size : Nat) (replacements : List Edit) (e : Edit) : Option EditError :=
  if e.stop < e.start || size < e.stop then some (.outside e.start e.stop size)
  else if !e.isReplacement && replacements.any fun r => r.start < e.start && e.start < r.stop then
    some (.insideReplacement e.start)
  else none

/-- The first replacement that starts before its predecessor ends. -/
def overlap? : List Edit → Option EditError
  | a :: b :: es =>
    if b.start < a.stop then some (.overlap a.start a.stop b.start b.stop) else overlap? (b :: es)
  | _ => none

/-- The source from `start` up to `stop`. -/
def copy (source : List Char) (start stop : Nat) : Except EditError (List Char) :=
  match Text.slice? source start stop with
  | some cs => .ok cs
  | none => .error (.offBoundary start stop)

/-- Writes the source from `cursor` on, with ordered edits. -/
def write (source : List Char) : Nat → List Edit → Except EditError (List Char)
  | cursor, [] => copy source cursor (Text.size source)
  | cursor, e :: es => do
    let before ← if cursor < e.start then copy source cursor e.start else .ok []
    let next := if e.isReplacement then max (max cursor e.start) e.stop else max cursor e.start
    let behind ← write source next es
    return before ++ e.text.toList ++ behind

/-- The source with every active edit applied. -/
def apply (b : Edits) : Except EditError (List Char) :=
  let replacements := b.ordered.filter (·.isReplacement)
  match b.ordered.findSome? (misplaced? (Text.size b.source) replacements) with
  | some e => .error e
  | none =>
    match overlap? replacements with
    | some e => .error e
    | none => write b.source 0 b.ordered

end Edits

end LoopClosure
