import LoopClosure.Diagnostic

/-!
# Reports

How a failure is shown: a line with place, category and code, and on demand the line of the source
with the range underlined.
-/

namespace LoopClosure

/-- An appearance of text in a terminal. -/
inductive Style where
  | plain | bold (color : Nat) | color (color : Nat)
deriving DecidableEq, Repr

namespace Style

def red : Nat := 31

def yellow : Nat := 33

def cyan : Nat := 36

def brightBlue : Nat := 94

private def escape (codes : String) : String := "\x1b[" ++ codes ++ "m"

/-- Text in a style, closed by the code that resets it. -/
def apply (s : Style) (text : String) : String :=
  match s with
  | .plain => text
  | .bold c => escape ("1;" ++ toString c) ++ text ++ escape "0"
  | .color c => escape (toString c) ++ text ++ escape "0"

end Style

structure Reporter where
  /-- Show the line of the source. -/
  pretty : Bool
  /-- Use styles where the report is pretty. -/
  color : Bool
  /-- Texts by file. -/
  sources : List (String × List Char)
deriving DecidableEq, Repr

def Category.name : Category → String
  | .error => "error"
  | .warning => "warning"
  | .message => "message"

def Category.style : Category → Style
  | .error => .bold Style.red
  | .warning => .bold Style.yellow
  | .message => .bold Style.cyan

namespace Reporter

def styled (r : Reporter) (s : Style) (text : String) : String :=
  if r.pretty && r.color then s.apply text else text

/-- The column of an offset in its line, in bytes and from 1. -/
def column? (r : Reporter) (file : String) (offset : Nat) : Option Nat := do
  let map := Text.LineMap.ofText (← r.sources.lookup file)
  let start ← map.start? (map.lineOf offset)
  return offset - start + 1

def place (r : Reporter) (d : Diagnostic) : String :=
  if d.file = "" then "<unknown>"
  else if d.line = 0 then d.file
  else
    match r.column? d.file d.start with
    | some column => d.file ++ ":" ++ toString d.line ++ ":" ++ toString column
    | none => d.file ++ ":" ++ toString d.line

/-- The first line of a text. A carriage return in front of the line feed does not belong to it. -/
def firstLine : List Char → List Char
  | [] => []
  | '\r' :: '\n' :: _ => []
  | c :: cs => if c = '\n' then [] else c :: firstLine cs

def alignRight (width : Nat) (text : String) : String :=
  String.ofList (List.replicate (width - text.length) ' ') ++ text

/-- The line that a diagnostic names, with its range underlined as far as it lies on the line. -/
def snippet? (r : Reporter) (d : Diagnostic) : Option String := do
  let source ← r.sources.lookup d.file
  let start ← (Text.LineMap.ofText source).start? d.line
  let line := firstLine (← Text.dropBytes? start source)
  let column := d.start - start
  let width := max (min d.length (Text.size line - column)) 1
  let indent := ((Text.takeBytes? column line).getD []).map fun c => if c = '\t' then '\t' else ' '
  let underline := String.ofList (List.replicate width '~')
  return "\n  " ++ alignRight 3 (toString d.line) ++ "   " ++ String.ofList line ++ "\n        " ++
    String.ofList indent ++ r.styled (.color Style.red) underline

def diagnostic (r : Reporter) (d : Diagnostic) : String :=
  r.place d ++ " - " ++ r.styled d.category.style d.category.name ++ " " ++
    r.styled (.color Style.brightBlue) ("LS" ++ toString d.code) ++ ": " ++ d.message ++
    (if r.pretty then (r.snippet? d).getD "" else "")

def failure (r : Reporter) (file : String) : Failure → String
  | .defect d => r.diagnostic d
  | .internal message =>
    file ++ " - " ++ r.styled (.bold Style.red) "internal error" ++ ": " ++ message

end Reporter

end LoopClosure
