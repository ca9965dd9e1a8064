import LoopClosure.Json.Basic

/-!
# Reading JSON

A strict reader of the JSON grammar. Each part is read off the front of the characters left.
-/

namespace LoopClosure.Json

abbrev Reader (α : Type) := List Char → Option (α × List Char)

def isBlank (c : Char) : Bool := c = ' ' || c = '\t' || c = '\n' || c = '\r'

def skipBlanks (cs : List Char) : List Char := cs.dropWhile isBlank

def hexDigit? (c : Char) : Option Nat :=
  if c.isDigit then some (c.toNat - '0'.toNat)
  else if 'a' ≤ c ∧ c ≤ 'f' then some (c.toNat - 'a'.toNat + 10)
  else if 'A' ≤ c ∧ c ≤ 'F' then some (c.toNat - 'A'.toNat + 10)
  else none

/-- The value of four hexadecimal digits. -/
def hexUnit? (a b c d : Char) : Option Nat := do
  return (((← hexDigit? a) * 16 + (← hexDigit? b)) * 16 + (← hexDigit? c)) * 16 + (← hexDigit? d)

def escape? : Char → Option Char
  | '"' => some '"'
  | '\\' => some '\\'
  | '/' => some '/'
  | 'b' => some '\x08'
  | 'f' => some '\x0c'
  | 'n' => some '\n'
  | 'r' => some '\r'
  | 't' => some '\t'
  | _ => none

/-- What a string literal has spelled so far: its characters, the last first, and the first half of
a pair of UTF-16 units that waits for the second. It is no longer `sound` once a half stood alone. -/
structure Spelled where
  reversed : List Char := []
  half : Option Nat := none
  sound : Bool := true

namespace Spelled

def char (s : Spelled) (c : Char) : Spelled :=
  { reversed := c :: s.reversed, sound := s.sound && s.half.isNone }

def unit (s : Spelled) (n : Nat) : Spelled :=
  if 0xD800 ≤ n ∧ n < 0xDC00 then { s with half := some n, sound := s.sound && s.half.isNone }
  else if 0xDC00 ≤ n ∧ n < 0xE000 then
    match s.half with
    | some high =>
      { s with
        reversed := Char.ofNat (0x10000 + (high - 0xD800) * 0x400 + (n - 0xDC00)) :: s.reversed
        half := none }
    | none => { s with sound := false }
  else s.char (Char.ofNat n)

def text? (s : Spelled) : Option String :=
  if s.sound && s.half.isNone then some (String.ofList s.reversed.reverse) else none

end Spelled

/-- The rest of a string, from behind its opening quote, with what was spelled before. -/
def stringRest? (s : Spelled) : Reader Spelled
  | [] => none
  | '\\' :: 'u' :: a :: b :: c :: d :: rest =>
    match hexUnit? a b c d with
    | some n => stringRest? (s.unit n) rest
    | none => none
  | '\\' :: e :: rest =>
    match escape? e with
    | some c => stringRest? (s.char c) rest
    | none => none
  | c :: rest =>
    if c = '"' then some (s, rest)
    else if c.toNat < 0x20 || c = '\\' then none
    else stringRest? (s.char c) rest

/-- A string literal, with its text if it spells one. -/
def stringLiteral? : Reader (Option String)
  | '"' :: rest => (stringRest? {} rest).map fun (s, rest) => (s.text?, rest)
  | _ => none

def named? : Option String × Json → Option (String × Json)
  | (name, value) => name.map (·, value)

/-- An object of members, all of whose names must be texts. -/
def ofMembers (members : List (Option String × Json)) : Json :=
  ((members.mapM named?).map object).getD textless

/-- A run of digits, at least one. -/
def digits? (cs : List Char) : Option (List Char × List Char) :=
  match cs.span Char.isDigit with
  | ([], _) => none
  | (ds, rest) => some (ds, rest)

/-- Digits without a superfluous leading zero. -/
def integer? : Reader (List Char)
  | '0' :: rest => some (['0'], rest)
  | cs => digits? cs

def fraction? : Reader (List Char)
  | '.' :: rest => (digits? rest).map fun (ds, rest) => ('.' :: ds, rest)
  | cs => some ([], cs)

def exponent? : Reader (List Char)
  | e :: rest =>
    if e = 'e' || e = 'E' then
      match rest with
      | s :: rest' =>
        if s = '+' || s = '-' then (digits? rest').map fun (ds, rest) => (e :: s :: ds, rest)
        else (digits? rest).map fun (ds, rest) => (e :: ds, rest)
      | [] => none
    else some ([], e :: rest)
  | [] => some ([], [])

def number? (cs : List Char) : Option (String × List Char) := do
  let (sign, rest) := if cs.head? = some '-' then (['-'], cs.tail) else ([], cs)
  let (whole, rest) ← integer? rest
  let (fraction, rest) ← fraction? rest
  let (exponent, rest) ← exponent? rest
  return (String.ofList (sign ++ whole ++ fraction ++ exponent), rest)

/-- Takes a word off the front. -/
def word? (word : List Char) (cs : List Char) : Option (List Char) :=
  if word.isPrefixOf cs then some (cs.drop word.length) else none

mutual

/-- A value, blanks before it passed over. Each step down takes a character, so the length of the
text is fuel enough. -/
def value? : Nat → Reader Json
  | 0, _ => none
  | n + 1, cs =>
    let cs := skipBlanks cs
    match cs with
    | 'n' :: _ => (word? ['n', 'u', 'l', 'l'] cs).map (.null, ·)
    | 't' :: _ => (word? ['t', 'r', 'u', 'e'] cs).map (.bool true, ·)
    | 'f' :: _ => (word? ['f', 'a', 'l', 's', 'e'] cs).map (.bool false, ·)
    | '"' :: _ =>
      (stringLiteral? cs).map fun (s, rest) => ((s.map string).getD textless, rest)
    | '[' :: rest =>
      match skipBlanks rest with
      | ']' :: rest => some (.array [], rest)
      | rest => (items? n [] rest).map fun (items, rest) => (.array items, rest)
    | '{' :: rest =>
      match skipBlanks rest with
      | '}' :: rest => some (.object [], rest)
      | rest => (members? n [] rest).map fun (members, rest) => (ofMembers members, rest)
    | _ => (number? cs).map fun (s, rest) => (.number s, rest)

/-- Items up to the closing bracket; `done` holds those before, reversed. -/
def items? : Nat → List Json → Reader (List Json)
  | 0, _, _ => none
  | n + 1, done, cs =>
    match value? n cs with
    | none => none
    | some (item, rest) =>
      match skipBlanks rest with
      | ',' :: rest => items? n (item :: done) rest
      | ']' :: rest => some ((item :: done).reverse, rest)
      | _ => none

/-- Members up to the closing brace; `done` holds those before, reversed. -/
def members? : Nat → List (Option String × Json) → Reader (List (Option String × Json))
  | 0, _, _ => none
  | n + 1, done, cs =>
    match stringLiteral? (skipBlanks cs) with
    | none => none
    | some (name, rest) =>
      match skipBlanks rest with
      | ':' :: rest =>
        match value? n rest with
        | none => none
        | some (item, rest) =>
          match skipBlanks rest with
          | ',' :: rest => members? n ((name, item) :: done) rest
          | '}' :: rest => some (((name, item) :: done).reverse, rest)
          | _ => none
      | _ => none

end

/-- The value that a whole text spells. -/
def read? (text : List Char) : Option Json := do
  let (value, rest) ← value? (text.length + 1) text
  if skipBlanks rest = [] then some value else none

end LoopClosure.Json
