import LoopClosure.Json.Basic

/-!
# Printing JSON
-/

namespace LoopClosure.Json

def hexChar (n : Nat) : Char := if n < 10 then Char.ofNat (48 + n) else Char.ofNat (87 + n)

/-- A character inside a string. Only quotes, backslashes and control characters are escaped. -/
def escapeChar (c : Char) : List Char :=
  if c = '"' then ['\\', '"']
  else if c = '\\' then ['\\', '\\']
  else if c = '\n' then ['\\', 'n']
  else if c = '\r' then ['\\', 'r']
  else if c = '\t' then ['\\', 't']
  else if c = '\x08' then ['\\', 'b']
  else if c = '\x0c' then ['\\', 'f']
  else if c.toNat < 0x20 then ['\\', 'u', '0', '0', hexChar (c.toNat / 16), hexChar (c.toNat % 16)]
  else [c]

def quote (s : String) : String := String.ofList ('"' :: (s.toList.flatMap escapeChar ++ ['"']))

private def spaces (n : Nat) : String := String.ofList (List.replicate n ' ')

mutual

/-- Without any blanks. What has no text is left open, as `null`. -/
def compact : Json → String
  | .null => "null"
  | .bool b => if b then "true" else "false"
  | .number spelling => spelling
  | .string s => quote s
  | .array items => "[" ++ compactItems items ++ "]"
  | .object members => "\x7b" ++ compactMembers members ++ "\x7d"
  | .textless => "null"

def compactItems : List Json → String
  | [] => ""
  | [v] => compact v
  | v :: vs => compact v ++ "," ++ compactItems vs

def compactMembers : List (String × Json) → String
  | [] => ""
  | [(name, v)] => quote name ++ ":" ++ compact v
  | (name, v) :: ms => quote name ++ ":" ++ compact v ++ "," ++ compactMembers ms

end

mutual

/-- With each item and member on a line of its own, two blanks deeper than `indent`. -/
def prettyAt (indent : Nat) : Json → String
  | .null => "null"
  | .bool b => if b then "true" else "false"
  | .number spelling => spelling
  | .string s => quote s
  | .array [] => "[]"
  | .object [] => "\x7b\x7d"
  | .array items => "[\n" ++ prettyItems (indent + 2) items ++ "\n" ++ spaces indent ++ "]"
  | .object members =>
    "\x7b\n" ++ prettyMembers (indent + 2) members ++ "\n" ++ spaces indent ++ "\x7d"
  | .textless => "null"

def prettyItems (indent : Nat) : List Json → String
  | [] => ""
  | [v] => spaces indent ++ prettyAt indent v
  | v :: vs => spaces indent ++ prettyAt indent v ++ ",\n" ++ prettyItems indent vs

def prettyMembers (indent : Nat) : List (String × Json) → String
  | [] => ""
  | [(name, v)] => spaces indent ++ quote name ++ ": " ++ prettyAt indent v
  | (name, v) :: ms =>
    spaces indent ++ quote name ++ ": " ++ prettyAt indent v ++ ",\n" ++ prettyMembers indent ms

end

def pretty (j : Json) : String := j.prettyAt 0

end LoopClosure.Json
