/-!
# Byte positions in a text

Positions are offsets into the UTF-8 form of a text. A text itself is a list of characters; `size`
is the length of its UTF-8 form, `slice?` the part between two offsets, and a `Cursor` an offset
together with what is left of the text there.

Offsets are not bounded. Where they are kept in 32 bits, what is said of every text holds of the
texts below `2 ^ 32` bytes, whose offsets all fit.
-/

namespace LoopClosure.Text

/-- Number of bytes of the UTF-8 form. -/
def size : List Char → Nat
  | [] => 0
  | c :: cs => c.utf8Size + size cs

/-- What is left after the first `n` bytes; `none` if byte `n` is not a character boundary. -/
def dropBytes? : Nat → List Char → Option (List Char)
  | 0, cs => some cs
  | _ + 1, [] => none
  | n + 1, c :: cs => if c.utf8Size ≤ n + 1 then dropBytes? (n + 1 - c.utf8Size) cs else none

/-- The first `n` bytes; `none` if byte `n` is not a character boundary. -/
def takeBytes? : Nat → List Char → Option (List Char)
  | 0, _ => some []
  | _ + 1, [] => none
  | n + 1, c :: cs =>
    if c.utf8Size ≤ n + 1 then (takeBytes? (n + 1 - c.utf8Size) cs).map (c :: ·) else none

/-- The bytes `start` to `stop`, where both are character boundaries in order. -/
def slice? (cs : List Char) (start stop : Nat) : Option (List Char) :=
  if start ≤ stop then (dropBytes? start cs).bind (takeBytes? (stop - start)) else none

def isBoundary (cs : List Char) (n : Nat) : Bool := (dropBytes? n cs).isSome

@[simp] theorem size_append (a b : List Char) : size (a ++ b) = size a + size b := by
  induction a with
  | nil => simp [size]
  | cons c a ih => simp [size, ih, Nat.add_assoc]

theorem utf8Size_pos (c : Char) : 0 < c.utf8Size := Char.utf8Size_pos c

theorem dropBytes?_size (a b : List Char) : dropBytes? (size a) (a ++ b) = some b := by
  induction a with
  | nil => simp [size, dropBytes?]
  | cons c a ih =>
    have hc := utf8Size_pos c
    obtain ⟨n, hn⟩ : ∃ n, size (c :: a) = n + 1 := ⟨size (c :: a) - 1, by simp [size]; omega⟩
    have hs : c.utf8Size + size a = n + 1 := hn
    simp [hn, dropBytes?, show c.utf8Size ≤ n + 1 by omega,
      show n + 1 - c.utf8Size = size a by omega, ih]

theorem takeBytes?_size (a b : List Char) : takeBytes? (size a) (a ++ b) = some a := by
  induction a with
  | nil => simp [size, takeBytes?]
  | cons c a ih =>
    have hc := utf8Size_pos c
    obtain ⟨n, hn⟩ : ∃ n, size (c :: a) = n + 1 := ⟨size (c :: a) - 1, by simp [size]; omega⟩
    have hs : c.utf8Size + size a = n + 1 := hn
    simp [hn, takeBytes?, show c.utf8Size ≤ n + 1 by omega,
      show n + 1 - c.utf8Size = size a by omega, ih]

theorem slice?_append (a b c : List Char) :
    slice? (a ++ b ++ c) (size a) (size a + size b) = some b := by
  simp [slice?, List.append_assoc, dropBytes?_size, takeBytes?_size]

/-- An offset and what is left of the text there. -/
structure Cursor where
  offset : Nat
  rest : List Char
deriving DecidableEq, Repr

namespace Cursor

def ofText (cs : List Char) : Cursor := ⟨0, cs⟩

/-- Passes one character; at the end of the text it stays. -/
def next (c : Cursor) : Cursor :=
  match c.rest with
  | [] => c
  | d :: ds => ⟨c.offset + d.utf8Size, ds⟩

/-- Passes `n` characters. -/
def skip : Nat → Cursor → Cursor
  | 0, c => c
  | n + 1, c => skip n c.next

def skipWhileFrom (p : Char → Bool) (offset : Nat) : List Char → Cursor
  | [] => ⟨offset, []⟩
  | d :: ds => if p d then skipWhileFrom p (offset + d.utf8Size) ds else ⟨offset, d :: ds⟩

/-- Passes the characters of a class. -/
def skipWhile (p : Char → Bool) (c : Cursor) : Cursor := skipWhileFrom p c.offset c.rest

def charsUpTo (stop offset : Nat) : List Char → List Char
  | [] => []
  | d :: ds => if offset < stop then d :: charsUpTo stop (offset + d.utf8Size) ds else []

/-- The characters that start before offset `stop`. -/
def upTo (c : Cursor) (stop : Nat) : List Char := charsUpTo stop c.offset c.rest

def peek? (c : Cursor) : Option Char := c.rest.head?

end Cursor

end LoopClosure.Text
