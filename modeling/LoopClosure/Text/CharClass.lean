import LoopClosure.Text.Tables

/-!
# Character classes

The Unicode classes that the token grammar and the directive grammar refer to. `Char.isAlpha` and
its kin know ASCII only; these agree with them there and follow the property tables beyond.
-/

namespace LoopClosure.Text

/-- Membership in a list of closed ranges. -/
def inRanges (n : Nat) (ranges : List (Nat × Nat)) : Bool :=
  ranges.any fun r => r.1 ≤ n && n ≤ r.2

/-- The property `Alphabetic`. -/
def isAlphabetic (c : Char) : Bool :=
  if c.toNat < 128 then c.isAlpha else inRanges c.toNat alphabeticRanges

/-- The general categories `Nd`, `Nl` and `No`. -/
def isNumeric (c : Char) : Bool :=
  if c.toNat < 128 then c.isDigit else inRanges c.toNat numericRanges

/-- Ranges of the property `White_Space`. -/
def whiteSpaceRanges : List (Nat × Nat) :=
  [(9, 13), (32, 32), (133, 133), (160, 160), (5760, 5760), (8192, 8202), (8232, 8233),
   (8239, 8239), (8287, 8287), (12288, 12288)]

/-- The property `White_Space`. -/
def isWhiteSpace (c : Char) : Bool := inRanges c.toNat whiteSpaceRanges

/-- The four line terminators of the language. -/
def isLineBreak (c : Char) : Bool :=
  c = '\n' || c = '\r' || c = '\u2028' || c = '\u2029'

def isIdentifierStart (c : Char) : Bool := c = '$' || c = '_' || isAlphabetic c

/-- The zero-width joiners U+200C and U+200D continue a name but do not start one. -/
def isIdentifierPart (c : Char) : Bool :=
  c = '$' || c = '_' || c = '\u200c' || c = '\u200d' || isAlphabetic c || isNumeric c

/-- A digit of radix 2, 8, 10 or 16. -/
def isDigitOf (radix : Nat) (c : Char) : Bool :=
  let value :=
    if c.isDigit then c.toNat - '0'.toNat
    else if 'a' ≤ c ∧ c ≤ 'f' then c.toNat - 'a'.toNat + 10
    else if 'A' ≤ c ∧ c ≤ 'F' then c.toNat - 'A'.toNat + 10
    else 16
  value < radix

theorem isLineBreak_isWhiteSpace {c : Char} (h : isLineBreak c = true) : isWhiteSpace c = true := by
  have h : c = '\n' ∨ c = '\r' ∨ c = '\u2028' ∨ c = '\u2029' := by
    simpa [isLineBreak, or_assoc] using h
  rcases h with rfl | rfl | rfl | rfl <;> decide

theorem isIdentifierPart_of_start {c : Char} (h : isIdentifierStart c = true) :
    isIdentifierPart c = true := by
  simp only [isIdentifierStart, Bool.or_eq_true] at h
  simp only [isIdentifierPart, Bool.or_eq_true]
  rcases h with (h | h) | h <;> simp [h]

end LoopClosure.Text
