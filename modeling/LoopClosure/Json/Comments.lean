import LoopClosure.Text.CharClass

/-!
# JSON with comments

A configuration may hold comments and a comma behind the last item of a list. Both are taken out
before it is read; strings stay as they are.
-/

namespace LoopClosure.Json

/-- What a character of a commented text is part of. -/
inductive Region where
  | code | string | escape | lineComment | blockComment
deriving DecidableEq, Repr

/-- Takes out comments. Their line feeds stay. -/
def stripCommentsFrom : Region → List Char → List Char
  | _, [] => []
  | .code, '/' :: '/' :: cs => stripCommentsFrom .lineComment cs
  | .code, '/' :: '*' :: cs => stripCommentsFrom .blockComment cs
  | .code, c :: cs => c :: stripCommentsFrom (if c = '"' then .string else .code) cs
  | .string, c :: cs =>
    c :: stripCommentsFrom
      (if c = '\\' then .escape else if c = '"' then .code else .string) cs
  | .escape, c :: cs => c :: stripCommentsFrom .string cs
  | .lineComment, c :: cs =>
    if c = '\n' then c :: stripCommentsFrom .code cs else stripCommentsFrom .lineComment cs
  | .blockComment, '*' :: '/' :: cs => stripCommentsFrom .code cs
  | .blockComment, c :: cs =>
    if c = '\n' then c :: stripCommentsFrom .blockComment cs else stripCommentsFrom .blockComment cs

def stripComments (cs : List Char) : List Char := stripCommentsFrom .code cs

@[simp] theorem stripCommentsFrom_nil (r : Region) : stripCommentsFrom r [] = [] := by
  rw [stripCommentsFrom]

/-- Outside of strings and comments a character is copied that begins neither. -/
theorem stripCommentsFrom_code {c : Char} (hslash : c ≠ '/') (hquote : c ≠ '"') (cs : List Char) :
    stripCommentsFrom .code (c :: cs) = c :: stripCommentsFrom .code cs := by
  rw [stripCommentsFrom, if_neg hquote] <;> rintro _ rfl <;> exact absurd rfl hslash

/-- Whether a closing bracket is the next character that is no white space. -/
def closesNext (cs : List Char) : Bool :=
  match cs.find? fun c => !Text.isWhiteSpace c with
  | some c => c = '\x7d' || c = ']'
  | none => false

/-- Takes out commas in front of closing brackets. -/
def dropTrailingCommasFrom : Region → List Char → List Char
  | _, [] => []
  | .string, c :: cs =>
    c :: dropTrailingCommasFrom
      (if c = '\\' then .escape else if c = '"' then .code else .string) cs
  | .escape, c :: cs => c :: dropTrailingCommasFrom .string cs
  | r, c :: cs =>
    if c = '"' then c :: dropTrailingCommasFrom .string cs
    else if c = ',' && closesNext cs then dropTrailingCommasFrom r cs
    else c :: dropTrailingCommasFrom r cs

def dropTrailingCommas (cs : List Char) : List Char := dropTrailingCommasFrom .code cs

@[simp] theorem dropTrailingCommasFrom_nil (r : Region) : dropTrailingCommasFrom r [] = [] := by
  rw [dropTrailingCommasFrom]

/-- Outside of strings a character is copied that begins none and is no comma before a bracket. -/
theorem dropTrailingCommasFrom_code {c : Char} {cs : List Char} (hquote : c ≠ '"')
    (hcomma : c = ',' → closesNext cs = false) :
    dropTrailingCommasFrom .code (c :: cs) = c :: dropTrailingCommasFrom .code cs := by
  rw [dropTrailingCommasFrom, if_neg hquote, if_neg (by simpa using hcomma)] <;> simp

theorem dropTrailingCommasFrom_comma {cs : List Char} (h : closesNext cs = true) :
    dropTrailingCommasFrom .code (',' :: cs) = dropTrailingCommasFrom .code cs := by
  simp [dropTrailingCommasFrom, h]

end LoopClosure.Json
