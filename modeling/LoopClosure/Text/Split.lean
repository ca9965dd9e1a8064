import LoopClosure.Text.CharClass

/-!
# Trimming, splitting and replacing

The few operations on character lists that the directive, message and argument grammars are
written in. A message template holds places for its arguments, a number in braces.
-/

namespace LoopClosure.Text

def trimStart (cs : List Char) : List Char := cs.dropWhile isWhiteSpace

def trimEnd (cs : List Char) : List Char := (cs.reverse.dropWhile isWhiteSpace).reverse

/-- Drops white space at both ends. -/
def trim (cs : List Char) : List Char := trimEnd (trimStart cs)

/-- The parts between the occurrences of `sep`; one more than there are occurrences. -/
def splitOn (sep : Char) : List Char → List (List Char)
  | [] => [[]]
  | c :: cs =>
    if c = sep then [] :: splitOn sep cs
    else
      match splitOn sep cs with
      | [] => [[c]]
      | part :: parts => (c :: part) :: parts

/-- The parts before and behind the first `sep`. -/
def splitOnce? (sep : Char) : List Char → Option (List Char × List Char)
  | [] => none
  | c :: cs =>
    if c = sep then some ([], cs) else (splitOnce? sep cs).map fun (a, b) => (c :: a, b)

/-- The parts before and behind the last `sep`. -/
def splitLast? (sep : Char) (cs : List Char) : Option (List Char × List Char) :=
  (splitOnce? sep cs.reverse).map fun (a, b) => (b.reverse, a.reverse)

private def replaceFrom (pattern new : List Char) : Nat → List Char → List Char
  | _, [] => []
  | skip + 1, _ :: cs => replaceFrom pattern new skip cs
  | 0, c :: cs =>
    if pattern.isPrefixOf (c :: cs) then new ++ replaceFrom pattern new (pattern.length - 1) cs
    else c :: replaceFrom pattern new 0 cs

/-- Puts `new` for each occurrence of a non-empty `pattern`, from the left, none overlapping. -/
def replaceAll (pattern new cs : List Char) : List Char := replaceFrom pattern new 0 cs

private theorem replaceFrom_cons (pattern new : List Char) (c : Char) (cs : List Char) :
    replaceFrom pattern new 0 (c :: cs) = if pattern.isPrefixOf (c :: cs) then
      new ++ replaceFrom pattern new (pattern.length - 1) cs
    else c :: replaceFrom pattern new 0 cs := rfl

private theorem replaceFrom_eq_drop (pattern new : List Char) (n : Nat) (cs : List Char) :
    replaceFrom pattern new n cs = replaceFrom pattern new 0 (cs.drop n) := by
  induction cs generalizing n with
  | nil => cases n <;> rfl
  | cons c cs ih =>
    cases n with
    | zero => rfl
    | succ n => exact ih n

theorem replaceAll_append {pattern : List Char} (h : pattern ≠ []) (new cs : List Char) :
    replaceAll pattern new (pattern ++ cs) = new ++ replaceAll pattern new cs := by
  obtain ⟨c, rest, rfl⟩ := List.exists_cons_of_ne_nil h
  have hpre : (c :: rest).isPrefixOf (c :: (rest ++ cs)) = true :=
    List.isPrefixOf_iff_prefix.2 (List.prefix_append (c :: rest) cs)
  rw [replaceAll, List.cons_append, replaceFrom_cons, if_pos hpre, replaceFrom_eq_drop,
    List.length_cons, Nat.add_sub_cancel, List.drop_left, replaceAll]

theorem replaceAll_cons {pattern : List Char} {c : Char} {cs : List Char}
    (h : ¬pattern <+: c :: cs) (new : List Char) :
    replaceAll pattern new (c :: cs) = c :: replaceAll pattern new cs := by
  rw [replaceAll, replaceFrom_cons, if_neg (mt List.isPrefixOf_iff_prefix.1 h), replaceAll]

theorem splitOn_ne_nil (sep : Char) (cs : List Char) : splitOn sep cs ≠ [] := by
  induction cs with
  | nil => simp [splitOn]
  | cons c cs ih =>
    unfold splitOn
    split
    · simp
    · split <;> simp

/-! ## Templates -/

/-- The place of argument `i`. -/
def placeholder (i : Nat) : List Char := '\x7b' :: (Nat.toDigits 10 i ++ ['\x7d'])

/-- Fills the places of the arguments numbered from `i` on, one argument after the other. What an
argument brings in is searched for the places of the later ones. -/
def fillFrom (i : Nat) (template : List Char) : List (List Char) → List Char
  | [] => template
  | arg :: args => fillFrom (i + 1) (replaceAll (placeholder i) arg template) args

/-- Fills a template with its arguments. -/
def fill (template : String) (args : List String) : String :=
  String.ofList (fillFrom 0 template.toList (args.map String.toList))

end LoopClosure.Text
