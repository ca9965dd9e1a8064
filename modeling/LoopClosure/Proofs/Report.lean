import LoopClosure.Proofs.Text.Lines
import LoopClosure.Proofs.Text.Split
import Mathlib.Data.Nat.Digits.Defs

/-!
# What a report shows of the source

- `Text.IsLine cs n before text terminator after`: line `n` of a text as its line map has it. The
  next line starts behind the terminator.
- `Reporter.Spot source d`: the line of a diagnostic and its range, as parts of the source.
- `Spot.snippet`: the text of the line, and below it the underline, under the first character of the
  range and as wide as the characters of the range that lie on the line.

The reporter prints another snippet where a carriage return ends the line, where the range begins
between a carriage return and its line feed, where a character that is underlined has more than one
byte, and from line 1000 on. In all other cases it prints this one (`snippet?_eq_iff`).
-/

namespace LoopClosure

namespace Text

variable {cs before text terminator after : List Char} {n s i : Nat}

/-! ## Lines and their terminators -/

/-- A character that is no part of a line terminator. -/
def isInline (c : Char) : Bool := c ≠ '\n' && c ≠ '\r'

/-- What ends a line in front of the text `after`. -/
inductive Terminates : List Char → List Char → Prop
  | endOfText : Terminates [] []
  | lineFeed (after : List Char) : Terminates ['\n'] after
  | both (after : List Char) : Terminates ['\r', '\n'] after
  | carriageReturn (after : List Char) (h : after.head? ≠ some '\n') : Terminates ['\r'] after

/-- Line `n` of a text, between what stands before it and its terminator. -/
structure IsLine (cs : List Char) (n : Nat) (before text terminator after : List Char) : Prop where
  eq : cs = before ++ (text ++ (terminator ++ after))
  start : (LineMap.ofText cs).start? n = some (size before)
  inline : ∀ c ∈ text, isInline c = true
  terminates : Terminates terminator after
  next : (LineMap.ofText cs).start? (n + 1) =
    if terminator = [] then none else some (size before + size text + size terminator)

theorem lineEnds_cons_of_inline {c : Char} (h : isInline c = true) (n : Nat) (cs : List Char) :
    lineEnds n (c :: cs) = lineEnds (n + c.utf8Size) cs := by
  obtain ⟨hlf, hcr⟩ : c ≠ '\n' ∧ c ≠ '\r' := by simpa [isInline] using h
  rw [lineEnds]
  · simp [hlf, hcr]
  · rintro - rfl -
    exact hcr rfl

theorem lineEnds_append (h : ∀ c ∈ text, isInline c = true) (n : Nat) (cs : List Char) :
    lineEnds n (text ++ cs) = lineEnds (n + size text) cs := by
  induction text generalizing n with
  | nil => rfl
  | cons c text ih =>
    obtain ⟨hc, htext⟩ := List.forall_mem_cons.1 h
    rw [List.cons_append, lineEnds_cons_of_inline hc, ih htext, size, Nat.add_assoc]

/-- A line that ends before the text does is followed by the start of another one. -/
theorem Terminates.lineEnds_eq (h : Terminates terminator after)
    (htext : ∀ c ∈ text, isInline c = true) (n : Nat) :
    lineEnds n (text ++ (terminator ++ after)) = if terminator = [] then [] else
      (n + size text + size terminator) :: lineEnds (n + size text + size terminator) after := by
  rw [lineEnds_append htext]
  cases h with
  | endOfText => rfl
  | lineFeed => rfl
  | both => rfl
  | carriageReturn after h =>
    rw [List.singleton_append, lineEnds]
    · rfl
    · intro cs _ hafter
      exact h (hafter ▸ rfl)

/-- A text goes on to its first line terminator. -/
theorem exists_terminates (cs : List Char) : ∃ text terminator after,
    cs = text ++ (terminator ++ after) ∧ (∀ c ∈ text, isInline c = true) ∧
      Terminates terminator after := by
  induction cs with
  | nil => exact ⟨[], [], [], rfl, by simp, .endOfText⟩
  | cons c cs ih =>
    by_cases hc : isInline c = true
    · obtain ⟨text, terminator, after, rfl, htext, hterm⟩ := ih
      exact ⟨c :: text, terminator, after, rfl, List.forall_mem_cons.2 ⟨hc, htext⟩, hterm⟩
    · rcases (by simpa [isInline, or_iff_not_imp_left] using hc : c = '\n' ∨ c = '\r') with
        rfl | rfl
      · exact ⟨[], ['\n'], cs, rfl, by simp, .lineFeed cs⟩
      · cases cs with
        | nil => exact ⟨[], ['\r'], [], rfl, by simp, .carriageReturn [] (by simp)⟩
        | cons d cs =>
          by_cases hd : d = '\n'
          · subst hd
            exact ⟨[], ['\r', '\n'], cs, rfl, by simp, .both cs⟩
          · exact ⟨[], ['\r'], d :: cs, rfl, by simp, .carriageReturn _ (by simpa using hd)⟩

/-- The line map of a text goes on with that of what stands behind the start of a line. -/
theorem exists_rest (h : (LineMap.ofText cs).starts[i]? = some s) : ∃ before rest,
    cs = before ++ rest ∧ size before = s ∧
      (LineMap.ofText cs).starts.drop (i + 1) = lineEnds s rest := by
  induction i generalizing s with
  | zero =>
    obtain rfl : 0 = s := Option.some.inj h
    exact ⟨[], cs, rfl, rfl, rfl⟩
  | succ i ih =>
    obtain ⟨hlt, -⟩ := List.getElem?_eq_some_iff.1 h
    obtain ⟨before, rest, heq, hsize, hdrop⟩ := ih (List.getElem?_eq_getElem (Nat.lt_of_succ_lt hlt))
    obtain ⟨text, terminator, after, rfl, htext, hterm⟩ := exists_terminates rest
    rw [← hsize, hterm.lineEnds_eq htext] at hdrop
    have hhead := List.head?_drop (l := (LineMap.ofText cs).starts) (i := i + 1)
    have htail := List.tail_drop (l := (LineMap.ofText cs).starts) (i := i + 1)
    rw [hdrop] at hhead htail
    split at hhead
    · cases hhead.trans h
    · next hne =>
      obtain rfl := Option.some.inj (hhead.trans h)
      rw [if_neg hne, List.tail_cons] at htail
      exact ⟨before ++ text ++ terminator, after, by simp [heq],
        by simp [Nat.add_assoc], htail.symm⟩

/-- Every line that a line map has is a line of the text. -/
theorem exists_isLine (h : (LineMap.ofText cs).start? n = some s) :
    ∃ before text terminator after, IsLine cs n before text terminator after := by
  cases n with
  | zero => cases h
  | succ i =>
    obtain ⟨before, rest, heq, rfl, hdrop⟩ := exists_rest h
    obtain ⟨text, terminator, after, rfl, htext, hterm⟩ := exists_terminates rest
    refine ⟨before, text, terminator, after, heq, h, htext, hterm, ?_⟩
    have hhead := List.head?_drop (l := (LineMap.ofText cs).starts) (i := i + 1)
    rw [hdrop, hterm.lineEnds_eq htext] at hhead
    rw [LineMap.start?, ← hhead]
    split <;> rfl

/-! ## Sizes and characters -/

theorem length_le_size (cs : List Char) : cs.length ≤ size cs := by
  induction cs with
  | nil => exact Nat.le_refl _
  | cons c cs ih =>
    have := utf8Size_pos c
    rw [List.length_cons, size]
    omega

/-- A text has as many bytes as characters if each of them has one. -/
theorem size_eq_length_iff : size cs = cs.length ↔ ∀ c ∈ cs, c.utf8Size = 1 := by
  induction cs with
  | nil => simp [size]
  | cons c cs ih =>
    have hc := utf8Size_pos c
    have hcs := length_le_size cs
    rw [List.forall_mem_cons, ← ih, size, List.length_cons]
    omega

end Text

namespace Reporter

open Text (LineMap size isInline IsLine Terminates)

variable {source terminator after : List Char} {d : Diagnostic} {r : Reporter} {n w w' : Nat}
  {text text' blanks blanks' : List Char}

/-! ## Where a diagnostic points -/

/-- The line and the range of a diagnostic in a source. -/
structure Spot (source : List Char) (d : Diagnostic) where
  /-- What stands in front of the line. -/
  before : List Char
  /-- The line without its terminator. -/
  text : List Char
  terminator : List Char
  /-- What stands behind the line. -/
  after : List Char
  /-- From the start of the line to the start of the range. -/
  here : List Char
  range : List Char
  /-- What stands behind the range. -/
  behind : List Char
  isLine : IsLine source d.line before text terminator after
  eq : source = before ++ (here ++ (range ++ behind))
  start : d.start = size before + size here
  length : d.length = size range
  line : d.line = (LineMap.ofText source).lineOf d.start

/-- What stands below a character so that the next one stands below the next one. -/
def blank (c : Char) : Char := if c = '\t' then '\t' else ' '

/-- What stands in front of the text of a line. -/
def margin (line : Nat) : List Char := ("  " ++ alignRight 3 (toString line) ++ "   ").toList

def underline (r : Reporter) (width : Nat) : String :=
  r.styled (.color Style.red) (String.ofList (List.replicate width '~'))

/-- The two rows of a snippet: the margin and the text, and the underline behind blanks. -/
def rows (r : Reporter) (line : Nat) (text blanks : List Char) (width : Nat) : String :=
  "\n" ++ String.ofList (margin line) ++ String.ofList text ++ "\n" ++ String.ofList blanks ++
    r.underline width

namespace Spot

/-- The characters of the range that lie on the line. -/
def onLine (p : Spot source d) : List Char := p.range.takeWhile isInline

/-- The snippet that shows the line and underlines the range. -/
def snippet (p : Spot source d) (r : Reporter) : String :=
  r.rows d.line p.text
    (List.replicate (margin d.line).length ' ' ++ p.here.map blank) (max p.onLine.length 1)

/-- What a line and a range are like where the reporter prints this snippet. -/
structure Plain (p : Spot source d) : Prop where
  line : d.line < 1000
  /-- No carriage return alone ends the line. -/
  terminator : p.terminator ≠ ['\r']
  /-- The range does not begin between a carriage return and its line feed. -/
  here : '\r' ∉ p.here
  /-- The characters that are underlined have one byte each. -/
  onLine : ∀ c ∈ p.onLine, c.utf8Size = 1

end Spot

/-- A diagnostic whose range begins and ends between characters has its spot. -/
theorem exists_spot (hstart : Text.isBoundary source d.start = true)
    (hstop : Text.isBoundary source (d.start + d.length) = true)
    (hline : d.line = (LineMap.ofText source).lineOf d.start) : Nonempty (Spot source d) := by
  obtain ⟨s, hs, hle⟩ := LineMap.exists_start?_lineOf source d.start
  rw [← hline] at hs
  obtain ⟨before, text, terminator, after, h⟩ := Text.exists_isLine hs
  obtain rfl : size before = s := Option.some.inj (h.start.symm.trans hs)
  obtain ⟨range, hrange⟩ := Option.isSome_iff_exists.1
    (Text.slice?_isSome_iff.2 ⟨Nat.le_add_right _ _, hstart, hstop⟩)
  obtain ⟨front, behind, heq, hfront, hstop⟩ := Text.slice?_eq_some_iff.1 hrange
  have hsource : before ++ (text ++ (terminator ++ after)) = front ++ (range ++ behind) :=
    h.eq.symm.trans (heq.trans (List.append_assoc _ _ _))
  obtain ⟨here, rfl, -⟩ := Text.exists_middle hsource (hfront ▸ hle)
  rw [Text.size_append] at hfront hstop
  exact ⟨{ before, text, terminator, after, here, range, behind, isLine := h
           eq := by simpa using heq
           start := hfront.symm
           length := by omega
           line := hline }⟩

/-! ## The line -/

theorem firstLine_append {text : List Char} (h : ∀ c ∈ text, isInline c = true) (cs : List Char) :
    firstLine (text ++ cs) = text ++ firstLine cs := by
  induction text with
  | nil => rfl
  | cons c text ih =>
    obtain ⟨hc, htext⟩ := List.forall_mem_cons.1 h
    obtain ⟨hlf, hcr⟩ : c ≠ '\n' ∧ c ≠ '\r' := by simpa [isInline] using hc
    rw [List.cons_append, firstLine, if_neg hlf, ih htext, List.cons_append]
    rintro _ rfl -
    exact hcr rfl

theorem firstLine_eq_nil_iff (h : Terminates terminator after) :
    firstLine (terminator ++ after) = [] ↔ terminator ≠ ['\r'] := by
  cases h with
  | endOfText => simp [firstLine]
  | lineFeed => simp [firstLine]
  | both => simp [firstLine]
  | carriageReturn after h =>
    rw [List.singleton_append, firstLine]
    · simp
    · intro cs _ hafter
      exact h (hafter ▸ rfl)

theorem newline_not_mem_firstLine (cs : List Char) : '\n' ∉ firstLine cs := by
  fun_induction firstLine cs with
  | case1 => simp
  | case2 => simp
  | case3 => simp
  | case4 c cs _ hc ih => exact List.not_mem_cons_of_ne_of_not_mem (Ne.symm hc) ih

/-! ## The two rows -/

/-- An underline begins with a character that is no blank, and tells its width. -/
theorem exists_underline (r : Reporter) : ∃ c, c ≠ ' ' ∧ c ≠ '\t' ∧ ∃ k, ∀ w, 0 < w →
    ∃ rest, (r.underline w).toList = c :: rest ∧ rest.length + 1 = w + k := by
  by_cases h : (r.pretty && r.color) = true
  · have hstyled (w : Nat) : (r.underline w).toList = '\x1b' ::
        (['[', '3', '1', 'm'] ++ List.replicate w '~' ++ ['\x1b', '[', '0', 'm']) := by
      have happly : r.underline w = ("\x1b[" ++ toString Style.red ++ "m") ++
          String.ofList (List.replicate w '~') ++ ("\x1b[" ++ "0" ++ "m") := by
        rw [underline, styled, if_pos h]
        rfl
      have hred : Nat.toDigits 10 31 = ['3', '1'] := by decide
      rw [happly]
      simp [Style.red, hred]
    exact ⟨'\x1b', by decide, by decide, 9, fun w _ => ⟨_, hstyled w, by simp⟩⟩
  · refine ⟨'~', by decide, by decide, 0, fun w hw => ?_⟩
    obtain ⟨w, rfl⟩ := Nat.exists_eq_succ_of_ne_zero (Nat.ne_of_gt hw)
    refine ⟨List.replicate w '~', ?_, by simp⟩
    rw [underline, styled, if_neg h, String.toList_ofList, List.replicate_succ]

theorem toList_rows (r : Reporter) (n : Nat) (text blanks : List Char) (w : Nat) :
    (r.rows n text blanks w).toList =
      '\n' :: (margin n ++ (text ++ '\n' :: (blanks ++ (r.underline w).toList))) := by
  simp [rows]

/-- Two snippets for a line are the same only if they have the same parts. -/
theorem rows_inj (htext : '\n' ∉ text) (htext' : '\n' ∉ text')
    (hblanks : ∀ c ∈ blanks, c = ' ' ∨ c = '\t') (hblanks' : ∀ c ∈ blanks', c = ' ' ∨ c = '\t')
    (hw : 0 < w) (hw' : 0 < w') : r.rows n text blanks w = r.rows n text' blanks' w' ↔
      text = text' ∧ blanks = blanks' ∧ w = w' := by
  refine ⟨fun h => ?_, by rintro ⟨rfl, rfl, rfl⟩; rfl⟩
  obtain ⟨u, hspace, htab, k, hunder⟩ := exists_underline r
  obtain ⟨rest, hrest, hlen⟩ := hunder w hw
  obtain ⟨rest', hrest', hlen'⟩ := hunder w' hw'
  have hu {bs : List Char} (hbs : ∀ c ∈ bs, c = ' ' ∨ c = '\t') : u ∉ bs := fun hmem =>
    (hbs u hmem).elim hspace htab
  have hlist := congrArg String.toList h
  rw [toList_rows, toList_rows, hrest, hrest'] at hlist
  have htail := List.append_cancel_left (List.cons.inj hlist).2
  obtain ⟨htext, hbelow⟩ := Text.eq_of_append_sep htext htext' htail
  obtain ⟨hblanks, hunder⟩ := Text.eq_of_append_sep (hu hblanks) (hu hblanks') hbelow
  refine ⟨htext, hblanks, ?_⟩
  have := congrArg List.length hunder
  omega

theorem blank_cases (c : Char) : blank c = ' ' ∨ blank c = '\t' := by
  rw [blank]
  split
  · exact .inr rfl
  · exact .inl rfl

theorem length_margin (n : Nat) :
    (margin n).length = 8 + ((toString n).length - 3) := by
  have hdigits : (Nat.toDigits 10 n).length = n.repr.length := by simp [Nat.repr]
  simp [margin, alignRight, hdigits]
  omega

theorem length_margin_eq_iff (n : Nat) : (margin n).length = 8 ↔ n < 1000 := by
  have hdigits : (toString n).length ≤ 3 ↔ n < 1000 := by
    simpa using Nat.length_repr_le_iff (n := n) (k := 3) (by decide)
  rw [length_margin, ← hdigits]
  omega

/-- What the reporter prints for a line and a range. -/
theorem snippet?_eq (hsource : r.sources.lookup d.file = some source) (p : Spot source d) :
    r.snippet? d = some (r.rows d.line (firstLine (p.text ++ (p.terminator ++ p.after)))
      (List.replicate 8 ' ' ++ ((Text.takeBytes? (size p.here)
        (firstLine (p.text ++ (p.terminator ++ p.after)))).getD []).map blank)
      (max (min (size p.range) (size (firstLine (p.text ++ (p.terminator ++ p.after))) -
        size p.here)) 1)) := by
  have hdrop := Text.dropBytes?_size p.before (p.text ++ (p.terminator ++ p.after))
  rw [← p.isLine.eq] at hdrop
  have hcolumn : d.start - size p.before = size p.here := by
    rw [p.start, Nat.add_sub_cancel_left]
  rw [snippet?, hsource]
  simp only [Option.bind_eq_bind, Option.bind_some, p.isLine.start, hdrop, hcolumn, p.length]
  refine congrArg some (String.toList_inj.1 ?_)
  rw [toList_rows]
  simp [margin, underline, blank]

/-! ## The range on its line -/

theorem Terminates.head (h : Terminates terminator after) {c : Char} {cs : List Char}
    (heq : terminator ++ after = c :: cs) : isInline c = false := by
  cases h <;> cases heq <;> decide

/-- The characters of a range up to the terminator of the line that it begins on. -/
theorem size_takeWhile {range behind ms rest : List Char} (hms : ∀ c ∈ ms, isInline c = true)
    (hrest : ∀ c cs, rest = c :: cs → isInline c = false) (heq : range ++ behind = ms ++ rest) :
    size (range.takeWhile isInline) = min (size range) (size ms) := by
  rcases Nat.le_total (size range) (size ms) with hle | hle
  · obtain ⟨xs, rfl, -⟩ := Text.exists_middle heq hle
    rw [List.takeWhile_eq_self_iff.2 fun c hc => hms c (List.mem_append_left _ hc),
      Nat.min_eq_left hle]
  · obtain ⟨xs, rfl, rfl⟩ := Text.exists_middle heq.symm hle
    have hxs : xs.takeWhile isInline = [] := by
      cases xs with
      | nil => rfl
      | cons c xs => exact List.takeWhile_cons_of_neg (by simp [hrest c (xs ++ behind) rfl])
    rw [List.takeWhile_append_of_pos hms, hxs, List.append_nil, Nat.min_eq_right hle]

namespace Spot

variable (p : Spot source d)

theorem here_append : p.here ++ (p.range ++ p.behind) = p.text ++ (p.terminator ++ p.after) :=
  List.append_cancel_left (p.eq.symm.trans p.isLine.eq)

/-- A range begins on the text of its line or behind it, or else between a carriage return and its
line feed. -/
theorem here_cases :
    (∃ ms, p.text = p.here ++ ms ∧ p.range ++ p.behind = ms ++ (p.terminator ++ p.after)) ∨
      p.here = p.text ++ ['\r'] := by
  rcases Nat.le_total (size p.here) (size p.text) with hle | hle
  · exact .inl (Text.exists_middle p.here_append hle)
  obtain ⟨ms, hhere, hms⟩ := Text.exists_middle p.here_append.symm hle
  have hnext := p.isLine.next
  rw [p.line] at hnext
  cases ms with
  | nil => exact .inl ⟨[], by simp [hhere], by simpa using hms.symm⟩
  | cons c ms =>
    have hpos := Text.utf8Size_pos c
    have hstart : d.start = size p.before + (size p.text + (c.utf8Size + size ms)) := by
      rw [p.start, hhere, Text.size_append, size]
    have hterm := p.isLine.terminates
    generalize p.terminator = terminator at hms hnext hterm
    generalize p.after = after at hms hterm
    have hlt (hne : terminator ≠ []) : c.utf8Size + size ms < size terminator := by
      rw [if_neg hne] at hnext
      have := LineMap.lt_of_start?_succ hnext
      omega
    cases hterm with
    | endOfText => cases hms
    | lineFeed =>
      have hlt : c.utf8Size + size ms < 1 := hlt (by simp)
      omega
    | both =>
      have hlt : c.utf8Size + size ms < 2 := hlt (by simp)
      obtain rfl : '\r' = c := (List.cons.inj hms).1
      have hempty : ms = [] := by
        by_contra hne
        have := Text.size_pos hne
        omega
      exact .inr (hempty ▸ hhere)
    | carriageReturn =>
      have hlt : c.utf8Size + size ms < 1 := hlt (by simp)
      omega

theorem notMem_text : '\r' ∉ p.text := fun h => absurd (p.isLine.inline _ h) (by decide)

/-- The blanks under the line reach to the range exactly if the margin has its usual width and the
range does not begin behind the text of the line. -/
theorem blanks_eq_iff : List.replicate 8 ' ' ++
      ((Text.takeBytes? (size p.here) p.text).getD []).map blank =
        List.replicate (margin d.line).length ' ' ++ p.here.map blank ↔
    d.line < 1000 ∧ '\r' ∉ p.here := by
  rw [← length_margin_eq_iff]
  rcases p.here_cases with ⟨ms, htext, -⟩ | hhere
  · have hreturn : '\r' ∉ p.here := fun h =>
      p.notMem_text (htext ▸ List.mem_append_left _ h)
    have htake : Text.takeBytes? (size p.here) p.text = some p.here := by
      rw [htext]
      exact Text.takeBytes?_size _ _
    rw [htake, Option.getD_some, List.append_left_inj]
    refine ⟨fun h => ⟨?_, hreturn⟩, fun h => by rw [h.1]⟩
    simpa using (congrArg List.length h).symm
  · have htake : Text.takeBytes? (size p.here) p.text = none := by
      refine Option.eq_none_iff_forall_ne_some.2 fun as h => ?_
      obtain ⟨bs, htext, hsize⟩ := Text.takeBytes?_eq_some_iff.1 h
      have hle : size as ≤ size p.text := by
        rw [htext, Text.size_append]
        exact Nat.le_add_right _ _
      rw [hsize, hhere, Text.size_append] at hle
      exact absurd hle (Nat.not_le_of_lt (Nat.lt_succ_self (size p.text)))
    rw [htake]
    refine iff_of_false (fun h => ?_) fun h => h.2 (by simp [hhere])
    have hlen := congrArg List.length h
    rw [hhere] at hlen
    simp [length_margin] at hlen
    omega

/-- The underline has the width of the characters exactly if they have one byte each. -/
theorem width_eq_iff (h : '\r' ∉ p.here) :
    max (min (size p.range) (size p.text - size p.here)) 1 = max p.onLine.length 1 ↔
      ∀ c ∈ p.onLine, c.utf8Size = 1 := by
  rcases p.here_cases with ⟨ms, htext, heq⟩ | hhere
  · have hms : size p.text - size p.here = size ms := by
      rw [htext, Text.size_append, Nat.add_sub_cancel_left]
    have hinline (c : Char) (hc : c ∈ ms) : isInline c = true :=
      p.isLine.inline c (htext ▸ List.mem_append_right _ hc)
    have hsize : size p.onLine = min (size p.range) (size ms) :=
      size_takeWhile hinline (fun _ _ => Terminates.head p.isLine.terminates) heq
    have hle := Text.length_le_size p.onLine
    rw [← Text.size_eq_length_iff, hms, ← hsize]
    by_cases hnil : p.onLine = []
    · simp [hnil, size]
    · have := List.length_pos_iff.2 hnil
      omega
  · exact absurd (hhere ▸ List.mem_append_right _ (List.mem_singleton.2 rfl)) h

/-- A diagnostic in a source of one-byte characters without carriage returns is plain, up to line
999. -/
theorem plain_of_ascii (hline : d.line < 1000)
    (h : ∀ c ∈ source, c ≠ '\r' ∧ c.utf8Size = 1) : p.Plain where
  line := hline
  terminator hterm := by
    have hmem : '\r' ∈ source := by
      rw [p.isLine.eq, hterm]
      simp
    exact (h _ hmem).1 rfl
  here hmem := by
    have hmem : '\r' ∈ source := by
      rw [p.eq]
      simp [hmem]
    exact (h _ hmem).1 rfl
  onLine c hc := by
    have hmem : c ∈ source := by
      rw [p.eq]
      simp [List.takeWhile_subset _ hc]
    exact (h c hmem).2

end Spot

/-! ## The snippet -/

theorem rows_eq_snippet_iff (hsource : r.sources.lookup d.file = some source)
    (p : Spot source d) : r.snippet? d = some (p.snippet r) ↔ p.Plain := by
  have htext : firstLine (p.text ++ (p.terminator ++ p.after)) = p.text ↔
      p.terminator ≠ ['\r'] := by
    rw [firstLine_append p.isLine.inline, List.append_right_eq_self,
      firstLine_eq_nil_iff p.isLine.terminates]
  have hnewline : '\n' ∉ p.text := fun h => absurd (p.isLine.inline _ h) (by decide)
  have hblanks (n : Nat) (cs : List Char) :
      ∀ c ∈ List.replicate n ' ' ++ cs.map blank, c = ' ' ∨ c = '\t' := by
    intro c hc
    rcases List.mem_append.1 hc with hc | hc
    · exact .inl (List.eq_of_mem_replicate hc)
    · obtain ⟨b, -, rfl⟩ := List.mem_map.1 hc
      exact blank_cases b
  rw [snippet?_eq hsource p, Option.some_inj, Spot.snippet, rows_inj (newline_not_mem_firstLine _)
    hnewline (hblanks _ _) (hblanks _ _) (by omega) (by omega)]
  constructor
  · rintro ⟨hrow, hbelow, hwidth⟩
    rw [hrow] at hbelow hwidth
    obtain ⟨hlt, hhere⟩ := p.blanks_eq_iff.1 hbelow
    exact ⟨hlt, htext.1 hrow, hhere, (p.width_eq_iff hhere).1 hwidth⟩
  · intro h
    rw [htext.2 h.terminator]
    exact ⟨rfl, p.blanks_eq_iff.2 ⟨h.line, h.here⟩, (p.width_eq_iff h.here).2 h.onLine⟩

/-- A diagnostic of a registered source whose range begins and ends between characters has its line
and its range in the source, and the reporter prints the line with the range underlined exactly if
both are plain. -/
theorem snippet?_eq_iff (hsource : r.sources.lookup d.file = some source)
    (hstart : Text.isBoundary source d.start = true)
    (hstop : Text.isBoundary source (d.start + d.length) = true)
    (hline : d.line = (LineMap.ofText source).lineOf d.start) :
    Nonempty (Spot source d) ∧
      ∀ p : Spot source d, r.snippet? d = some (p.snippet r) ↔ p.Plain :=
  ⟨exists_spot hstart hstop hline, rows_eq_snippet_iff hsource⟩

/-- A reporter without styles that knows one file. -/
def knowing (source : List Char) : Reporter := ⟨true, false, [("a.js", source)]⟩

/-- An error of that file without a message. -/
def mark (start length line : Nat) : Diagnostic :=
  { category := .error, code := 1001, file := "a.js", start, length, line, message := "" }

/-- A line that begins with a tab. -/
def tabbed : List Char := ['a', ';', '\n', '\t', 'b']

theorem snippet?_eq_tabbed :
    (knowing tabbed).sources.lookup (mark 4 1 2).file = some tabbed ∧
      Text.isBoundary tabbed 4 = true ∧ Text.isBoundary tabbed (4 + 1) = true ∧
      2 = (LineMap.ofText tabbed).lineOf 4 ∧
      ∃ p : Spot tabbed (mark 4 1 2),
        (knowing tabbed).snippet? (mark 4 1 2) = some (p.snippet (knowing tabbed)) := by
  have hsource : (knowing tabbed).sources.lookup (mark 4 1 2).file = some tabbed := rfl
  have hstart : Text.isBoundary tabbed 4 = true := by decide
  have hstop : Text.isBoundary tabbed (4 + 1) = true := by decide
  have hline : 2 = (LineMap.ofText tabbed).lineOf 4 := by decide +kernel
  obtain ⟨⟨p⟩, h⟩ := snippet?_eq_iff hsource hstart hstop hline
  have hascii : tabbed.all (fun c => c ≠ '\r' && c.utf8Size = 1) = true := by decide
  exact ⟨hsource, hstart, hstop, hline, p, (h p).2 (p.plain_of_ascii (by decide) (by
    simpa using hascii))⟩

/-- A character of two bytes is underlined twice. -/
theorem snippet?_wide :
    (knowing ['é']).snippet? (mark 0 2 1) = some "\n    1   é\n        ~~" ∧
      ∃ p : Spot ['é'] (mark 0 2 1), p.snippet (knowing ['é']) = "\n    1   é\n        ~" := by
  have hline : 1 = (LineMap.ofText ['é']).lineOf 0 := by decide +kernel
  exact ⟨rfl, ⟨[], ['é'], [], [], [], ['é'], [],
    ⟨rfl, rfl, List.forall_mem_singleton.2 rfl, .endOfText, rfl⟩, rfl, rfl, rfl, hline⟩, rfl⟩

end Reporter

end LoopClosure
