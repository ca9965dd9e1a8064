import LoopClosure.Diagnostic
import Mathlib.Data.Nat.Digits.Defs
import Mathlib.Tactic.LinearCombination
import Mathlib.Tactic.Zify

/-!
# Filling templates

- `substitute args cs`: all places of the arguments are filled at once. What an argument brings in
  is not looked at.
- `occurrences pattern cs`: how often a text holds a pattern.

Filling works on one argument after the other. For every number of arguments it comes to the same as
filling all places at once if and only if no argument finds places that the ones before it brought
in, or is itself spelled like its place (`fill_simultaneous_iff`).
-/

namespace LoopClosure.Text

variable {args : List (List Char)} {pattern new as bs cs : List Char} {c : Char} {i j k : Nat}

/-- The argument whose place a text begins with. -/
def placeAt? (n : Nat) (cs : List Char) : Option Nat :=
  (List.range n).find? fun i => (placeholder i).isPrefixOf cs

def substituteFrom (args : List (List Char)) : Nat → List Char → List Char
  | _, [] => []
  | skip + 1, _ :: cs => substituteFrom args skip cs
  | 0, c :: cs =>
    match placeAt? args.length (c :: cs) with
    | some i => args.getD i [] ++ substituteFrom args ((placeholder i).length - 1) cs
    | none => c :: substituteFrom args 0 cs

/-- Puts each argument in its places, all at once. -/
def substitute (args : List (List Char)) (cs : List Char) : List Char := substituteFrom args 0 cs

/-- The template with its arguments put in at once. -/
def simultaneous (template : String) (args : List String) : String :=
  String.ofList (substitute (args.map String.toList) template.toList)

/-- How often a pattern stands in a text. -/
def occurrences (pattern : List Char) : List Char → Nat
  | [] => 0
  | c :: cs => (if pattern.isPrefixOf (c :: cs) then 1 else 0) + occurrences pattern cs

/-! ## Places -/

theorem placeholder_ne_nil (i : Nat) : placeholder i ≠ [] := List.cons_ne_nil _ _

/-- Only the first character of a place is an opening brace. -/
theorem not_mem_tail_placeholder (i : Nat) : '\x7b' ∉ Nat.toDigits 10 i ++ ['\x7d'] := by
  have hdigits : '\x7b' ∉ Nat.toDigits 10 i := fun h =>
    absurd (Nat.isDigit_of_mem_toDigits (by decide) (by decide) h) (by decide)
  exact List.not_mem_append hdigits (by decide)

/-- A place ends with its first closing brace. -/
theorem takeWhile_placeholder (i : Nat) (cs : List Char) :
    (placeholder i ++ cs).takeWhile (· ≠ '\x7d') = '\x7b' :: Nat.toDigits 10 i := by
  have hdigits : ∀ c ∈ '\x7b' :: Nat.toDigits 10 i, decide (c ≠ '\x7d') = true :=
    List.forall_mem_cons.2 ⟨by decide, fun c hc => decide_eq_true fun he =>
      absurd (Nat.isDigit_of_mem_toDigits (by decide) (by decide) (he ▸ hc)) (by decide)⟩
  have hsplit : placeholder i ++ cs = ('\x7b' :: Nat.toDigits 10 i) ++ '\x7d' :: cs := by
    simp [placeholder]
  rw [hsplit, List.takeWhile_append_of_pos hdigits]
  simp

/-- A text begins with the place of one argument at most. -/
theorem eq_of_placeholder_append (h : placeholder i ++ as = placeholder j ++ bs) : i = j := by
  have hdigits := congrArg (List.takeWhile (· ≠ '\x7d')) h
  rw [takeWhile_placeholder, takeWhile_placeholder] at hdigits
  calc
    i = Nat.ofDigitChars 10 (Nat.toDigits 10 i) 0 := Nat.ofDigitChars_ten_toDigits.symm
    _ = Nat.ofDigitChars 10 (Nat.toDigits 10 j) 0 := by rw [(List.cons.inj hdigits).2]
    _ = j := Nat.ofDigitChars_ten_toDigits

theorem placeholder_prefix_iff : placeholder i <+: placeholder j ++ cs ↔ i = j := by
  constructor
  · rintro ⟨rest, h⟩
    exact eq_of_placeholder_append h
  · rintro rfl
    exact List.prefix_append _ _

/-- A place begins with an opening brace. -/
theorem placeholder_not_begins (h : c ≠ '\x7b') : ¬placeholder i <+: c :: cs := by
  rintro ⟨rest, heq⟩
  exact h (List.cons.inj heq).1.symm

/-- A text is empty, begins with the place of one of `n` arguments, or begins with a character of
its own. -/
theorem places_induct {P : List Char → Prop} (n : Nat) (nil : P [])
    (place : ∀ i < n, ∀ cs, P cs → P (placeholder i ++ cs))
    (char : ∀ c cs, (∀ i < n, ¬placeholder i <+: c :: cs) → P cs → P (c :: cs))
    (cs : List Char) : P cs := by
  induction hn : cs.length using Nat.strong_induction_on generalizing cs with
  | _ l ih =>
    by_cases h : ∃ i < n, placeholder i <+: cs
    · obtain ⟨i, hi, rest, rfl⟩ := h
      refine place i hi rest (ih rest.length ?_ rest rfl)
      have hpos := List.length_pos_iff.2 (placeholder_ne_nil i)
      rw [List.length_append] at hn
      omega
    · cases cs with
      | nil => exact nil
      | cons c cs =>
        exact char c cs (fun i hi hpre => h ⟨i, hi, hpre⟩)
          (ih cs.length (by rw [← hn]; exact Nat.lt_succ_self _) cs rfl)

/-! ## Filling all places at once -/

theorem placeAt?_placeholder (h : i < k) (cs : List Char) :
    placeAt? k (placeholder i ++ cs) = some i := by
  cases hfind : placeAt? k (placeholder i ++ cs) with
  | none =>
    have hnot := List.find?_eq_none.1 hfind i (List.mem_range.2 h)
    exact absurd (List.isPrefixOf_iff_prefix.2 (List.prefix_append _ _)) hnot
  | some j =>
    have hpre : (placeholder j).isPrefixOf (placeholder i ++ cs) = true :=
      List.find?_some (p := fun j => (placeholder j).isPrefixOf (placeholder i ++ cs)) hfind
    rw [placeholder_prefix_iff.1 (List.isPrefixOf_iff_prefix.1 hpre)]

theorem placeAt?_eq_none (h : ∀ i < k, ¬placeholder i <+: cs) : placeAt? k cs = none :=
  List.find?_eq_none.2 fun i hi => mt List.isPrefixOf_iff_prefix.1 (h i (List.mem_range.1 hi))

theorem substituteFrom_eq_drop (args : List (List Char)) (n : Nat) (cs : List Char) :
    substituteFrom args n cs = substituteFrom args 0 (cs.drop n) := by
  induction cs generalizing n with
  | nil => cases n <;> rfl
  | cons c cs ih =>
    cases n with
    | zero => rfl
    | succ n => exact ih n

theorem substitute_place (h : i < args.length) (cs : List Char) :
    substitute args (placeholder i ++ cs) = args[i] ++ substitute args cs := by
  have hplace := placeAt?_placeholder h cs
  obtain ⟨c, rest, hcons⟩ := List.exists_cons_of_ne_nil (placeholder_ne_nil i)
  rw [hcons, List.cons_append] at hplace ⊢
  rw [substitute, substituteFrom, hplace]
  dsimp only
  rw [substituteFrom_eq_drop, hcons, List.length_cons, Nat.add_sub_cancel, List.drop_left,
    ← substitute, List.getD_eq_getElem?_getD,
    List.getElem?_eq_getElem h, Option.getD_some]

theorem substitute_cons (h : ∀ i < args.length, ¬placeholder i <+: c :: cs) :
    substitute args (c :: cs) = c :: substitute args cs := by
  rw [substitute, substituteFrom, placeAt?_eq_none h, ← substitute]

theorem substitute_no_args (cs : List Char) : substitute [] cs = cs := by
  induction cs with
  | nil => rfl
  | cons c cs ih => rw [substitute_cons fun _ hi => absurd hi (Nat.not_lt_zero _), ih]

/-- What holds no opening brace stays as it is. -/
theorem substitute_append (h : '\x7b' ∉ as) (cs : List Char) :
    substitute args (as ++ cs) = as ++ substitute args cs := by
  induction as with
  | nil => rfl
  | cons a as ih =>
    obtain ⟨ha, has⟩ := not_or.1 (mt List.mem_cons.2 h)
    rw [List.cons_append, substitute_cons fun i _ => placeholder_not_begins (Ne.symm ha), ih has,
      List.cons_append]

/-- The place of an argument that is not there stays as it is. -/
theorem substitute_placeholder (h : args.length ≤ k) (cs : List Char) :
    substitute args (placeholder k ++ cs) = placeholder k ++ substitute args cs := by
  have hnone (i : Nat) (hi : i < args.length) : ¬placeholder i <+: placeholder k ++ cs :=
    fun hpre => by
      have := placeholder_prefix_iff.1 hpre
      omega
  rw [placeholder, List.cons_append] at hnone ⊢
  rw [substitute_cons hnone, substitute_append (not_mem_tail_placeholder k), List.cons_append]

/-! ## Occurrences -/

theorem occurrences_of_begins (h : pattern <+: c :: cs) :
    occurrences pattern (c :: cs) = occurrences pattern cs + 1 := by
  rw [occurrences, if_pos (List.isPrefixOf_iff_prefix.2 h), Nat.add_comm]

theorem occurrences_of_not_begins (h : ¬pattern <+: c :: cs) :
    occurrences pattern (c :: cs) = occurrences pattern cs := by
  rw [occurrences, if_neg (mt List.isPrefixOf_iff_prefix.1 h), Nat.zero_add]

theorem occurrences_le_append (pattern as cs : List Char) :
    occurrences pattern cs ≤ occurrences pattern (as ++ cs) := by
  induction as with
  | nil => exact Nat.le_refl _
  | cons a as ih => exact Nat.le_trans ih (Nat.le_add_left _ _)

theorem occurrences_append (h : '\x7b' ∉ as) (cs : List Char) :
    occurrences (placeholder k) (as ++ cs) = occurrences (placeholder k) cs := by
  induction as with
  | nil => rfl
  | cons a as ih =>
    obtain ⟨ha, has⟩ := not_or.1 (mt List.mem_cons.2 h)
    rw [List.cons_append, occurrences_of_not_begins (placeholder_not_begins (Ne.symm ha)), ih has]

theorem occurrences_placeholder (k : Nat) (cs : List Char) :
    occurrences (placeholder k) (placeholder k ++ cs) = occurrences (placeholder k) cs + 1 := by
  have hpre : placeholder k <+: '\x7b' :: (Nat.toDigits 10 k ++ ['\x7d'] ++ cs) :=
    List.prefix_append (placeholder k) cs
  have happend : placeholder k ++ cs = '\x7b' :: (Nat.toDigits 10 k ++ ['\x7d'] ++ cs) := rfl
  rw [happend, occurrences_of_begins hpre, occurrences_append (not_mem_tail_placeholder k)]

/-- The place of one argument holds none of another. -/
theorem occurrences_placeholder_of_ne (h : k ≠ i) (cs : List Char) :
    occurrences (placeholder k) (placeholder i ++ cs) = occurrences (placeholder k) cs := by
  have hnot : ¬placeholder k <+: '\x7b' :: (Nat.toDigits 10 i ++ ['\x7d'] ++ cs) :=
    mt placeholder_prefix_iff.1 h
  have happend : placeholder i ++ cs = '\x7b' :: (Nat.toDigits 10 i ++ ['\x7d'] ++ cs) := rfl
  rw [happend, occurrences_of_not_begins hnot, occurrences_append (not_mem_tail_placeholder i)]

/-! ## Replacing -/

/-- The second text is the first one with `new` in place of `n` copies of the pattern. -/
inductive Replaced (pattern new : List Char) : Nat → List Char → List Char → Prop
  | nil : Replaced pattern new 0 [] []
  | keep {n : Nat} {cs ds : List Char} (as : List Char) (h : Replaced pattern new n cs ds) :
    Replaced pattern new n (as ++ cs) (as ++ ds)
  | put {n : Nat} {cs ds : List Char} (h : Replaced pattern new n cs ds) :
    Replaced pattern new (n + 1) (pattern ++ cs) (new ++ ds)

/-- The number of positions at which two texts differ. -/
def mismatches (as bs : List Char) : Nat := (as.zip bs).countP fun x => x.1 ≠ x.2

theorem mismatches_self (as : List Char) : mismatches as as = 0 := by
  induction as with
  | nil => rfl
  | cons a as ih => simpa [mismatches] using ih

theorem mismatches_append {as' bs' : List Char} (h : as.length = as'.length) :
    mismatches (as ++ bs) (as' ++ bs') = mismatches as as' + mismatches bs bs' := by
  rw [mismatches, List.zip_append h, List.countP_append, ← mismatches, ← mismatches]

theorem mismatches_pos (h : as.length = bs.length) (hne : as ≠ bs) : 0 < mismatches as bs := by
  induction as generalizing bs with
  | nil => exact absurd (List.length_eq_zero_iff.1 h.symm).symm hne
  | cons a as ih =>
    cases bs with
    | nil => cases h
    | cons b bs =>
      by_cases hab : a = b
      · subst hab
        have := ih (Nat.succ.inj h) fun he => hne (he ▸ rfl)
        simpa [mismatches] using this
      · simp [mismatches, hab]

namespace Replaced

variable {n m : Nat} {ds : List Char}

theorem length_eq (h : Replaced pattern new n cs ds) :
    ds.length + n * pattern.length = cs.length + n * new.length := by
  induction h with
  | nil => simp
  | keep as _ ih => simp only [List.length_append]; omega
  | put _ ih => simp only [List.length_append, Nat.succ_mul]; omega

theorem mismatches_eq (h : Replaced pattern new n cs ds) (hlen : pattern.length = new.length) :
    mismatches cs ds = n * mismatches pattern new := by
  induction h with
  | nil => rw [Nat.zero_mul]; rfl
  | keep as _ ih => rw [mismatches_append rfl, mismatches_self, ih, Nat.zero_add]
  | put _ ih => rw [mismatches_append hlen, ih, Nat.succ_mul, Nat.add_comm]

/-- Two texts tell how many copies were replaced. -/
theorem count_unique (hne : new ≠ pattern) (h : Replaced pattern new n cs ds)
    (h' : Replaced pattern new m cs ds) : n = m := by
  by_cases hlen : pattern.length = new.length
  · have hpos := mismatches_pos hlen (Ne.symm hne)
    have heq := (h.mismatches_eq hlen).symm.trans (h'.mismatches_eq hlen)
    exact Nat.eq_of_mul_eq_mul_right hpos heq
  · have hn := h.length_eq
    have hm := h'.length_eq
    zify at hn hm hlen
    have hmul : ((n : ℤ) - m) * (pattern.length - new.length) = 0 := by linear_combination hn - hm
    rcases mul_eq_zero.1 hmul with hzero | hzero
    · exact Nat.cast_injective (sub_eq_zero.1 hzero)
    · exact absurd (sub_eq_zero.1 hzero) hlen

/-- To replace a pattern by itself changes nothing. -/
theorem eq_self (h : Replaced pattern pattern n cs ds) : ds = cs := by
  induction h with
  | nil => rfl
  | keep as _ ih => rw [ih]
  | put _ ih => rw [ih]

theorem le_occurrences (h : Replaced (placeholder k) new n cs ds) :
    n ≤ occurrences (placeholder k) cs := by
  induction h with
  | nil => exact Nat.le_refl _
  | keep as _ ih => exact Nat.le_trans ih (occurrences_le_append _ _ _)
  | put _ ih => rw [occurrences_placeholder]; exact Nat.succ_le_succ ih

end Replaced

/-- Behind a text in which no place of the argument begins the places are filled as before. -/
theorem replaceAll_append_of_occurrences (new : List Char)
    (h : occurrences (placeholder k) (as ++ cs) = occurrences (placeholder k) cs) :
    replaceAll (placeholder k) new (as ++ cs) = as ++ replaceAll (placeholder k) new cs := by
  induction as with
  | nil => rfl
  | cons a as ih =>
    have hle := occurrences_le_append (placeholder k) as cs
    rw [List.cons_append] at h
    have hnot : ¬placeholder k <+: a :: (as ++ cs) := fun hpre => by
      rw [occurrences_of_begins hpre] at h
      omega
    rw [occurrences_of_not_begins hnot] at h
    rw [List.cons_append, replaceAll_cons hnot, ih h, List.cons_append]

theorem replaced_replaceAll (k : Nat) (new cs : List Char) : Replaced (placeholder k) new
    (occurrences (placeholder k) cs) cs (replaceAll (placeholder k) new cs) := by
  induction cs using places_induct (k + 1) with
  | nil => exact .nil
  | place i hi cs ih =>
    by_cases hik : k = i
    · subst hik
      rw [occurrences_placeholder, replaceAll_append (placeholder_ne_nil k)]
      exact .put ih
    · have hocc := occurrences_placeholder_of_ne hik cs
      rw [replaceAll_append_of_occurrences new hocc, hocc]
      exact .keep _ ih
  | char c cs hnot ih =>
    have hk := hnot k (Nat.lt_succ_self k)
    rw [occurrences_of_not_begins hk, replaceAll_cons hk]
    exact .keep [c] ih

/-- If no more copies of a place are there than were replaced, all of them were. -/
theorem Replaced.eq_replaceAll {n : Nat} {ds : List Char} (h : Replaced (placeholder k) new n cs ds)
    (hn : occurrences (placeholder k) cs = n) : ds = replaceAll (placeholder k) new cs := by
  induction h with
  | nil => rfl
  | @keep n cs ds as h ih =>
    have hle := occurrences_le_append (placeholder k) as cs
    have hge := h.le_occurrences
    have hcs : occurrences (placeholder k) cs = n := by omega
    rw [replaceAll_append_of_occurrences new (hn.trans hcs.symm), ← ih hcs]
  | put h ih =>
    rw [occurrences_placeholder] at hn
    rw [replaceAll_append (placeholder_ne_nil k), ← ih (Nat.succ.inj hn)]

/-- One argument more fills the places of this argument in the template. -/
theorem replaced_substitute (args : List (List Char)) (new cs : List Char) :
    Replaced (placeholder args.length) new (occurrences (placeholder args.length) cs)
      (substitute args cs) (substitute (args ++ [new]) cs) := by
  have hlength : (args ++ [new]).length = args.length + 1 := by simp
  induction cs using places_induct (args.length + 1) with
  | nil => exact .nil
  | place i hi cs ih =>
    have hlast : i < (args ++ [new]).length := hlength ▸ hi
    rw [substitute_place hlast]
    rcases Nat.lt_succ_iff_lt_or_eq.1 hi with hlt | rfl
    · rw [substitute_place hlt, List.getElem_append_left hlt,
        occurrences_placeholder_of_ne (Nat.ne_of_gt hlt)]
      exact .keep _ ih
    · rw [substitute_placeholder (Nat.le_refl _), occurrences_placeholder]
      simpa using ih.put
  | char c cs hnot ih =>
    rw [substitute_cons fun i hi => hnot i (Nat.lt_succ_of_lt hi),
      substitute_cons fun i hi => hnot i (hlength ▸ hi),
      occurrences_of_not_begins (hnot _ (Nat.lt_succ_self _))]
    exact .keep [c] ih

/-- Replacing the places of one argument more is right exactly if the text has no place of it that
the template does not have, or the argument is spelled like its place. -/
theorem replaceAll_substitute_iff (args : List (List Char)) (new cs : List Char) :
    replaceAll (placeholder args.length) new (substitute args cs) =
        substitute (args ++ [new]) cs ↔
      new = placeholder args.length ∨ occurrences (placeholder args.length) (substitute args cs) =
        occurrences (placeholder args.length) cs := by
  have hreplaced := replaced_substitute args new cs
  have hall := replaced_replaceAll args.length new (substitute args cs)
  constructor
  · intro h
    rw [h] at hall
    by_cases hnew : new = placeholder args.length
    · exact .inl hnew
    · exact .inr (hall.count_unique hnew hreplaced)
  · rintro (rfl | hocc)
    · rw [hall.eq_self, hreplaced.eq_self]
    · exact (hreplaced.eq_replaceAll hocc).symm

/-! ## One argument after the other -/

theorem fillFrom_append (i : Nat) (template : List Char) (args : List (List Char))
    (new : List Char) : fillFrom i template (args ++ [new]) =
      replaceAll (placeholder (i + args.length)) new (fillFrom i template args) := by
  induction args generalizing i template with
  | nil => rfl
  | cons arg args ih =>
    rw [List.cons_append, fillFrom, ih, fillFrom, List.length_cons, Nat.add_right_comm,
      Nat.add_assoc]

theorem fillFrom_take_succ (template : List Char) (h : k < args.length) :
    fillFrom 0 template (args.take (k + 1)) =
      replaceAll (placeholder k) args[k] (fillFrom 0 template (args.take k)) := by
  rw [List.take_succ_eq_append_getElem h, fillFrom_append, List.length_take_of_le (Nat.le_of_lt h),
    Nat.zero_add]

/-- Each number of arguments is put in as if at once exactly if none of them finds more places than
the template has, unless it is spelled like its place. -/
theorem fillFrom_take_iff (template : List Char) (args : List (List Char)) :
    (∀ k, fillFrom 0 template (args.take k) = substitute (args.take k) template) ↔
      ∀ k (hk : k < args.length), args[k] = placeholder k ∨
        occurrences (placeholder k) (substitute (args.take k) template) =
          occurrences (placeholder k) template := by
  have hstep (k : Nat) (hk : k < args.length) :
      replaceAll (placeholder k) args[k] (substitute (args.take k) template) =
          substitute (args.take (k + 1)) template ↔
        args[k] = placeholder k ∨ occurrences (placeholder k) (substitute (args.take k) template) =
          occurrences (placeholder k) template := by
    have hiff := replaceAll_substitute_iff (args.take k) args[k] template
    rwa [List.length_take_of_le (Nat.le_of_lt hk), ← List.take_succ_eq_append_getElem hk] at hiff
  constructor
  · intro h k hk
    rw [← hstep k hk, ← h k, ← h (k + 1), fillFrom_take_succ template hk]
  · intro h k
    induction k with
    | zero => rw [List.take_zero, substitute_no_args]; rfl
    | succ k ih =>
      by_cases hk : k < args.length
      · rw [fillFrom_take_succ template hk, ih, (hstep k hk).2 (h k hk)]
      · rwa [List.take_of_length_le (Nat.le_succ_of_le (Nat.le_of_not_lt hk)),
          ← List.take_of_length_le (Nat.le_of_not_lt hk)]

/-- One argument is always put in as if at once. -/
theorem fill_singleton (template arg : String) :
    fill template [arg] = simultaneous template [arg] := by
  have hfirst := (replaceAll_substitute_iff [] arg.toList template.toList).2
    (.inr (by rw [substitute_no_args]))
  rw [substitute_no_args] at hfirst
  exact congrArg String.ofList hfirst

/-- Filling a template puts each number of arguments in as if at once exactly if none of them finds
more places in what the ones before it made of the template than the template has, unless it is
spelled like its place. The message of a defect, which has one argument, is always right. -/
theorem fill_simultaneous_iff (template : String) (args : List String) :
    ((∀ k, fill template (args.take k) = simultaneous template (args.take k)) ↔
      ∀ k (hk : k < args.length), args[k].toList = placeholder k ∨
        occurrences (placeholder k) (simultaneous template (args.take k)).toList =
          occurrences (placeholder k) template.toList) ∧
    ∀ (d : Defect) (file : String) (start length line : Nat) (arg : String),
      (Diagnostic.ofDefect d file start length line arg).message =
        simultaneous d.template [arg] := by
  refine ⟨?_, fun d _ _ _ _ arg => fill_singleton d.template arg⟩
  have hiff := fillFrom_take_iff template.toList (args.map String.toList)
  simpa only [fill, simultaneous, String.ofList_inj, String.toList_ofList, List.map_take,
    List.length_map, List.getElem_map] using hiff

/-- The place that the first argument spells is filled by the second one. -/
theorem fill_refills : fill "\x7b0\x7d\x7b1\x7d" ["\x7b1\x7d", "x"] = "xx" ∧
    simultaneous "\x7b0\x7d\x7b1\x7d" ["\x7b1\x7d", "x"] = "\x7b1\x7dx" :=
  ⟨rfl, rfl⟩

end LoopClosure.Text
