import LoopClosure.Text.Split
import Mathlib.Data.List.DropRight

/-!
# Laws of splitting and trimming

`White cs`: the text is all white space. Trimming takes off such a text at either end and nothing
else (`exists_trim`, `trim_padded`), and a separator in a text cuts its parts apart
(`splitOn_append_sep`, `splitOn_intercalate`).
-/

namespace LoopClosure.Text

variable {sep c : Char} {as bs cs part : List Char}

/-- Nothing but white space. -/
def White (cs : List Char) : Prop := ∀ c ∈ cs, isWhiteSpace c = true

/-! ## Splitting -/

theorem splitOn_append_sep (sep : Char) (as bs : List Char) :
    splitOn sep (as ++ sep :: bs) = splitOn sep as ++ splitOn sep bs := by
  induction as with
  | nil => simp [splitOn]
  | cons c cs ih =>
    by_cases hc : c = sep
    · simp [splitOn, hc, ih]
    · obtain ⟨part, parts, hcs⟩ := List.exists_cons_of_ne_nil (splitOn_ne_nil sep cs)
      simp [splitOn, hc, ih, hcs]

theorem splitOn_eq_singleton (h : sep ∉ cs) : splitOn sep cs = [cs] := by
  induction cs with
  | nil => rfl
  | cons c cs ih =>
    obtain ⟨hc, hcs⟩ : sep ≠ c ∧ sep ∉ cs := by simpa using h
    simp [splitOn, Ne.symm hc, ih hcs]

theorem not_mem_of_mem_splitOn (h : part ∈ splitOn sep cs) : sep ∉ part := by
  induction cs generalizing part with
  | nil =>
    rw [splitOn, List.mem_singleton] at h
    simp [h]
  | cons c cs ih =>
    obtain ⟨first, parts, hcs⟩ := List.exists_cons_of_ne_nil (splitOn_ne_nil sep cs)
    rw [hcs] at ih
    by_cases hc : c = sep
    · simp only [splitOn, hc, if_true, hcs, List.mem_cons] at h
      rcases h with rfl | h
      · simp
      · exact ih (List.mem_cons.2 h)
    · simp only [splitOn, hc, if_false, hcs, List.mem_cons] at h
      rcases h with rfl | h
      · exact List.not_mem_cons_of_ne_of_not_mem (Ne.symm hc) (ih List.mem_cons_self)
      · exact ih (List.mem_cons_of_mem _ h)

/-- Parts joined by a separator that none of them holds are found again. -/
theorem splitOn_intercalate {parts : List (List Char)} (hne : parts ≠ [])
    (h : ∀ part ∈ parts, sep ∉ part) : splitOn sep ([sep].intercalate parts) = parts := by
  induction parts with
  | nil => exact absurd rfl hne
  | cons part parts ih =>
    obtain ⟨hpart, hparts⟩ := List.forall_mem_cons.1 h
    cases parts with
    | nil => rw [List.intercalate_singleton, splitOn_eq_singleton hpart]
    | cons next rest =>
      rw [List.intercalate_cons_cons, List.append_assoc, List.singleton_append, splitOn_append_sep,
        splitOn_eq_singleton hpart, ih (List.cons_ne_nil _ _) hparts, List.singleton_append]

/-- The parts of a text make it up. -/
theorem intercalate_splitOn (sep : Char) (cs : List Char) :
    [sep].intercalate (splitOn sep cs) = cs := by
  induction cs with
  | nil => rfl
  | cons c cs ih =>
    obtain ⟨part, parts, hcs⟩ := List.exists_cons_of_ne_nil (splitOn_ne_nil sep cs)
    rw [hcs] at ih
    by_cases hc : c = sep
    · subst hc
      rw [splitOn, if_pos rfl, hcs, ← ih]
      simp [List.intercalate]
    · rw [splitOn, if_neg hc, hcs, ← ih]
      cases parts <;> simp [List.intercalate]

theorem splitOnce?_append (h : sep ∉ as) (bs : List Char) :
    splitOnce? sep (as ++ sep :: bs) = some (as, bs) := by
  induction as with
  | nil => simp [splitOnce?]
  | cons c as ih =>
    obtain ⟨hc, has⟩ : sep ≠ c ∧ sep ∉ as := by simpa using h
    simp [splitOnce?, Ne.symm hc, ih has]

/-- Two texts that fall apart at the first of the same separators have the same parts. -/
theorem eq_of_append_sep {as' bs' : List Char} (h : sep ∉ as) (h' : sep ∉ as')
    (heq : as ++ sep :: bs = as' ++ sep :: bs') : as = as' ∧ bs = bs' := by
  have hparts := (splitOnce?_append h bs).symm.trans (heq ▸ splitOnce?_append h' bs')
  exact Prod.mk.inj (Option.some.inj hparts)

theorem splitOnce?_eq_none (h : sep ∉ cs) : splitOnce? sep cs = none := by
  induction cs with
  | nil => rfl
  | cons c cs ih =>
    obtain ⟨hc, hcs⟩ : sep ≠ c ∧ sep ∉ cs := by simpa using h
    simp [splitOnce?, Ne.symm hc, ih hcs]

/-! ## Trimming -/

theorem White.append (has : White as) (hbs : White bs) : White (as ++ bs) :=
  List.forall_mem_append.2 ⟨has, hbs⟩

theorem exists_trimStart (cs : List Char) : ∃ as, White as ∧ cs = as ++ trimStart cs :=
  ⟨cs.takeWhile isWhiteSpace, fun _ h => List.mem_takeWhile_imp h,
    List.takeWhile_append_dropWhile.symm⟩

theorem exists_trimEnd (cs : List Char) : ∃ bs, White bs ∧ cs = trimEnd cs ++ bs := by
  obtain ⟨as, has, hcs⟩ := exists_trimStart cs.reverse
  refine ⟨as.reverse, fun c hc => has c (List.mem_reverse.1 hc), ?_⟩
  rw [trimEnd, ← trimStart, ← List.reverse_append, ← hcs, List.reverse_reverse]

theorem trimStart_append (h : White as) (cs : List Char) : trimStart (as ++ cs) = trimStart cs :=
  List.dropWhile_append_of_pos h

theorem trimEnd_append (h : White bs) (cs : List Char) : trimEnd (cs ++ bs) = trimEnd cs := by
  rw [trimEnd, List.reverse_append,
    List.dropWhile_append_of_pos fun c hc => h c (List.mem_reverse.1 hc), ← trimEnd]

theorem trimStart_cons (h : isWhiteSpace c = false) (cs : List Char) :
    trimStart (c :: cs) = c :: cs :=
  List.dropWhile_cons_of_neg (by simp [h])

/-- White space is taken off the start up to the first other character. -/
theorem trimStart_append_cons (h : isWhiteSpace c = false) (as bs : List Char) :
    trimStart (as ++ c :: bs) = trimStart as ++ c :: bs := by
  rw [trimStart, List.dropWhile_append, ← trimStart, ← trimStart, trimStart_cons h]
  split
  · next hempty => rw [List.isEmpty_iff.1 hempty, List.nil_append]
  · rfl

/-- White space is taken off the end down to the last other character. -/
theorem trimEnd_append_cons (h : isWhiteSpace c = false) (as bs : List Char) :
    trimEnd (as ++ c :: bs) = as ++ c :: trimEnd bs := by
  have hrev : (as ++ c :: bs).reverse = bs.reverse ++ c :: as.reverse := by simp
  rw [trimEnd, hrev, ← trimStart, trimStart_append_cons h]
  simp [trimEnd, trimStart]

theorem trim_append_cons (h : isWhiteSpace c = false) (as bs : List Char) :
    trim (as ++ c :: bs) = trimStart as ++ c :: trimEnd bs := by
  rw [trim, trimStart_append_cons h, trimEnd_append_cons h]

/-- White space at the start makes no difference. -/
theorem trim_white_append (h : White as) (cs : List Char) : trim (as ++ cs) = trim cs := by
  rw [trim, trimStart_append h, ← trim]

/-- White space at the end makes no difference. -/
theorem trim_append_white (h : White bs) (cs : List Char) : trim (cs ++ bs) = trim cs := by
  rw [trim, trimStart, List.dropWhile_append, ← trimStart, ← trimStart]
  split
  · next hempty =>
    have hbs : trimStart bs = [] := List.dropWhile_eq_nil_iff.2 h
    rw [hbs, trim, List.isEmpty_iff.1 hempty]
  · rw [trimEnd_append h, ← trim]

theorem trim_trimStart (cs : List Char) : trim (trimStart cs) = trim cs := by
  obtain ⟨as, has, hcs⟩ := exists_trimStart cs
  conv_rhs => rw [hcs, trim_white_append has]

theorem trim_trimEnd (cs : List Char) : trim (trimEnd cs) = trim cs := by
  obtain ⟨bs, hbs, hcs⟩ := exists_trimEnd cs
  conv_rhs => rw [hcs, trim_append_white hbs]

theorem exists_trim (cs : List Char) : ∃ as bs, White as ∧ White bs ∧ cs = as ++ trim cs ++ bs := by
  obtain ⟨as, has, hstart⟩ := exists_trimStart cs
  obtain ⟨bs, hbs, hend⟩ := exists_trimEnd (trimStart cs)
  refine ⟨as, bs, has, hbs, ?_⟩
  rw [trim, List.append_assoc, ← hend, ← hstart]

/-- A text without white space is found in any white space around it. -/
theorem trim_padded (has : White as) (hbs : White bs) (h : ∀ c ∈ cs, isWhiteSpace c = false) :
    trim (as ++ cs ++ bs) = cs := by
  rw [trim_append_white hbs, trim_white_append has]
  cases cs with
  | nil => rfl
  | cons c cs =>
    have hc := h c List.mem_cons_self
    have hend : (c :: cs).reverse.dropWhile isWhiteSpace = (c :: cs).reverse :=
      List.dropWhile_eq_self_iff.2 fun hl => by
        simpa using h _ (List.mem_reverse.1 (List.getElem_mem hl))
    rw [trim, trimStart_cons hc, trimEnd, hend, List.reverse_reverse]

end LoopClosure.Text
