import LoopClosure.Comment
import LoopClosure.Proofs.Text.Split

/-!
# What a global directive spells

- `Spells entry g`: the entry is written for the global `g`, a name with `:true`, `:false` or
  nothing behind it, and white space around each part.
- `Lists entries gs`: the entries written for globals are written for `gs`, in this order. All
  others are passed over: empty ones, those that begin with `-`, and malformed ones.
- `IsDirective value entries`: the text of a directive with these entries.

A text is read as a list of globals if and only if it is a directive whose entries list them
(`globals?_eq_some_iff`).
-/

namespace LoopClosure.Comment

open Text (White isWhiteSpace trim trimStart)

variable {entry name as bs cs value : List Char} {entries : List (List Char)}
  {g : String × Bool} {gs : List (String × Bool)}

/-- What an entry can name. -/
structure IsGlobalName (name : List Char) : Prop where
  ne_nil : name ≠ []
  noSpace : ∀ c ∈ name, isWhiteSpace c = false
  noComma : ',' ∉ name
  noColon : ':' ∉ name
  noMinus : name.head? ≠ some '-'

/-- How a truth value is written. -/
def truth : Bool → List Char
  | true => ['t', 'r', 'u', 'e']
  | false => ['f', 'a', 'l', 's', 'e']

/-- An entry written for a global. Without a value it is read only. -/
inductive Spells : List Char → String × Bool → Prop
  | bare {name as bs : List Char} (hname : IsGlobalName name) (has : White as) (hbs : White bs) :
    Spells (as ++ name ++ bs) (String.ofList name, false)
  | valued {name as bs cs ds : List Char} (hname : IsGlobalName name) (has : White as)
    (hbs : White bs) (hcs : White cs) (hds : White ds) (writable : Bool) :
    Spells (as ++ name ++ bs ++ ':' :: (cs ++ truth writable ++ ds)) (String.ofList name, writable)

/-- An entry that is passed over. -/
inductive Skipped : List Char → Prop
  | empty {entry : List Char} (h : White entry) : Skipped entry
  | minus {as rest : List Char} (has : White as) (hrest : ',' ∉ rest) : Skipped (as ++ '-' :: rest)
  | malformed {entry : List Char} (hcomma : ',' ∉ entry) (h : ∀ g, ¬Spells entry g) : Skipped entry

/-- Entries for these globals, with others among them. -/
inductive Lists : List (List Char) → List (String × Bool) → Prop
  | nil : Lists [] []
  | entry {entry : List Char} {entries : List (List Char)} {g : String × Bool}
    {gs : List (String × Bool)} (h : Spells entry g) (hrest : Lists entries gs) :
    Lists (entry :: entries) (g :: gs)
  | skip {entry : List Char} {entries : List (List Char)} {gs : List (String × Bool)}
    (h : Skipped entry) (hrest : Lists entries gs) : Lists (entry :: entries) gs

/-- The word that makes a comment a directive. -/
def word : List Char := ['g', 'l', 'o', 'b', 'a', 'l']

/-- The text of a directive: at most one character of white space, the word with or without a
plural, white space, and the entries with commas between them. -/
inductive IsDirective : List Char → List (List Char) → Prop
  | intro {front plural gap : List Char} {entries : List (List Char)} (hfront : White front)
    (hlength : front.length ≤ 1) (hplural : plural = [] ∨ plural = ['s']) (hgap : White gap)
    (hne : gap ≠ []) :
    IsDirective (front ++ (word ++ (plural ++ (gap ++ [','].intercalate entries)))) entries

/-- What a directive takes from one of its entries. -/
def listed? (entry : List Char) : Option (String × Bool) :=
  if (trimStart entry).head? = some '-' then none else directiveEntry? entry

/-! ## Names -/

theorem noComma_of_white (h : White as) : ',' ∉ as := fun hmem => absurd (h _ hmem) (by decide)

theorem noColon_of_white (h : White as) : ':' ∉ as := fun hmem => absurd (h _ hmem) (by decide)

theorem noComma_truth (w : Bool) : ',' ∉ truth w := by cases w <;> decide

theorem noSpace_truth (w : Bool) : ∀ c ∈ truth w, isWhiteSpace c = false := by
  have hall : (truth w).all (fun c => !isWhiteSpace c) = true := by cases w <;> decide
  simpa using hall

theorem mem_of_mem_trim {c : Char} (h : c ∈ trim cs) : c ∈ cs := by
  obtain ⟨as, bs, -, -, hcs⟩ := Text.exists_trim cs
  rw [hcs]
  exact List.mem_append_left _ (List.mem_append_right _ h)

/-- White space in front of a text that does not begin with it is what trimming takes off. -/
theorem head?_trimStart (has : White as) (hne : name ≠ [])
    (hspace : ∀ c ∈ name, isWhiteSpace c = false) (cs : List Char) :
    (trimStart (as ++ name ++ cs)).head? = name.head? := by
  obtain ⟨c, rest, rfl⟩ := List.exists_cons_of_ne_nil hne
  rw [List.append_assoc, Text.trimStart_append has, List.cons_append,
    Text.trimStart_cons (hspace c List.mem_cons_self), List.head?_cons, List.head?_cons]

/-- What a part of an entry without comma and colon holds between white space is a name, if it is
not empty and of one piece. -/
theorem isGlobalName_trim (hne : trim cs ≠ []) (hspace : ∀ c ∈ trim cs, isWhiteSpace c = false)
    (hcomma : ',' ∉ cs) (hcolon : ':' ∉ cs) (bs : List Char)
    (hminus : (trimStart (cs ++ bs)).head? ≠ some '-') : IsGlobalName (trim cs) where
  ne_nil := hne
  noSpace := hspace
  noComma := mt mem_of_mem_trim hcomma
  noColon := mt mem_of_mem_trim hcolon
  noMinus := by
    obtain ⟨as, ds, has, -, hcs⟩ := Text.exists_trim cs
    rw [hcs, List.append_assoc, head?_trimStart has hne hspace] at hminus
    exact hminus

/-! ## One entry -/

theorem directiveEntry?_of_noColon (h : ':' ∉ entry) : directiveEntry? entry =
    if trim entry = [] || (trim entry).any isWhiteSpace then none
    else some (String.ofList (trim entry), false) := by
  unfold directiveEntry?
  dsimp only
  rw [Text.splitOnce?_eq_none (mt mem_of_mem_trim h)]
  by_cases hnil : trim entry = [] <;> simp [hnil]

theorem directiveEntry?_of_colon (h : ':' ∉ as) (bs : List Char) :
    directiveEntry? (as ++ ':' :: bs) =
      if trim as = [] || (trim as).any isWhiteSpace then none
      else if trim bs = truth true then some (String.ofList (trim as), true)
      else if trim bs = truth false then some (String.ofList (trim as), false)
      else none := by
  have htrim : ':' ∉ trimStart as := fun hmem => h (List.dropWhile_subset _ hmem)
  unfold directiveEntry?
  dsimp only
  rw [Text.trim_append_cons (by decide), if_neg (by simp), Text.splitOnce?_append htrim]
  simp only [Text.trim_trimStart, Text.trim_trimEnd]
  rfl

/-- A part of an entry is refused as a name if it is empty or of several pieces. -/
theorem refused_iff : ¬(trim cs = [] || (trim cs).any isWhiteSpace) = true ↔
    trim cs ≠ [] ∧ ∀ c ∈ trim cs, isWhiteSpace c = false := by
  simp

theorem listed?_of_spells (h : Spells entry g) : listed? entry = some g := by
  cases h with
  | @bare name as bs hname has hbs =>
    have hcolon : ':' ∉ as ++ name ++ bs := List.not_mem_append
      (List.not_mem_append (noColon_of_white has) hname.noColon) (noColon_of_white hbs)
    have htrim : trim (as ++ name ++ bs) = name := Text.trim_padded has hbs hname.noSpace
    rw [listed?, head?_trimStart has hname.ne_nil hname.noSpace, if_neg hname.noMinus,
      directiveEntry?_of_noColon hcolon,
      if_neg (refused_iff.2 (htrim.symm ▸ ⟨hname.ne_nil, hname.noSpace⟩)), htrim]
  | @valued name as bs cs ds hname has hbs hcs hds writable =>
    have hcolon : ':' ∉ as ++ name ++ bs := List.not_mem_append
      (List.not_mem_append (noColon_of_white has) hname.noColon) (noColon_of_white hbs)
    have htrim : trim (as ++ name ++ bs) = name := Text.trim_padded has hbs hname.noSpace
    have hvalue : trim (cs ++ truth writable ++ ds) = truth writable :=
      Text.trim_padded hcs hds (noSpace_truth writable)
    have hhead : (trimStart (as ++ name ++ bs ++ ':' :: (cs ++ truth writable ++ ds))).head? =
        name.head? := by
      rw [List.append_assoc (as ++ name), head?_trimStart has hname.ne_nil hname.noSpace]
    rw [listed?, hhead, if_neg hname.noMinus, directiveEntry?_of_colon hcolon,
      if_neg (refused_iff.2 (htrim.symm ▸ ⟨hname.ne_nil, hname.noSpace⟩)), htrim, hvalue]
    cases writable <;> rfl

theorem spells_of_listed? (hcomma : ',' ∉ entry) (h : listed? entry = some g) :
    Spells entry g := by
  obtain ⟨hminus, h⟩ := Option.ite_none_left_eq_some.1 h
  by_cases hcolon : ':' ∈ entry
  · obtain ⟨as, bs, rfl, has⟩ := List.eq_append_cons_of_mem hcolon
    rw [directiveEntry?_of_colon has] at h
    obtain ⟨hname, h⟩ := Option.ite_none_left_eq_some.1 h
    obtain ⟨hne, hspace⟩ := refused_iff.1 hname
    have hname := isGlobalName_trim hne hspace (fun hmem => hcomma (List.mem_append_left _ hmem))
      has _ hminus
    obtain ⟨w, hw, rfl⟩ : ∃ w, trim bs = truth w ∧ (String.ofList (trim as), w) = g := by
      split at h
      · next hw => exact ⟨true, hw, Option.some.inj h⟩
      · obtain ⟨hw, h⟩ := Option.ite_none_right_eq_some.1 h
        exact ⟨false, hw, Option.some.inj h⟩
    obtain ⟨as₁, as₂, has₁, has₂, heq⟩ := Text.exists_trim as
    obtain ⟨bs₁, bs₂, hbs₁, hbs₂, hbs⟩ := Text.exists_trim bs
    rw [hw] at hbs
    have hspelled := Spells.valued hname has₁ has₂ hbs₁ hbs₂ w
    rwa [← heq, ← hbs] at hspelled
  · rw [directiveEntry?_of_noColon hcolon] at h
    obtain ⟨hname, h⟩ := Option.ite_none_left_eq_some.1 h
    obtain ⟨hne, hspace⟩ := refused_iff.1 hname
    have hname := isGlobalName_trim hne hspace hcomma hcolon [] (by rwa [List.append_nil])
    obtain rfl := Option.some.inj h
    obtain ⟨as, bs, has, hbs, heq⟩ := Text.exists_trim entry
    have hspelled := Spells.bare hname has hbs
    rwa [← heq] at hspelled

theorem Spells.noComma (h : Spells entry g) : ',' ∉ entry := by
  cases h with
  | bare hname has hbs =>
    exact List.not_mem_append (List.not_mem_append (noComma_of_white has) hname.noComma)
      (noComma_of_white hbs)
  | valued hname has hbs hcs hds w =>
    have hvalue := List.not_mem_append (List.not_mem_append (noComma_of_white hcs)
      (noComma_truth w)) (noComma_of_white hds)
    exact List.not_mem_append (List.not_mem_append
      (List.not_mem_append (noComma_of_white has) hname.noComma) (noComma_of_white hbs))
      (List.not_mem_cons_of_ne_of_not_mem (by decide) hvalue)

theorem Skipped.noComma (h : Skipped entry) : ',' ∉ entry := by
  cases h with
  | empty h => exact noComma_of_white h
  | minus has hrest =>
    exact List.not_mem_append (noComma_of_white has)
      (List.not_mem_cons_of_ne_of_not_mem (by decide) hrest)
  | malformed hcomma => exact hcomma

theorem Skipped.listed?_eq_none (h : Skipped entry) : listed? entry = none := by
  cases h with
  | empty h =>
    have hstart : trimStart entry = [] := List.dropWhile_eq_nil_iff.2 h
    have htrim : trim entry = [] := by rw [trim, hstart]; rfl
    rw [listed?, hstart, if_neg (by simp), directiveEntry?_of_noColon (noColon_of_white h), htrim]
    rfl
  | minus has hrest =>
    rw [listed?, Text.trimStart_append has, Text.trimStart_cons (by decide),
      if_pos List.head?_cons]
  | malformed hcomma h =>
    exact Option.eq_none_iff_forall_ne_some.2 fun g hg => h g (spells_of_listed? hcomma hg)

/-! ## The list of entries -/

theorem Lists.noComma (h : Lists entries gs) : ∀ entry ∈ entries, ',' ∉ entry := by
  induction h with
  | nil => simp
  | entry h _ ih => exact List.forall_mem_cons.2 ⟨h.noComma, ih⟩
  | skip h _ ih => exact List.forall_mem_cons.2 ⟨h.noComma, ih⟩

theorem Lists.filterMap_listed? (h : Lists entries gs) : entries.filterMap listed? = gs := by
  induction h with
  | nil => rfl
  | entry h _ ih => rw [List.filterMap_cons_some (listed?_of_spells h), ih]
  | skip h _ ih => rw [List.filterMap_cons_none h.listed?_eq_none, ih]

theorem lists_filterMap (h : ∀ entry ∈ entries, ',' ∉ entry) :
    Lists entries (entries.filterMap listed?) := by
  induction entries with
  | nil => exact .nil
  | cons entry entries ih =>
    obtain ⟨hcomma, hrest⟩ := List.forall_mem_cons.1 h
    cases hg : listed? entry with
    | none =>
      rw [List.filterMap_cons_none hg]
      refine .skip (.malformed hcomma fun g h => ?_) (ih hrest)
      cases hg.symm.trans (listed?_of_spells h)
    | some g =>
      rw [List.filterMap_cons_some hg]
      exact .entry (spells_of_listed? hcomma hg) (ih hrest)

theorem listed?_white_append (h : White as) (entry : List Char) :
    listed? (as ++ entry) = listed? entry := by
  rw [listed?, listed?, Text.trimStart_append h, directiveEntry?, directiveEntry?,
    Text.trim_white_append h]

/-- White space in front of the entries belongs to the first one, and makes no difference. -/
theorem filterMap_splitOn_white_append (h : White as) (cs : List Char) :
    (Text.splitOn ',' (as ++ cs)).filterMap listed? = (Text.splitOn ',' cs).filterMap listed? := by
  have hfirst {part : List Char} (hpart : ',' ∉ part) :
      (Text.splitOn ',' (as ++ part)).filterMap listed? =
        (Text.splitOn ',' part).filterMap listed? := by
    rw [Text.splitOn_eq_singleton (List.not_mem_append (noComma_of_white h) hpart),
      Text.splitOn_eq_singleton hpart, List.filterMap_cons, List.filterMap_cons,
      listed?_white_append h]
  by_cases hcomma : ',' ∈ cs
  · obtain ⟨part, rest, rfl, hpart⟩ := List.eq_append_cons_of_mem hcomma
    rw [← List.append_assoc, Text.splitOn_append_sep, Text.splitOn_append_sep,
      List.filterMap_append, List.filterMap_append, hfirst hpart]
  · exact hfirst hcomma

/-- Entries that are joined by commas are read one by one. -/
theorem Lists.filterMap_splitOn (h : Lists entries gs) :
    (Text.splitOn ',' ([','].intercalate entries)).filterMap listed? = gs := by
  by_cases hne : entries = []
  · subst hne
    cases h
    rfl
  · rw [Text.splitOn_intercalate hne h.noComma, h.filterMap_listed?]

/-! ## The whole text -/

/-- What is behind a first character of white space. -/
def pastSpace : List Char → List Char
  | c :: cs => if isWhiteSpace c then cs else c :: cs
  | [] => []

theorem exists_pastSpace (value : List Char) :
    ∃ front, White front ∧ front.length ≤ 1 ∧ value = front ++ pastSpace value := by
  cases value with
  | nil => exact ⟨[], by simp [White], by simp, rfl⟩
  | cons c cs =>
    by_cases hc : isWhiteSpace c = true
    · exact ⟨[c], by simpa [White] using hc, by simp, by simp [pastSpace, hc]⟩
    · exact ⟨[], by simp [White], by simp, by simp [pastSpace, hc]⟩

theorem pastSpace_append {front : List Char} (hfront : White front) (hlength : front.length ≤ 1)
    (rest : List Char) : pastSpace (front ++ (word ++ rest)) = word ++ rest := by
  match front with
  | [] => rfl
  | [c] => exact if_pos (hfront c List.mem_cons_self)
  | _ :: _ :: _ => exact absurd hlength (by simp)

/-- A directive is told by the word behind the first character of white space and by the white
space behind the word. -/
theorem globals?_eq_some {value : List Char} : globals? value = some gs ↔
    ∃ rest, pastSpace value = word ++ rest ∧
      ((dropStart ['s'] rest).head?.map isWhiteSpace).getD false = true ∧
      (Text.splitOn ',' (trimStart (dropStart ['s'] rest))).filterMap listed? = gs := by
  have heq : globals? value = if word.isPrefixOf (pastSpace value) then
      if ((dropStart ['s'] ((pastSpace value).drop word.length)).head?.map isWhiteSpace).getD false
      then some ((Text.splitOn ','
        (trimStart (dropStart ['s'] ((pastSpace value).drop word.length)))).filterMap listed?)
      else none else none := by
    cases value <;> rfl
  rw [heq]
  constructor
  · intro h
    obtain ⟨hword, h⟩ := Option.ite_none_right_eq_some.1 h
    obtain ⟨rest, hrest⟩ := List.isPrefixOf_iff_prefix.1 hword
    rw [← hrest, List.drop_left] at h
    obtain ⟨hspace, h⟩ := Option.ite_none_right_eq_some.1 h
    exact ⟨rest, hrest.symm, hspace, Option.some.inj h⟩
  · rintro ⟨rest, hrest, hspace, rfl⟩
    rw [hrest, List.drop_left, if_pos hspace,
      if_pos (List.isPrefixOf_iff_prefix.2 (List.prefix_append _ _))]

theorem exists_dropStart (rest : List Char) :
    ∃ plural, (plural = [] ∨ plural = ['s']) ∧ rest = plural ++ dropStart ['s'] rest := by
  by_cases h : ['s'].isPrefixOf rest = true
  · obtain ⟨rest, rfl⟩ := List.isPrefixOf_iff_prefix.1 h
    exact ⟨['s'], .inr rfl, by rw [dropStart, if_pos h, List.drop_left]⟩
  · exact ⟨[], .inl rfl, by rw [dropStart, if_neg h, List.nil_append]⟩

/-- White space at the start of a text that begins with it. -/
theorem exists_gap (h : (cs.head?.map isWhiteSpace).getD false = true) :
    ∃ gap, White gap ∧ gap ≠ [] ∧ cs = gap ++ trimStart cs := by
  cases cs with
  | nil => cases h
  | cons c cs =>
    have hc : isWhiteSpace c = true := h
    obtain ⟨gap, hgap, hcs⟩ := Text.exists_trimStart cs
    refine ⟨c :: gap, List.forall_mem_cons.2 ⟨hc, hgap⟩, List.cons_ne_nil _ _, ?_⟩
    rw [trimStart, List.dropWhile_cons_of_pos hc, ← trimStart, List.cons_append, ← hcs]

/-- White space behind the word does not begin with the letter of the plural. -/
theorem dropStart_plural {plural gap : List Char} (hplural : plural = [] ∨ plural = ['s'])
    (hgap : White gap) (hne : gap ≠ []) (cs : List Char) :
    dropStart ['s'] (plural ++ (gap ++ cs)) = gap ++ cs := by
  obtain ⟨c, gap, rfl⟩ := List.exists_cons_of_ne_nil hne
  have hc : 's' ≠ c := by
    rintro rfl
    exact absurd (hgap 's' List.mem_cons_self) (by decide)
  rcases hplural with rfl | rfl
  · simp [dropStart, hc]
  · simp [dropStart]

/-- A text is read as a list of globals exactly if it is the text of a directive whose entries list
them. -/
theorem globals?_eq_some_iff {value : List Char} {gs : List (String × Bool)} :
    globals? value = some gs ↔ ∃ entries, IsDirective value entries ∧ Lists entries gs := by
  rw [globals?_eq_some]
  constructor
  · rintro ⟨rest, hvalue, hspace, rfl⟩
    obtain ⟨front, hfront, hlength, hpast⟩ := exists_pastSpace value
    obtain ⟨plural, hplural, hrest⟩ := exists_dropStart rest
    obtain ⟨gap, hgap, hne, hlist⟩ := exists_gap hspace
    have hdirective (entries : List (List Char)) :=
      @IsDirective.intro _ _ _ entries hfront hlength hplural hgap hne
    refine ⟨Text.splitOn ',' (trimStart (dropStart ['s'] rest)), ?_,
      lists_filterMap fun entry => Text.not_mem_of_mem_splitOn⟩
    have hentries := hdirective (Text.splitOn ',' (trimStart (dropStart ['s'] rest)))
    rwa [Text.intercalate_splitOn, ← hlist, ← hrest, ← hvalue, ← hpast] at hentries
  · rintro ⟨entries, hdirective, hlists⟩
    cases hdirective with
    | @intro front plural gap entries hfront hlength hplural hgap hne =>
      refine ⟨_, pastSpace_append hfront hlength _, ?_, ?_⟩
      · obtain ⟨c, gap, rfl⟩ := List.exists_cons_of_ne_nil hne
        rw [dropStart_plural hplural hgap hne]
        exact hgap c List.mem_cons_self
      · rw [dropStart_plural hplural hgap hne, Text.trimStart_append hgap]
        obtain ⟨as, has, heq⟩ := Text.exists_trimStart ([','].intercalate entries)
        rw [← filterMap_splitOn_white_append has, ← heq, hlists.filterMap_splitOn]

end LoopClosure.Comment
