import LoopClosure.Proofs.Text.Bytes
import LoopClosure.Report
import Mathlib.Data.Nat.Count

/-!
# Lines of a text

`EndsLine bs i`: byte `i` ends a line. It is a line feed, or a carriage return that no line feed
follows. The lines of a text start at 0 and behind each such byte (`starts_ofText`), so that the
number of a line is told by counting these bytes (`lineOf_eq`).

The starts are in order without repetition (`pairwise_starts`), so a binary search for an offset ends
in the last line that starts at or before it, whether it finds the offset among the starts or a place
between two of them: the number of the line is the number of these starts (`lineOf_eq_countP`).
-/

namespace LoopClosure.Text

variable {cs : List Char} {as bs : List UInt8} {n i o : Nat}

/-- A line feed, or a carriage return that no line feed follows. -/
def EndsLine (bs : List UInt8) (i : Nat) : Prop :=
  bs[i]? = some 10 ∨ bs[i]? = some 13 ∧ bs[i + 1]? ≠ some 10

instance (bs : List UInt8) : DecidablePred (EndsLine bs) := fun _ =>
  inferInstanceAs (Decidable (_ ∨ _))

/-- The bytes that end lines, in order. -/
def lineBreaks (bs : List UInt8) : List Nat := (List.range bs.length).filter (EndsLine bs ·)

/-! ## Bytes that end lines -/

theorem EndsLine.lt_length (h : EndsLine bs i) : i < bs.length := by
  rcases h with h | ⟨h, -⟩ <;> exact (List.getElem?_eq_some_iff.1 h).1

theorem lineBreaks_cons (b : UInt8) (bs : List UInt8) : lineBreaks (b :: bs) =
    (if EndsLine (b :: bs) 0 then [0] else []) ++ (lineBreaks bs).map (· + 1) := by
  have htail : (List.map Nat.succ (List.range bs.length)).filter (EndsLine (b :: bs) ·) =
      (lineBreaks bs).map (· + 1) := List.filter_map
  rw [lineBreaks, List.length_cons, List.range_succ_eq_map, List.filter_cons, htail]
  by_cases h : EndsLine (b :: bs) 0 <;> simp [h]

theorem lineBreaks_append (h : ∀ b ∈ as, b ≠ 10 ∧ b ≠ 13) (bs : List UInt8) :
    lineBreaks (as ++ bs) = (lineBreaks bs).map (as.length + ·) := by
  induction as with
  | nil => simp
  | cons a as ih =>
    obtain ⟨hlf, hcr⟩ := h a List.mem_cons_self
    have hnot : ¬EndsLine (a :: (as ++ bs)) 0 := by simp [EndsLine, hlf, hcr]
    rw [List.cons_append, lineBreaks_cons, if_neg hnot, List.nil_append,
      ih fun b hb => h b (List.mem_cons_of_mem _ hb), List.map_map]
    refine List.map_congr_left fun k _ => ?_
    rw [Function.comp_apply, List.length_cons]
    omega

/-- A byte below 128 stands for a character of its own. -/
theorem eq_of_mem_utf8EncodeChar {c : Char} {b : UInt8} (h : b ∈ String.utf8EncodeChar c)
    (hb : b.toNat < 128) : c = Char.ofNat b.toNat := by
  have hval : b.toNat = c.toNat := by
    unfold String.utf8EncodeChar at h
    dsimp only at h
    split at h
    · rw [List.mem_singleton] at h
      subst h
      rw [UInt8.toNat_ofNat'] at hb ⊢
      exact Nat.mod_eq_of_lt (by omega)
    · -- The bytes of all other characters are at least 128.
      grind [UInt8.toNat_ofNat']
  rw [hval, Char.ofNat_toNat]

theorem plain_of_ne {c : Char} (hlf : c ≠ '\n') (hcr : c ≠ '\r') :
    ∀ b ∈ String.utf8EncodeChar c, b ≠ 10 ∧ b ≠ 13 := by
  refine fun b hb => ⟨?_, ?_⟩ <;> rintro rfl
  · exact hlf (eq_of_mem_utf8EncodeChar hb (by decide))
  · exact hcr (eq_of_mem_utf8EncodeChar hb (by decide))

theorem bytes_cons (c : Char) (cs : List Char) :
    bytes (c :: cs) = String.utf8EncodeChar c ++ bytes cs := rfl

/-- A text that begins with the byte of a line feed begins with a line feed. -/
theorem exists_of_head_bytes (h : (bytes cs)[0]? = some 10) : ∃ ds, cs = '\n' :: ds := by
  cases cs with
  | nil => cases h
  | cons c cs =>
    rw [bytes_cons, List.getElem?_append_left
      (List.length_pos_of_ne_nil String.utf8EncodeChar_ne_nil)] at h
    obtain rfl := eq_of_mem_utf8EncodeChar (List.mem_of_getElem? h) (by decide)
    exact ⟨cs, rfl⟩

/-- The line ends of a text lie behind the bytes that end lines. -/
theorem lineEnds_eq (n : Nat) (cs : List Char) :
    lineEnds n cs = (lineBreaks (bytes cs)).map (n + · + 1) := by
  fun_induction lineEnds n cs with
  | case1 => rfl
  | case2 n cs ih =>
    have hbytes : bytes ('\r' :: '\n' :: cs) = 13 :: 10 :: bytes cs := rfl
    have hcr : ¬EndsLine (13 :: 10 :: bytes cs) 0 := by simp [EndsLine]
    have hlf : EndsLine (10 :: bytes cs) 0 := .inl rfl
    rw [hbytes, lineBreaks_cons, if_neg hcr, lineBreaks_cons, if_pos hlf, ih]
    simp [Nat.add_assoc, Nat.add_comm, Nat.add_left_comm]
  | case3 n c cs hnot hc ih =>
    obtain ⟨b, hbytes, hends⟩ : ∃ b, bytes (c :: cs) = b :: bytes cs ∧
        EndsLine (b :: bytes cs) 0 := by
      rcases (by simpa using hc : c = '\n' ∨ c = '\r') with rfl | rfl
      · exact ⟨10, rfl, .inl rfl⟩
      · refine ⟨13, rfl, .inr ⟨rfl, fun h => ?_⟩⟩
        obtain ⟨ds, rfl⟩ := exists_of_head_bytes h
        exact hnot ds rfl rfl
    rw [hbytes, lineBreaks_cons, if_pos hends, ih]
    simp [Function.comp_def, Nat.add_assoc, Nat.add_comm, Nat.add_left_comm]
  | case4 n c cs hnot hc ih =>
    obtain ⟨hlf, hcr⟩ : c ≠ '\n' ∧ c ≠ '\r' := by simpa using hc
    rw [bytes_cons, lineBreaks_append (plain_of_ne hlf hcr), String.length_utf8EncodeChar, ih,
      List.map_map]
    simp [Function.comp_def, Nat.add_assoc]

/-! ## Ordered lists -/

/-- The numbers of an ordered list that are at most `o` come first. -/
theorem le_iff_lt_countP {l : List Nat} (h : l.Pairwise (· < ·)) {a : Nat} (ha : l[i]? = some a) :
    a ≤ o ↔ i < l.countP (· ≤ o) := by
  induction l generalizing i with
  | nil => cases ha
  | cons b l ih =>
    obtain ⟨hb, hl⟩ := List.pairwise_cons.1 h
    by_cases hbo : b ≤ o
    · rw [List.countP_cons_of_pos (by simpa using hbo)]
      cases i with
      | zero => simpa [← Option.some.inj ha] using hbo
      | succ i => rw [ih hl ha, Nat.succ_lt_succ_iff]
    · -- What follows `b` is greater still.
      have hrest : l.countP (· ≤ o) = 0 := List.countP_eq_zero.2 fun c hc => by
        have := hb c hc
        simp only [decide_eq_true_eq]
        omega
      rw [List.countP_cons_of_neg (by simpa using hbo), hrest]
      refine iff_of_false (fun hao => ?_) (Nat.not_lt_zero _)
      cases i with
      | zero => exact hbo (Option.some.inj ha ▸ hao)
      | succ i => exact hbo (Nat.le_trans (Nat.le_of_lt (hb a (List.mem_of_getElem? ha))) hao)

theorem countP_le_of_getElem? {l : List Nat} (h : l.Pairwise (· < ·)) (ho : l[i]? = some o) :
    l.countP (· ≤ o) = i + 1 := by
  refine Nat.le_antisymm ?_ ((le_iff_lt_countP h ho).1 (Nat.le_refl o))
  by_contra hlt
  have hlen : i + 1 < l.length := Nat.lt_of_lt_of_le (Nat.lt_of_not_le hlt) List.countP_le_length
  have hle := (le_iff_lt_countP h (List.getElem?_eq_getElem hlen)).2 (Nat.lt_of_not_le hlt)
  obtain ⟨hi, rfl⟩ := List.getElem?_eq_some_iff.1 ho
  have hnext := List.pairwise_iff_getElem.1 h i (i + 1) hi hlen (Nat.lt_succ_self i)
  exact absurd hle (Nat.not_le_of_lt hnext)

theorem countP_le_of_between {l : List Nat} (hi : i ≤ l.length) (hbelow : ∀ b ∈ l.take i, b < o)
    (habove : ∀ b ∈ l.drop i, o < b) : l.countP (· ≤ o) = i := by
  have htake := List.countP_eq_length.2 fun b hb => decide_eq_true (Nat.le_of_lt (hbelow b hb))
  have hdrop : (l.drop i).countP (· ≤ o) = 0 :=
    List.countP_eq_zero.2 fun b hb => by simpa using habove b hb
  rw [← List.take_append_drop i l, List.countP_append, htake, hdrop, List.length_take, Nat.add_zero]
  exact Nat.min_eq_left hi

namespace LineMap

/-! ## The starts of lines -/

theorem starts_ofText (cs : List Char) :
    (ofText cs).starts = 0 :: (lineBreaks (bytes cs)).map (· + 1) := by
  rw [ofText, lineEnds_eq]
  simp

theorem pairwise_starts (cs : List Char) : (ofText cs).starts.Pairwise (· < ·) := by
  rw [starts_ofText, List.pairwise_cons, List.pairwise_map]
  refine ⟨fun s hs => ?_, ?_⟩
  · obtain ⟨k, -, rfl⟩ := List.mem_map.1 hs
    exact Nat.succ_pos k
  · exact (List.pairwise_lt_range.filter _).imp Nat.succ_lt_succ

/-- The number of a line is the number of lines that start at or before the offset. -/
theorem lineOf_eq_countP (cs : List Char) (o : Nat) :
    (ofText cs).lineOf o = (ofText cs).starts.countP (· ≤ o) := by
  have hsearch := binarySearch_searched (pairwise_starts cs) o
  unfold lineOf
  generalize binarySearch (ofText cs).starts o = r at hsearch ⊢
  cases hsearch with
  | found h => exact (countP_le_of_getElem? (pairwise_starts cs) h).symm
  | @between i hi hbelow habove =>
    have hcount := countP_le_of_between hi hbelow habove
    -- The first line starts at 0, so there is one before the place.
    have hpos : 0 < (ofText cs).starts.countP (· ≤ o) :=
      List.countP_pos_iff.2 ⟨0, by simp [starts_ofText], by simp⟩
    rw [hcount] at hpos ⊢
    exact Nat.sub_add_cancel hpos

/-- The number of a line is told by the line ends in front of it. -/
theorem lineOf_eq (cs : List Char) (o : Nat) :
    (ofText cs).lineOf o = 1 + Nat.count (EndsLine (bytes cs)) o := by
  have hcount : (lineBreaks (bytes cs)).countP (· < o) = Nat.count (EndsLine (bytes cs)) o := by
    have hall : (lineBreaks (bytes cs)).countP (· < o) =
        Nat.count (fun i => i < o ∧ EndsLine (bytes cs) i) (bytes cs).length := by
      simp [lineBreaks, List.countP_filter, Nat.count]
    rw [hall, Nat.count_eq_card_filter_range, Nat.count_eq_card_filter_range]
    congr 1
    ext i
    have hlt : EndsLine (bytes cs) i → i < (bytes cs).length := EndsLine.lt_length
    simp only [Finset.mem_filter, Finset.mem_range]
    tauto
  rw [lineOf_eq_countP, starts_ofText, List.countP_cons_of_pos (by simp), List.countP_map, Nat.add_comm,
    ← hcount]
  rfl

theorem isSome_start?_iff (m : LineMap) (l : Nat) :
    (m.start? l).isSome = true ↔ 1 ≤ l ∧ l ≤ m.count := by
  cases l with
  | zero => simp [start?]
  | succ l =>
    rw [start?, isSome_getElem?]
    exact (and_iff_right (Nat.le_add_left 1 l)).symm

/-- A line starts at or before an offset exactly if the offset lies in it or in a later one. -/
theorem le_iff_lt_lineOf {a : Nat} (h : (ofText cs).starts[i]? = some a) :
    a ≤ o ↔ i < (ofText cs).lineOf o := by
  rw [lineOf_eq_countP]
  exact le_iff_lt_countP (pairwise_starts cs) h

theorem lineOf_pos (cs : List Char) (o : Nat) : 1 ≤ (ofText cs).lineOf o := by
  rw [lineOf_eq]
  exact Nat.le_add_right _ _

theorem lineOf_le_count (cs : List Char) (o : Nat) : (ofText cs).lineOf o ≤ (ofText cs).count := by
  rw [lineOf_eq_countP]
  exact List.countP_le_length

/-- An offset at which a line starts lies in that line. -/
theorem lineOf_of_getElem? (h : (ofText cs).starts[i]? = some o) :
    (ofText cs).lineOf o = i + 1 := by
  rw [lineOf_eq_countP]
  exact countP_le_of_getElem? (pairwise_starts cs) h

/-- An offset between the starts of two lines lies in the first of them. -/
theorem lineOf_of_between (hi : i ≤ (ofText cs).count)
    (hbelow : ∀ s ∈ (ofText cs).starts.take i, s < o)
    (habove : ∀ s ∈ (ofText cs).starts.drop i, o < s) : (ofText cs).lineOf o = i - 1 + 1 := by
  have hcount : (ofText cs).lineOf o = i :=
    (lineOf_eq_countP cs o).trans (countP_le_of_between hi hbelow habove)
  have hpos := lineOf_pos cs o
  omega

/-- An offset lies at or behind the start of its line. -/
theorem exists_start?_lineOf (cs : List Char) (o : Nat) :
    ∃ s, (ofText cs).start? ((ofText cs).lineOf o) = some s ∧ s ≤ o := by
  obtain ⟨k, hk⟩ := Nat.exists_eq_add_of_le' (lineOf_pos cs o)
  have hlen : k < (ofText cs).starts.length := by
    have hle : (ofText cs).lineOf o ≤ (ofText cs).starts.length := lineOf_le_count _ o
    omega
  rw [hk]
  exact ⟨_, List.getElem?_eq_getElem hlen,
    (le_iff_lt_lineOf (List.getElem?_eq_getElem hlen)).2 (by omega)⟩

/-- An offset lies before the start of the next line. -/
theorem lt_of_start?_succ {s : Nat}
    (h : (ofText cs).start? ((ofText cs).lineOf o + 1) = some s) : o < s := by
  by_contra hle
  exact Nat.lt_irrefl _ ((le_iff_lt_lineOf h).1 (Nat.le_of_not_lt hle))

theorem lineOf_mono (cs : List Char) : Monotone (ofText cs).lineOf := fun o o' h => by
  rw [lineOf_eq, lineOf_eq]
  exact Nat.add_le_add_left (Nat.count_monotone _ h) 1

/-! ## All of it -/

/-- The line numbers of a text are exact: an offset, also one past the end of the text, lies behind
the line ends in front of it, a line is where it starts, and every offset lies between the start of
its line and that of the next one. -/
structure Exact (cs : List Char) : Prop where
  lineOf_eq_countP : ∀ o, (ofText cs).lineOf o = (ofText cs).starts.countP (· ≤ o)
  lineOf_eq : ∀ o, (ofText cs).lineOf o = 1 + Nat.count (EndsLine (bytes cs)) o
  isSome_start?_iff : ∀ l, ((ofText cs).start? l).isSome = true ↔ 1 ≤ l ∧ l ≤ (ofText cs).count
  lineOf_start : ∀ l s, (ofText cs).start? l = some s → (ofText cs).lineOf s = l
  start_le : ∀ o, ∃ s, (ofText cs).start? ((ofText cs).lineOf o) = some s ∧ s ≤ o
  lt_next : ∀ o s, (ofText cs).start? ((ofText cs).lineOf o + 1) = some s → o < s
  monotone : Monotone (ofText cs).lineOf
  /-- An offset at which a line starts lies in that line. -/
  found : ∀ o i, (ofText cs).starts[i]? = some o → (ofText cs).lineOf o = i + 1
  /-- An offset between the starts of two lines lies in the first of them. -/
  between : ∀ o, ∀ i ≤ (ofText cs).count, (∀ s ∈ (ofText cs).starts.take i, s < o) →
    (∀ s ∈ (ofText cs).starts.drop i, o < s) → (ofText cs).lineOf o = i - 1 + 1

theorem exact_ofText (cs : List Char) : Exact cs where
  lineOf_eq_countP := lineOf_eq_countP cs
  lineOf_eq := lineOf_eq cs
  isSome_start?_iff := isSome_start?_iff _
  lineOf_start l s h := by
    cases l with
    | zero => cases h
    | succ l => exact lineOf_of_getElem? h
  start_le := exists_start?_lineOf cs
  lt_next o s h := lt_of_start?_succ h
  monotone := lineOf_mono cs
  found o i h := lineOf_of_getElem? h
  between o i hi hbelow habove := lineOf_of_between hi hbelow habove

end LineMap

/-- Line numbers are exact, and no subtraction in a column is cut off at zero: the column of an
offset and the start of its line add up to the offset and one. With offsets and line numbers in 32
bits this is so of texts below `2 ^ 32 - 1` bytes. -/
theorem lines_exact (cs : List Char) : LineMap.Exact cs ∧
    ∀ (r : Reporter) (file : String) (o : Nat), r.sources.lookup file = some cs →
      ∃ start column, (LineMap.ofText cs).start? ((LineMap.ofText cs).lineOf o) = some start ∧
        r.column? file o = some column ∧ start + column = o + 1 := by
  refine ⟨LineMap.exact_ofText cs, fun r file o hfile => ?_⟩
  obtain ⟨s, hs, hle⟩ := LineMap.exists_start?_lineOf cs o
  refine ⟨s, o - s + 1, hs, ?_, by omega⟩
  rw [Reporter.column?, hfile]
  dsimp only [Option.bind_eq_bind, Option.bind_some]
  rw [hs]
  rfl

end LoopClosure.Text
