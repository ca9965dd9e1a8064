import LoopClosure.Text.Cursor
import Mathlib.Tactic.Common

/-!
# Bytes of a text

`Text.bytes` is the UTF-8 form of a text. Offset `n` is a character boundary if the text falls into
two parts of which the first has `n` bytes (`isBoundary_iff`). A slice exists between two boundaries
in order, and its bytes are those between the offsets (`slice?_isSome_iff`, `bytes_slice`).
-/

namespace LoopClosure.Text

def bytes (cs : List Char) : List UInt8 := cs.flatMap String.utf8EncodeChar

variable {cs as bs ms : List Char} {n i j : Nat}

@[simp] theorem bytes_append (as bs : List Char) : bytes (as ++ bs) = bytes as ++ bytes bs :=
  List.flatMap_append

@[simp] theorem bytes_nil : bytes [] = [] := rfl

@[simp] theorem length_bytes (cs : List Char) : (bytes cs).length = size cs := by
  induction cs with
  | nil => rfl
  | cons c cs ih =>
    have hc : bytes (c :: cs) = String.utf8EncodeChar c ++ bytes cs := rfl
    rw [hc, List.length_append, String.length_utf8EncodeChar, ih, size]

theorem size_pos (h : cs ≠ []) : 0 < size cs := by
  obtain ⟨c, ds, rfl⟩ := List.exists_cons_of_ne_nil h
  exact Nat.add_pos_left (utf8Size_pos c) _

/-! ## Boundaries -/

theorem dropBytes?_eq_some_iff : dropBytes? n cs = some bs ↔ ∃ as, cs = as ++ bs ∧ size as = n := by
  constructor
  · intro h
    fun_induction dropBytes? n cs with
    | case1 cs =>
      cases h
      exact ⟨[], rfl, rfl⟩
    | case2 => cases h
    | case3 n c cs hle ih =>
      obtain ⟨as, rfl, hsize⟩ := ih h
      exact ⟨c :: as, rfl, by rw [size]; omega⟩
    | case4 => cases h
  · rintro ⟨as, rfl, rfl⟩
    exact dropBytes?_size as bs

theorem takeBytes?_eq_some_iff : takeBytes? n cs = some as ↔ ∃ bs, cs = as ++ bs ∧ size as = n := by
  constructor
  · intro h
    fun_induction takeBytes? n cs generalizing as with
    | case1 cs =>
      cases h
      exact ⟨cs, rfl, rfl⟩
    | case2 => cases h
    | case3 n c cs hle ih =>
      obtain ⟨as, hrest, rfl⟩ := Option.map_eq_some_iff.1 h
      obtain ⟨bs, rfl, hsize⟩ := ih hrest
      exact ⟨bs, rfl, by rw [size]; omega⟩
    | case4 => cases h
  · rintro ⟨bs, rfl, rfl⟩
    exact takeBytes?_size as bs

theorem isBoundary_iff : isBoundary cs n = true ↔ ∃ as bs, cs = as ++ bs ∧ size as = n := by
  rw [isBoundary, Option.isSome_iff_exists]
  simp only [dropBytes?_eq_some_iff]
  exact exists_comm

theorem isBoundary_zero : isBoundary cs 0 = true := isBoundary_iff.2 ⟨[], cs, rfl, rfl⟩

theorem isBoundary_size : isBoundary cs (size cs) = true :=
  isBoundary_iff.2 ⟨cs, [], (List.append_nil cs).symm, rfl⟩

theorem isBoundary_le (h : isBoundary cs n = true) : n ≤ size cs := by
  obtain ⟨as, bs, rfl, rfl⟩ := isBoundary_iff.1 h
  rw [size_append]
  exact Nat.le_add_right _ _

/-- Of two first parts of a text the one with fewer bytes begins the other. -/
theorem exists_middle {as' bs' : List Char} (h : as ++ bs = as' ++ bs') (hle : size as ≤ size as') :
    ∃ ms, as' = as ++ ms ∧ bs = ms ++ bs' := by
  rcases List.append_eq_append_iff.1 h with ⟨ms, hpre, hpost⟩ | ⟨ms, hpre, hpost⟩
  · exact ⟨ms, hpre, hpost⟩
  · have hsize : size ms = 0 := by
      rw [hpre, size_append] at hle
      omega
    cases ms with
    | nil => exact ⟨[], by simpa using hpre.symm, by simpa using hpost.symm⟩
    | cons c ms =>
      rw [size] at hsize
      exact absurd (utf8Size_pos c) (by omega)

/-! ## Slices -/

theorem slice?_eq_some_iff : slice? cs i j = some ms ↔
    ∃ as bs, cs = as ++ ms ++ bs ∧ size as = i ∧ size as + size ms = j := by
  constructor
  · intro h
    unfold slice? at h
    split at h
    · next hle =>
      obtain ⟨ds, hdrop, htake⟩ := Option.bind_eq_some_iff.1 h
      obtain ⟨as, rfl, rfl⟩ := dropBytes?_eq_some_iff.1 hdrop
      obtain ⟨bs, rfl, hsize⟩ := takeBytes?_eq_some_iff.1 htake
      exact ⟨as, bs, (List.append_assoc _ _ _).symm, rfl, by omega⟩
    · cases h
  · rintro ⟨as, bs, rfl, rfl, rfl⟩
    exact slice?_append as ms bs

theorem slice?_isSome_iff : (slice? cs i j).isSome = true ↔
    i ≤ j ∧ isBoundary cs i = true ∧ isBoundary cs j = true := by
  rw [Option.isSome_iff_exists]
  constructor
  · rintro ⟨ms, h⟩
    obtain ⟨as, bs, rfl, rfl, rfl⟩ := slice?_eq_some_iff.1 h
    refine ⟨Nat.le_add_right _ _, isBoundary_iff.2 ⟨as, ms ++ bs, ?_, rfl⟩,
      isBoundary_iff.2 ⟨as ++ ms, bs, rfl, size_append as ms⟩⟩
    exact List.append_assoc _ _ _
  · rintro ⟨hle, hi, hj⟩
    obtain ⟨as, bs, rfl, rfl⟩ := isBoundary_iff.1 hi
    obtain ⟨as', bs', heq, rfl⟩ := isBoundary_iff.1 hj
    obtain ⟨ms, rfl, rfl⟩ := exists_middle heq hle
    exact ⟨ms, slice?_eq_some_iff.2 ⟨as, bs', (List.append_assoc _ _ _).symm, rfl,
      (size_append as ms).symm⟩⟩

/-- What stands in the middle of a list, element by element. -/
theorem flatMap_getElem?_middle {α : Type} (pre mid post : List α) :
    ((List.range' pre.length mid.length).flatMap fun p => ((pre ++ mid ++ post)[p]?).toList) =
      mid := by
  induction mid generalizing pre with
  | nil => rfl
  | cons a mid ih =>
    have hrest := ih (pre ++ [a])
    rw [List.length_append, List.length_singleton, List.append_assoc pre, List.singleton_append]
      at hrest
    have hfirst : (pre ++ a :: mid ++ post)[pre.length]? = some a := by
      rw [List.append_assoc, List.cons_append, List.getElem?_append_right (Nat.le_refl _),
        Nat.sub_self, List.getElem?_cons_zero]
    rw [List.length_cons, List.range'_succ, List.flatMap_cons, hfirst, hrest]
    rfl

/-- The bytes of a slice are those between its offsets. -/
theorem bytes_slice (h : slice? cs i j = some ms) :
    bytes ms = (List.range' i (j - i)).flatMap fun p => ((bytes cs)[p]?).toList := by
  obtain ⟨as, bs, rfl, rfl, rfl⟩ := slice?_eq_some_iff.1 h
  have hmiddle := flatMap_getElem?_middle (bytes as) (bytes ms) (bytes bs)
  rw [length_bytes, length_bytes] at hmiddle
  rw [Nat.add_sub_cancel_left, bytes_append, bytes_append, hmiddle]

end LoopClosure.Text
