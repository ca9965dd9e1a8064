/-!
# Sorting and searching

A list is sorted by insertion of one element after another; elements that compare equal keep their
order. A binary search in an ascending list tells where an element is, or where it would go in.
-/

namespace LoopClosure

variable {α : Type}

/-- Inserts into an ascending list, in front of what is not smaller. -/
def insertSorted (le : α → α → Bool) (a : α) : List α → List α
  | [] => [a]
  | b :: bs => if le a b then a :: b :: bs else b :: insertSorted le a bs

def sortBy (le : α → α → Bool) (as : List α) : List α := as.foldr (insertSorted le) []

/-- Ascending by a key; equal keys keep their order. -/
def sortByKey (key : α → Nat) (as : List α) : List α := sortBy (fun a b => key a ≤ key b) as

theorem insertSorted_perm (le : α → α → Bool) (a : α) (as : List α) :
    (insertSorted le a as).Perm (a :: as) := by
  induction as with
  | nil => exact .refl _
  | cons b bs ih =>
    simp only [insertSorted]
    split
    · exact .refl _
    · exact (ih.cons b).trans (.swap a b bs)

theorem sortBy_perm (le : α → α → Bool) (as : List α) : (sortBy le as).Perm as := by
  induction as with
  | nil => exact .refl _
  | cons a as ih => exact (insertSorted_perm le a _).trans (ih.cons a)

theorem mem_sortBy {le : α → α → Bool} {a : α} {as : List α} : a ∈ sortBy le as ↔ a ∈ as :=
  (sortBy_perm le as).mem_iff

theorem pairwise_insertSorted {le : α → α → Bool}
    (trans : ∀ a b c, le a b → le b c → le a c) (total : ∀ a b, le a b || le b a) (a : α)
    {as : List α} (h : as.Pairwise fun a b => le a b = true) :
    (insertSorted le a as).Pairwise fun a b => le a b = true := by
  induction as with
  | nil => simp [insertSorted]
  | cons b bs ih =>
    obtain ⟨hb, hbs⟩ := List.pairwise_cons.1 h
    simp only [insertSorted]
    split
    · next hab =>
      refine List.pairwise_cons.2 ⟨fun c hc => ?_, h⟩
      rcases List.mem_cons.1 hc with rfl | hc
      · exact hab
      · exact trans _ _ _ hab (hb c hc)
    · next hab =>
      refine List.pairwise_cons.2 ⟨fun c hc => ?_, ih hbs⟩
      rcases List.mem_cons.1 ((insertSorted_perm le a bs).mem_iff.1 hc) with rfl | hc
      · simpa [hab] using total c b
      · exact hb c hc

/-- The result is ascending. -/
theorem pairwise_sortBy {le : α → α → Bool}
    (trans : ∀ a b c, le a b → le b c → le a c) (total : ∀ a b, le a b || le b a) (as : List α) :
    (sortBy le as).Pairwise fun a b => le a b = true := by
  induction as with
  | nil => exact .nil
  | cons a as ih => exact pairwise_insertSorted trans total a ih

/-! ## Equal elements -/

/-- Elements that compare equal to one another are left in their order. -/
theorem filter_sortBy {le : α → α → Bool} {p : α → Bool}
    (h : ∀ a b, p a = true → p b = true → le a b = true) (as : List α) :
    (sortBy le as).filter p = as.filter p := by
  have hinsert (a : α) (bs : List α) : (insertSorted le a bs).filter p = (a :: bs).filter p := by
    induction bs with
    | nil => rfl
    | cons b bs ih =>
      simp only [insertSorted]
      split
      · rfl
      · next hab =>
        cases ha : p a with
        | false => simp [List.filter_cons, ih, ha]
        | true =>
          have hb : p b = false := Bool.eq_false_iff.2 fun hb => hab (h a b ha hb)
          simp [ih, ha, hb]
  induction as with
  | nil => rfl
  | cons a as ih =>
    have hsort : sortBy le (a :: as) = insertSorted le a (sortBy le as) := rfl
    rw [hsort, hinsert, List.filter_cons, List.filter_cons, ih]

/-- What holds between the elements in ascending order, said of the elements as they were: of two
that compare equal the first comes first. -/
theorem pairwise_sortBy_iff {le : α → α → Bool} {r : α → α → Prop}
    (trans : ∀ a b c, le a b → le b c → le a c) (total : ∀ a b, le a b || le b a) (as : List α) :
    (sortBy le as).Pairwise r ↔ as.Pairwise fun a b => if le a b = true then r a b else r b a := by
  have hinsert (a : α) (bs : List α) (hbs : bs.Pairwise fun a b => le a b = true) :
      (insertSorted le a bs).Pairwise r ↔
        (∀ b ∈ bs, if le a b = true then r a b else r b a) ∧ bs.Pairwise r := by
    induction bs with
    | nil => simp [insertSorted]
    | cons b bs ih =>
      obtain ⟨hb, hbs⟩ := List.pairwise_cons.1 hbs
      simp only [insertSorted]
      split
      · next hab =>
        -- All that comes behind `b` is not smaller than `a` either.
        have hall (c : α) (hc : c ∈ b :: bs) : le a c = true := by
          rcases List.mem_cons.1 hc with rfl | hc
          · exact hab
          · exact trans _ _ _ hab (hb c hc)
        rw [List.pairwise_cons]
        refine and_congr_left fun _ => forall_congr' fun c => forall_congr' fun hc => ?_
        rw [if_pos (hall c hc)]
      · next hab =>
        rw [List.pairwise_cons, ih hbs, List.pairwise_cons, List.forall_mem_cons, if_neg hab]
        simp only [(insertSorted_perm le a bs).mem_iff, List.forall_mem_cons]
        constructor
        · rintro ⟨⟨hba, hbr⟩, har, hr⟩
          exact ⟨⟨hba, har⟩, hbr, hr⟩
        · rintro ⟨⟨hba, har⟩, hbr, hr⟩
          exact ⟨⟨hba, hbr⟩, har, hr⟩
  induction as with
  | nil => exact ⟨fun _ => .nil, fun _ => .nil⟩
  | cons a as ih =>
    have hsort : sortBy le (a :: as) = insertSorted le a (sortBy le as) := rfl
    rw [hsort, hinsert a _ (pairwise_sortBy trans total as), List.pairwise_cons]
    simp only [mem_sortBy]
    exact and_congr_right fun _ => ih

/-! ## Searching -/

/-- Searches from `lo` up to `hi`: where `a` was found, or else where it would go in. -/
def searchBetween (as : List Nat) (a lo hi : Nat) (hhi : hi ≤ as.length) : Except Nat Nat :=
  if h : lo < hi then
    let mid := lo + (hi - lo) / 2
    have hmid : mid < as.length := by omega
    if as[mid] = a then .ok mid
    else if as[mid] < a then searchBetween as a (mid + 1) hi hhi
    else searchBetween as a lo mid (by omega)
  else .error lo
termination_by hi - lo

def binarySearch (as : List Nat) (a : Nat) : Except Nat Nat :=
  searchBetween as a 0 as.length (Nat.le_refl _)

section Search

variable {as : List Nat} {a lo hi : Nat}

/-- What a search is to tell: where `a` is, or where it parts what is smaller from what is greater. -/
inductive Searched (as : List Nat) (a : Nat) : Except Nat Nat → Prop
  | found {i : Nat} (h : as[i]? = some a) : Searched as a (.ok i)
  | between {i : Nat} (hi : i ≤ as.length) (hbelow : ∀ b ∈ as.take i, b < a)
      (habove : ∀ b ∈ as.drop i, a < b) : Searched as a (.error i)

theorem getElem_le_getElem (has : as.Pairwise (· < ·)) {i j : Nat} (hij : i ≤ j)
    (hj : j < as.length) : as[i] ≤ as[j] := by
  rcases Nat.eq_or_lt_of_le hij with rfl | hlt
  · exact Nat.le_refl _
  · exact Nat.le_of_lt (List.pairwise_iff_getElem.1 has i j _ hj hlt)

theorem searchBetween_searched (has : as.Pairwise (· < ·)) (hlohi : lo ≤ hi)
    (hhi : hi ≤ as.length) (hbelow : ∀ i, ∀ h : i < as.length, i < lo → as[i] < a)
    (habove : ∀ i, ∀ h : i < as.length, hi ≤ i → a < as[i]) :
    Searched as a (searchBetween as a lo hi hhi) := by
  fun_induction searchBetween as a lo hi hhi with
  | case1 lo hi hhi _ mid hmid heq => exact .found (heq ▸ List.getElem?_eq_getElem hmid)
  | case2 lo hi hhi _ mid hmid _ hlt ih =>
    -- What stands before the middle is smaller as well.
    refine ih (by omega) (fun i _ hi => ?_) habove
    exact Nat.lt_of_le_of_lt (getElem_le_getElem has (Nat.le_of_lt_succ hi) hmid) hlt
  | case3 lo hi hhi _ mid hmid hne hnot ih =>
    have hgt : a < as[mid] := by omega
    exact ih (by omega) hbelow fun i h hi =>
      Nat.lt_of_lt_of_le hgt (getElem_le_getElem has hi h)
  | case4 lo hi hhi hnot =>
    obtain rfl : lo = hi := by omega
    refine .between hhi (fun b hb => ?_) fun b hb => ?_
    · obtain ⟨i, hi, rfl⟩ := List.mem_take_iff_getElem.1 hb
      exact hbelow i _ (by omega)
    · obtain ⟨i, hi, rfl⟩ := List.mem_drop_iff_getElem.1 hb
      exact habove _ _ (Nat.le_add_right _ _)

theorem binarySearch_searched (has : as.Pairwise (· < ·)) (a : Nat) :
    Searched as a (binarySearch as a) :=
  searchBetween_searched has (Nat.zero_le _) _ (fun _ _ h => absurd h (Nat.not_lt_zero _))
    fun _ h hi => absurd h (Nat.not_lt_of_le hi)

end Search

end LoopClosure
