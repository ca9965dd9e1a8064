import LoopClosure.Proofs.Edit.Splice

/-!
# Edited texts in segments

An edited text is a row of segments: parts of the source that are copied, and the texts of the edits
in the order in which they are written.

- `apply_segments`: the segments of `Edits.segments` make up the text.
- `sublist_segments`: edits come in the text one behind the other as they do in ascending order.
- `append_sublist_ordered`, `sublist_ordered`: what that order is. Edits that start at different
  offsets, or differ in rank, are ordered by these, and others as they were recorded.
- `exists_copied`: a part of the source that no edit reaches into is copied in one piece.
-/

namespace LoopClosure

open Text

/-- A part of an edited text. -/
inductive Segment where
  /-- The source from `start` up to `stop`. -/
  | copied (start stop : Nat)
  | edited (e : Edit)
deriving DecidableEq, Repr

def Segment.text (source : List Char) : Segment → List Char
  | .copied start stop => (slice? source start stop).getD []
  | .edited e => e.text.toList

theorem Segment.text_copied_self (source : List Char) (p : Nat) :
    Segment.text source (.copied p p) = [] := by
  rw [Segment.text]
  cases hslice : slice? source p p with
  | none => rfl
  | some ms =>
    obtain ⟨as, bs, -, has, hsize⟩ := slice?_eq_some_iff.1 hslice
    obtain rfl : ms = [] := by
      by_contra hne
      have := Text.size_pos hne
      omega
    rfl

/-! ## Elements in order -/

section Sorted

variable {α : Type} {le : α → α → Bool} {a b : α} {as xs ys : List α}

/-- In an ascending list what is greater comes behind. -/
theorem append_sublist_of_pairwise (refl : ∀ a, le a a = true)
    (h : as.Pairwise fun a b => le a b = true) (hxs : xs.Sublist as) (hys : ys.Sublist as)
    (hlt : ∀ x ∈ xs, ∀ y ∈ ys, le y x = false) : (xs ++ ys).Sublist as := by
  induction as generalizing xs with
  | nil =>
    rw [List.sublist_nil.1 hxs, List.sublist_nil.1 hys]
    exact .slnil
  | cons a as ih =>
    obtain ⟨ha, has⟩ := List.pairwise_cons.1 h
    cases xs with
    | nil => exact hys
    | cons x xs =>
      -- No greater element is the first one, since `x` is not in front of that.
      have hbehind : ys.Sublist as := by
        rcases List.sublist_cons_iff.1 hys with hys | ⟨r, rfl, -⟩
        · exact hys
        · have hnot := hlt x List.mem_cons_self a List.mem_cons_self
          have hle : le a x = true := by
            rcases List.mem_cons.1 (hxs.subset List.mem_cons_self) with rfl | hx
            · exact refl _
            · exact ha x hx
          exact Bool.noConfusion (hnot.symm.trans hle)
      cases hxs with
      | cons _ hxs => exact .cons a (ih has hxs hbehind hlt)
      | cons_cons _ hxs =>
        exact .cons_cons a (ih has hxs hbehind fun y hy => hlt y (List.mem_cons_of_mem _ hy))

theorem sublist_insertSorted (le : α → α → Bool) (a : α) (as : List α) :
    as.Sublist (insertSorted le a as) := by
  induction as with
  | nil => exact List.nil_sublist _
  | cons b bs ih =>
    unfold insertSorted
    split
    · exact List.sublist_cons_self a _
    · exact ih.cons_cons b

/-- An element is inserted in front of those that are not smaller. -/
theorem cons_sublist_insertSorted (h : xs.Sublist as) (hle : ∀ x ∈ xs, le a x = true) :
    (a :: xs).Sublist (insertSorted le a as) := by
  induction as with
  | nil =>
    rw [List.sublist_nil.1 h]
    exact .refl _
  | cons b bs ih =>
    unfold insertSorted
    split
    · exact h.cons_cons a
    · next hnot =>
      cases h with
      | cons _ h => exact (ih h).cons b
      | cons_cons _ h => exact absurd (hle b List.mem_cons_self) hnot

/-- Elements in ascending order stay as they are. -/
theorem sublist_sortBy (h : xs.Sublist as) (hle : xs.Pairwise fun a b => le a b = true) :
    xs.Sublist (sortBy le as) := by
  induction h with
  | slnil => exact .slnil
  | cons a _ ih => exact (ih hle).trans (sublist_insertSorted le a _)
  | cons_cons a _ ih =>
    obtain ⟨ha, hle⟩ := List.pairwise_cons.1 hle
    exact cons_sublist_insertSorted (ih hle) ha

end Sorted

/-- `e` is written in front of `a`, in whichever order they are recorded. -/
def Edit.Ahead (e a : Edit) : Prop :=
  e.start < a.start ∨ e.start = a.start ∧ e.kind.rank < a.kind.rank

namespace Edits

variable {b : Edits} {source out : List Char} {e a : Edit} {es xs ys : List Edit}
  {c p q limit : Nat}

/-! ## Ascending order -/

theorem precedes_refl (e : Edit) : e.precedes e = true := by simp [Edit.precedes]

/-- Edits are written in the order in which they are recorded, if that is ascending. -/
theorem sublist_ordered (h : xs.Sublist b.active)
    (hle : xs.Pairwise fun e a => e.precedes a = true) : xs.Sublist b.ordered :=
  sublist_sortBy h hle

/-- Edits in the order in which they are written, and others, the first of them behind the last. -/
theorem append_sublist_ordered (hxs : (xs ++ [e]).Sublist b.ordered)
    (hys : (a :: ys).Sublist b.ordered) (hlt : e.Ahead a) :
    (xs ++ e :: a :: ys).Sublist b.ordered := by
  have hlast := (List.pairwise_append.1 ((pairwise_ordered b).sublist hxs)).2.2
  have hfirst := (List.pairwise_cons.1 ((pairwise_ordered b).sublist hys)).1
  have happend : (xs ++ [e] ++ a :: ys).Sublist b.ordered := by
    refine append_sublist_of_pairwise precedes_refl (pairwise_ordered b) hxs hys
      fun x hx y hy => Bool.eq_false_iff.2 fun hyx => ?_
    have hxe : x.precedes e = true := by
      rcases List.mem_append.1 hx with hx | hx
      · exact hlast x hx e List.mem_cons_self
      · exact List.mem_singleton.1 hx ▸ precedes_refl e
    have hay : a.precedes y = true := by
      rcases List.mem_cons.1 hy with rfl | hy
      · exact precedes_refl y
      · exact hfirst y hy
    have hae : a.precedes e = true := precedes_trans _ _ _ (precedes_trans _ _ _ hay hyx) hxe
    unfold Edit.Ahead at hlt
    simp only [Edit.precedes, Bool.or_eq_true, Bool.and_eq_true, decide_eq_true_eq] at hae
    omega
  rwa [List.append_assoc] at happend

/-! ## Segments -/

/-- Edits one behind the other, and what is copied in front of them, between them and behind. -/
def segmentsFrom (limit : Nat) : Nat → List Edit → List Segment
  | c, [] => [.copied c limit]
  | c, e :: es => .copied c e.start :: .edited e :: segmentsFrom limit e.stop es

def segments (b : Edits) : List Segment := segmentsFrom (size b.source) 0 b.ordered

theorem write_segments (h : Follows (size source) c es) (hw : write source c es = .ok out) :
    out = (segmentsFrom (size source) c es).flatMap (Segment.text source) := by
  induction es generalizing c out with
  | nil =>
    have hslice := copy_eq_ok.1 hw
    simp [segmentsFrom, Segment.text, hslice]
  | cons e es ih =>
    obtain ⟨before, behind, hbefore, hbehind, rfl⟩ := (write_cons h).1 hw
    obtain ⟨hstart, -, -, hrest⟩ := h
    have hfront : before = Segment.text source (.copied c e.start) := by
      split at hbefore
      · rw [Segment.text, copy_eq_ok.1 hbefore]
        rfl
      · next hnot =>
        cases hbefore
        obtain rfl : c = e.start := by omega
        exact (Segment.text_copied_self _ _).symm
    rw [segmentsFrom, List.flatMap_cons, List.flatMap_cons, ← hfront, ← ih hrest hbehind,
      List.append_assoc]
    rfl

/-- The segments make up the edited text. -/
theorem apply_segments (hpoints : ∀ e ∈ b.active, e.IsPoint) (h : b.apply = .ok out) :
    out = b.segments.flatMap (Segment.text b.source) := by
  obtain ⟨happ, hw⟩ := (apply_eq_ok_iff hpoints).1 h
  exact write_segments (happ.toPlaced.follows hpoints) hw

theorem sublist_segmentsFrom (h : xs.Sublist es) :
    (xs.map Segment.edited).Sublist (segmentsFrom limit c es) := by
  induction h generalizing c with
  | slnil => exact List.nil_sublist _
  | cons e _ ih => exact .cons _ (.cons _ ih)
  | cons_cons e _ ih => exact .cons _ (.cons_cons _ ih)

/-- The texts of the edits come in the order in which these are written. -/
theorem sublist_segments (h : xs.Sublist b.ordered) :
    (xs.map Segment.edited).Sublist b.segments :=
  sublist_segmentsFrom h

/-- What no edit reaches into is copied in one piece. -/
theorem exists_copied (h : Follows limit c es) (hc : c ≤ p) (hq : q ≤ limit)
    (hclear : ∀ e ∈ es, e.stop ≤ p ∨ q ≤ e.start) :
    ∃ start stop, .copied start stop ∈ segmentsFrom limit c es ∧ start ≤ p ∧ q ≤ stop := by
  induction es generalizing c with
  | nil => exact ⟨c, limit, List.mem_singleton_self _, hc, hq⟩
  | cons e es ih =>
    obtain ⟨-, -, -, hrest⟩ := h
    rcases hclear e List.mem_cons_self with he | he
    · obtain ⟨start, stop, hmem, hin⟩ := ih hrest he fun a ha =>
        hclear a (List.mem_cons_of_mem _ ha)
      exact ⟨start, stop, List.mem_cons_of_mem _ (List.mem_cons_of_mem _ hmem), hin⟩
    · exact ⟨c, e.start, List.mem_cons_self, hc, he⟩

end Edits

end LoopClosure
