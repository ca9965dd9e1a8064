import LoopClosure.Draft.Basic
import LoopClosure.Proofs.Success
import LoopClosure.Proofs.Text.Bytes
import Mathlib.Data.List.Basic

/-!
# Edits offset by offset

What it means to apply edits, said of one offset at a time: `Edits.splice` writes at each offset the
texts of the edits that start there, and the byte there unless it is replaced. Edits can be applied
where no two are in each other's way and every part that is copied begins and ends between two
characters (`Edits.Applicable`); the result is the splice (`apply_splices`).

The edits are written in ascending order, each from where the one before it ended
(`Edits.Follows`), which is where the two views meet (`spliceFrom_cons`).
-/

namespace LoopClosure

open Text

/-! ## Calls -/

namespace Edits

/-- A call that changes a list of edits. -/
inductive Call where
  | replace (start stop : Nat) (text : String)
  | insert (position : Nat) (text : String)
  | insertBefore (position : Nat) (text : String)
  | insertAfter (position : Nat) (text : String)
  | deactivate (id : EditId)
deriving DecidableEq, Repr

def call (b : Edits) : Call → Edits
  | .replace start stop text => b.replace start stop text
  | .insert position text => b.insert position text
  | .insertBefore position text => b.insertBefore position text
  | .insertAfter position text => b.insertAfter position text
  | .deactivate id => b.deactivate id

def ofCalls (source : List Char) (calls : List Call) : Edits := calls.foldl call { source }

end Edits

/-- An insertion replaces nothing. -/
def Edit.IsPoint (e : Edit) : Prop := e.isReplacement = false → e.stop = e.start

namespace Edits

variable {b : Edits} {source out : List Char} {e a : Edit} {es rs : List Edit} {c p : Nat}
  {kind : EditKind}

theorem source_ofCalls (source : List Char) (calls : List Call) :
    (ofCalls source calls).source = source := by
  have hkeep (b : Edits) : (calls.foldl call b).source = b.source := by
    induction calls generalizing b with
    | nil => rfl
    | cons k calls ih =>
      rw [List.foldl_cons, ih]
      cases k <;> rfl
  exact hkeep _

theorem call_points (h : ∀ e ∈ b.edits, e.IsPoint) (k : Call) : ∀ e ∈ (b.call k).edits, e.IsPoint := by
  have hpush (start stop : Nat) (text : String) (kind : EditKind)
      (hkind : kind ≠ .replace → stop = start) :
      ∀ e ∈ b.edits.push { kind, start, stop, text }, e.IsPoint := by
    intro e he
    rcases Array.mem_push.1 he with he | rfl
    · exact h e he
    · intro hnot
      exact hkind (by simpa [Edit.isReplacement] using hnot)
  cases k with
  | replace start stop text => exact hpush _ _ _ _ fun hne => absurd rfl hne
  | insert | insertBefore | insertAfter => exact hpush _ _ _ _ fun _ => rfl
  | deactivate id =>
    intro e he
    obtain ⟨i, hi, rfl⟩ := Array.mem_iff_getElem.1 he
    have hold : i < b.edits.size := by simpa [call, deactivate] using hi
    have hpoint := h b.edits[i] (Array.getElem_mem hold)
    simp only [call, deactivate, Array.getElem_modify]
    split
    · exact hpoint
    · exact hpoint

/-- Of the edits that calls make the insertions replace nothing. -/
theorem ofCalls_points (source : List Char) (calls : List Call) :
    ∀ e ∈ (ofCalls source calls).active, e.IsPoint := by
  have hkeep (b : Edits) (h : ∀ e ∈ b.edits, e.IsPoint) :
      ∀ e ∈ (calls.foldl call b).edits, e.IsPoint := by
    induction calls generalizing b with
    | nil => exact h
    | cons k calls ih => exact ih _ (call_points h k)
  intro e he
  refine hkeep { source } (fun e he => absurd he (Array.not_mem_empty e)) e ?_
  exact Array.mem_toList_iff.1 (List.mem_filter.1 he).1

/-! ## The text offset by offset -/

/-- The byte at an offset is replaced. -/
def Replaced (es : List Edit) (p : Nat) : Prop :=
  ∃ e ∈ es, e.isReplacement = true ∧ e.start ≤ p ∧ p < e.stop

instance : Decidable (Replaced es p) := inferInstanceAs (Decidable (∃ e ∈ es, _))

/-- The texts of the edits of a kind at an offset, in the order of the calls. -/
def textsAt (es : List Edit) (kind : EditKind) (p : Nat) : List UInt8 :=
  (es.filter fun e => e.kind = kind ∧ e.start = p).flatMap fun e => bytes e.text.toList

/-- The byte at an offset, unless it is replaced. -/
def keptAt (source : List Char) (es : List Edit) (p : Nat) : List UInt8 :=
  if Replaced es p then [] else ((bytes source)[p]?).toList

def spliceAt (source : List Char) (es : List Edit) (p : Nat) : List UInt8 :=
  textsAt es .insertAfter p ++ textsAt es .insert p ++ textsAt es .insertBefore p ++
    textsAt es .replace p ++ keptAt source es p

/-- What edits make of a source. -/
def splice (source : List Char) (es : List Edit) : List UInt8 :=
  (List.range (size source + 1)).flatMap (spliceAt source es)

/-- The byte at an offset is copied. -/
def Copied (source : List Char) (es : List Edit) (p : Nat) : Prop :=
  p < size source ∧ ¬Replaced es p

instance : Decidable (Copied source es p) := inferInstanceAs (Decidable (_ ∧ ¬_))

/-- A copied byte lies at an offset or in front of it. -/
def BesideCopied (source : List Char) (es : List Edit) (p : Nat) : Prop :=
  Copied source es p ∨ ∃ q, p = q + 1 ∧ Copied source es q

instance : Decidable (BesideCopied source es p) :=
  match p with
  | 0 => decidable_of_iff (Copied source es 0) (by simp [BesideCopied])
  | q + 1 => decidable_of_iff (Copied source es (q + 1) ∨ Copied source es q) (by simp [BesideCopied])

/-- The edits lie in the source and no two are in each other's way. -/
structure Placed (source : List Char) (es : List Edit) : Prop where
  inside : ∀ e ∈ es, e.start ≤ e.stop ∧ e.stop ≤ size source
  /-- No insertion lies within what is replaced. -/
  insertions : ∀ e ∈ es, e.isReplacement = false → ∀ r ∈ es, r.isReplacement = true →
    ¬(r.start < e.start ∧ e.start < r.stop)
  /-- No replacement starts before the end of one that precedes it: one that starts before it, or
  at the same offset with the earlier call. -/
  replacements : es.Pairwise fun a b => a.isReplacement = true → b.isReplacement = true →
    if a.start ≤ b.start then a.stop ≤ b.start else b.stop ≤ a.start

instance : Decidable (Placed source es) :=
  decidable_of_iff (_ ∧ _ ∧ _) ⟨fun ⟨hin, hins, hreps⟩ => ⟨hin, hins, hreps⟩,
    fun ⟨hin, hins, hreps⟩ => ⟨hin, hins, hreps⟩⟩

/-- The edits can be applied. -/
structure Applicable (source : List Char) (es : List Edit) : Prop extends Placed source es where
  /-- What is copied ends between two characters where an edit starts. -/
  starts : ∀ e ∈ es, BesideCopied source es e.start → isBoundary source e.start = true
  /-- What is copied begins between two characters where a replacement ends. -/
  stops : ∀ e ∈ es, e.isReplacement = true → BesideCopied source es e.stop →
    isBoundary source e.stop = true

instance : Decidable (Applicable source es) :=
  decidable_of_iff (Placed source es ∧ _ ∧ _) ⟨fun ⟨hplaced, hstarts, hstops⟩ =>
    ⟨hplaced, hstarts, hstops⟩, fun ⟨hplaced, hstarts, hstops⟩ => ⟨hplaced, hstarts, hstops⟩⟩

/-! ## Ascending order -/

theorem precedes_trans (a b c : Edit) (hab : a.precedes b = true) (hbc : b.precedes c = true) :
    a.precedes c = true := by
  simp only [Edit.precedes, Bool.or_eq_true, Bool.and_eq_true, decide_eq_true_eq] at *
  omega

theorem precedes_total (a b : Edit) : (a.precedes b || b.precedes a) = true := by
  simp only [Edit.precedes, Bool.or_eq_true, Bool.and_eq_true, decide_eq_true_eq]
  omega

theorem start_le_of_precedes (h : e.precedes a = true) : e.start ≤ a.start := by
  simp only [Edit.precedes, Bool.or_eq_true, Bool.and_eq_true, decide_eq_true_eq] at h
  omega

/-- What comes behind a replacement and replaces nothing starts behind its start. -/
theorem start_lt_of_precedes (h : e.precedes a = true) (he : e.isReplacement = true)
    (ha : a.isReplacement = false) : e.start < a.start := by
  obtain he : e.kind = .replace := by simpa [Edit.isReplacement] using he
  simp only [Edit.precedes, Bool.or_eq_true, Bool.and_eq_true, decide_eq_true_eq, he] at h
  cases hk : a.kind with
  | replace => simp [Edit.isReplacement, hk] at ha
  | _ =>
    simp only [hk, EditKind.rank] at h
    omega

theorem pairwise_ordered (b : Edits) : b.ordered.Pairwise fun a b => a.precedes b = true :=
  pairwise_sortBy precedes_trans precedes_total _

theorem mem_ordered : e ∈ b.ordered ↔ e ∈ b.active := mem_sortBy

/-- Sorting leaves the edits of one kind at one offset in their order. -/
theorem textsAt_ordered (b : Edits) (kind : EditKind) (p : Nat) :
    textsAt b.ordered kind p = textsAt b.active kind p := by
  unfold textsAt ordered
  rw [filter_sortBy fun a b ha hb => ?_]
  simp only [decide_eq_true_eq] at ha hb
  simp [Edit.precedes, ha, hb]

theorem replaced_ordered (b : Edits) (p : Nat) : Replaced b.ordered p ↔ Replaced b.active p := by
  simp only [Replaced, mem_ordered]

/-- The texts at an offset of edits in ascending order. -/
def writtenAt (es : List Edit) (p : Nat) : List UInt8 :=
  (es.filter fun e => e.start = p).flatMap fun e => bytes e.text.toList

theorem textsAt_cons (e : Edit) (es : List Edit) (kind : EditKind) (p : Nat) :
    textsAt (e :: es) kind p =
      (if e.kind = kind ∧ e.start = p then bytes e.text.toList else []) ++ textsAt es kind p := by
  unfold textsAt
  by_cases h : e.kind = kind ∧ e.start = p <;> simp [h]

theorem writtenAt_cons (e : Edit) (es : List Edit) (p : Nat) :
    writtenAt (e :: es) p = (if e.start = p then bytes e.text.toList else []) ++ writtenAt es p := by
  unfold writtenAt
  by_cases h : e.start = p <;> simp [h]

/-- Behind an edit none of a lower rank starts where it starts. -/
theorem textsAt_eq_nil (h : ∀ a ∈ es, e.precedes a = true) (hrank : kind.rank < e.kind.rank) :
    textsAt es kind e.start = [] := by
  unfold textsAt
  rw [List.filter_eq_nil_iff.2 fun a ha hat => ?_]
  · rfl
  · obtain ⟨hkind, hstart⟩ : a.kind = kind ∧ a.start = e.start := by simpa using hat
    have := h a ha
    simp only [Edit.precedes, hkind, hstart, Bool.or_eq_true, Bool.and_eq_true,
      decide_eq_true_eq] at this
    omega

/-- In ascending order the kinds follow one another at each offset. -/
theorem texts_eq_writtenAt (h : es.Pairwise fun a b => a.precedes b = true) (p : Nat) :
    textsAt es .insertAfter p ++ textsAt es .insert p ++ textsAt es .insertBefore p ++
      textsAt es .replace p = writtenAt es p := by
  induction es with
  | nil => rfl
  | cons e es ih =>
    obtain ⟨he, hes⟩ := List.pairwise_cons.1 h
    simp only [textsAt_cons, writtenAt_cons, ← ih hes]
    by_cases hp : e.start = p
    · subst hp
      have hnil (kind : EditKind) (hrank : kind.rank < e.kind.rank) :
          textsAt es kind e.start = [] := textsAt_eq_nil he hrank
      cases hk : e.kind with
      | insertAfter => simp
      | insert => simp [hnil .insertAfter (by simp [hk, EditKind.rank])]
      | insertBefore =>
        simp [hnil .insertAfter (by simp [hk, EditKind.rank]),
          hnil .insert (by simp [hk, EditKind.rank])]
      | replace =>
        simp [hnil .insertAfter (by simp [hk, EditKind.rank]),
          hnil .insert (by simp [hk, EditKind.rank]),
          hnil .insertBefore (by simp [hk, EditKind.rank])]
    · simp [hp]

/-! ## Edits one behind the other -/

/-- Edits that start, one after the other, no sooner than the one before ended. -/
def Follows (limit : Nat) : Nat → List Edit → Prop
  | c, [] => c ≤ limit
  | c, e :: es => c ≤ e.start ∧ e.start ≤ e.stop ∧ e.IsPoint ∧ Follows limit e.stop es

theorem Follows.le {limit : Nat} (h : Follows limit c es) : c ≤ limit := by
  induction es generalizing c with
  | nil => exact h
  | cons e es ih =>
    obtain ⟨hstart, hstop, -, hrest⟩ := h
    have := ih hrest
    omega

theorem Follows.of_mem {limit : Nat} (h : Follows limit c es) (he : e ∈ es) :
    c ≤ e.start ∧ e.start ≤ e.stop ∧ e.IsPoint := by
  induction es generalizing c with
  | nil => cases he
  | cons a es ih =>
    obtain ⟨hstart, hstop, hpoint, hrest⟩ := h
    rcases List.mem_cons.1 he with rfl | he
    · exact ⟨hstart, hstop, hpoint⟩
    · obtain ⟨hle, h⟩ := ih hrest he
      exact ⟨by omega, h⟩

theorem Follows.not_replaced {limit : Nat} (h : Follows limit c es) (hp : p < c) :
    ¬Replaced es p := by
  rintro ⟨e, he, -, hle, -⟩
  have := (h.of_mem he).1
  omega

theorem Follows.writtenAt_eq_nil {limit : Nat} (h : Follows limit c es) (hp : p < c) :
    writtenAt es p = [] := by
  unfold writtenAt
  rw [List.filter_eq_nil_iff.2 fun e he heq => ?_]
  · rfl
  · have := (h.of_mem he).1
    have : e.start = p := by simpa using heq
    omega

theorem replaced_cons : Replaced (e :: es) p ↔
    (e.isReplacement = true ∧ e.start ≤ p ∧ p < e.stop) ∨ Replaced es p := by
  simp [Replaced]

/-- Between the start and the end of a point there is nothing. -/
theorem replaced_cons_of_point (h : e.IsPoint) : Replaced (e :: es) p ↔
    (e.start ≤ p ∧ p < e.stop) ∨ Replaced es p := by
  rw [replaced_cons]
  refine or_congr_left ⟨fun h => h.2, fun hp => ⟨?_, hp⟩⟩
  by_contra hnot
  have := h (Bool.eq_false_iff.2 hnot)
  omega

/-- What is written from an offset on. -/
def spliceFrom (source : List Char) (es : List Edit) (c : Nat) : List UInt8 :=
  (List.range' c (size source + 1 - c)).flatMap fun p => writtenAt es p ++ keptAt source es p

/-- The first edit comes behind what is copied up to it. -/
theorem spliceFrom_cons (h : Follows (size source) c (e :: es)) :
    spliceFrom source (e :: es) c =
      ((List.range' c (e.start - c)).flatMap fun p => ((bytes source)[p]?).toList) ++
        bytes e.text.toList ++ spliceFrom source es e.stop := by
  obtain ⟨hstart, hstop, hpoint, hrest⟩ := h
  have hle := hrest.le
  have hsplit : List.range' c (size source + 1 - c) = List.range' c (e.start - c) ++
      List.range' e.start (e.stop - e.start) ++ List.range' e.stop (size source + 1 - e.stop) := by
    have hfirst : e.start = c + (e.start - c) := by omega
    have hsecond : e.stop = e.start + (e.stop - e.start) := by omega
    have hcount : size source + 1 - c = e.start - c + (e.stop - e.start) +
      (size source + 1 - e.stop) := by omega
    rw [hcount, ← List.range'_append_1, ← List.range'_append_1, ← hfirst]
    congr 3
    omega
  have hkept (p : Nat) (hp : ¬(e.start ≤ p ∧ p < e.stop)) :
      keptAt source (e :: es) p = keptAt source es p := by
    simp only [keptAt, replaced_cons_of_point hpoint, hp, false_or]
  have hbefore : ∀ p ∈ List.range' c (e.start - c),
      writtenAt (e :: es) p ++ keptAt source (e :: es) p = ((bytes source)[p]?).toList := by
    intro p hp
    have hlt := (List.mem_range'_1.1 hp).2
    rw [writtenAt_cons, if_neg (by omega), hrest.writtenAt_eq_nil (by omega), hkept p (by omega),
      keptAt, if_neg (hrest.not_replaced (by omega))]
    rfl
  have hbehind (p : Nat) (hp : e.stop ≤ p) (hne : e.start ≠ p) :
      writtenAt (e :: es) p ++ keptAt source (e :: es) p =
        writtenAt es p ++ keptAt source es p := by
    rw [writtenAt_cons, if_neg hne, hkept p (by omega)]
    rfl
  unfold spliceFrom
  rw [hsplit, List.flatMap_append, List.flatMap_append, List.flatMap_congr hbefore,
    List.append_assoc, List.append_assoc]
  congr 1
  by_cases hempty : e.start = e.stop
  · -- The text comes in front of what is written at the same offset.
    have hcount : size source + 1 - e.stop = size source - e.stop + 1 := by omega
    rw [hempty, Nat.sub_self, List.range'_zero, List.flatMap_nil, List.nil_append, hcount,
      List.range'_succ, List.flatMap_cons, List.flatMap_cons, writtenAt_cons, if_pos hempty,
      hkept _ (by omega), List.append_assoc, List.append_assoc, List.append_assoc]
    congr 3
    refine List.flatMap_congr fun p hp => hbehind p ?_ ?_ <;>
      have := (List.mem_range'_1.1 hp).1 <;> omega
  · have hcount : e.stop - e.start = e.stop - e.start - 1 + 1 := by omega
    have hwithin : ∀ p ∈ List.range' (e.start + 1) (e.stop - e.start - 1),
        writtenAt (e :: es) p ++ keptAt source (e :: es) p = [] := by
      intro p hp
      have := List.mem_range'_1.1 hp
      rw [writtenAt_cons, if_neg (by omega), hrest.writtenAt_eq_nil (by omega), keptAt,
        if_pos ((replaced_cons_of_point hpoint).2 (.inl (by omega)))]
      rfl
    rw [hcount, List.range'_succ, List.flatMap_cons, List.flatMap_eq_nil_iff.2 hwithin,
      writtenAt_cons, if_pos rfl, hrest.writtenAt_eq_nil (by omega), keptAt,
      if_pos ((replaced_cons_of_point hpoint).2 (.inl (by omega)))]
    simp only [List.append_nil]
    congr 1
    refine List.flatMap_congr fun p hp => hbehind p ?_ ?_ <;>
      have := (List.mem_range'_1.1 hp).1 <;> omega

/-! ## Boundaries -/

/-- What is copied, with the cursor at `c`, begins and ends between two characters. -/
def Clear (source : List Char) : Nat → List Edit → Prop
  | c, [] => isBoundary source c = true
  | c, e :: es => (c < e.start → isBoundary source c = true ∧ isBoundary source e.start = true) ∧
    Clear source e.stop es

/-- The byte at an offset is copied from a source that is written from offset `c` on. -/
def CopiedFrom (source : List Char) (es : List Edit) (c p : Nat) : Prop :=
  c ≤ p ∧ Copied source es p

/-- A byte copied lies at an offset or in front of it. -/
def BesideCopiedFrom (source : List Char) (es : List Edit) (c p : Nat) : Prop :=
  CopiedFrom source es c p ∨ ∃ q, p = q + 1 ∧ CopiedFrom source es c q

theorem copiedFrom_cons (h : Follows (size source) c (e :: es)) : CopiedFrom source (e :: es) c p ↔
    (c ≤ p ∧ p < e.start) ∨ CopiedFrom source es e.stop p := by
  obtain ⟨hstart, hstop, hpoint, hrest⟩ := h
  have hle := hrest.le
  unfold CopiedFrom Copied
  rw [replaced_cons_of_point hpoint]
  by_cases hp : p < e.stop
  · have hnone : ¬Replaced es p := hrest.not_replaced hp
    have hsize : p < size source := by omega
    simp only [hnone, or_false, hsize, true_and]
    omega
  · have hfar : ¬(e.start ≤ p ∧ p < e.stop) := by omega
    have hfront : ¬p < e.start := by omega
    have hcursor : c ≤ p := by omega
    have hbehind : e.stop ≤ p := by omega
    simp only [hfar, hfront, hcursor, hbehind, and_false, false_or]

/-- Beside a byte in front of the first edit there are the two ends of that part; what else is beside
a copied byte is so in the rest. -/
theorem besideCopiedFrom_cons (h : Follows (size source) c (e :: es))
    (hp : p = c ∨ ∃ a ∈ e :: es, p = a.start ∨ p = a.stop)
    (hbeside : BesideCopiedFrom source (e :: es) c p) :
    (c < e.start ∧ (p = c ∨ p = e.start)) ∨ ((p = e.stop ∨ ∃ a ∈ es, p = a.start ∨ p = a.stop) ∧
      BesideCopiedFrom source es e.stop p) := by
  obtain ⟨hstart, hstop, -, hrest⟩ := id h
  -- An offset at which an edit of the rest starts or ends lies behind the first edit.
  have hplace : p = c ∨ p = e.start ∨ p = e.stop ∨
      (e.stop ≤ p ∧ ∃ a ∈ es, p = a.start ∨ p = a.stop) := by
    rcases hp with hp | ⟨a, ha, hp⟩
    · exact .inl hp
    · rcases List.mem_cons.1 ha with rfl | ha
      · exact .inr (hp.imp_right .inl)
      · have := hrest.of_mem ha
        exact .inr (.inr (.inr ⟨by omega, a, ha, hp⟩))
  have hbehind (hge : e.stop ≤ p) : p = e.stop ∨ ∃ a ∈ es, p = a.start ∨ p = a.stop := by
    rcases hplace with rfl | rfl | rfl | ⟨-, hp⟩
    · exact .inl (by omega)
    · exact .inl (by omega)
    · exact .inl rfl
    · exact .inr hp
  unfold BesideCopiedFrom at hbeside
  simp only [copiedFrom_cons h] at hbeside
  rcases hbeside with (hfront | hrear) | ⟨q, rfl, (hfront | hrear)⟩
  · exact .inl ⟨by omega, by omega⟩
  · exact .inr ⟨hbehind hrear.1, .inl hrear⟩
  · exact .inl ⟨by omega, by omega⟩
  · exact .inr ⟨hbehind (Nat.le_succ_of_le hrear.1), .inr ⟨q, rfl, hrear⟩⟩

/-- That the parts copied are clear, said of the offsets one by one. -/
theorem clear_iff (h : Follows (size source) c es) : Clear source c es ↔
    ∀ p, (p = c ∨ ∃ e ∈ es, p = e.start ∨ p = e.stop) → BesideCopiedFrom source es c p →
      isBoundary source p = true := by
  induction es generalizing c with
  | nil =>
    have hle : c ≤ size source := h
    constructor
    · rintro hclear p (rfl | ⟨e, he, -⟩) -
      · exact hclear
      · cases he
    · intro hall
      by_cases heq : c = size source
      · rw [Clear, heq, isBoundary_size]
      · have hcopied : Copied source [] c := ⟨by omega, fun ⟨e, he, _⟩ => nomatch he⟩
        exact hall c (.inl rfl) (.inl ⟨Nat.le_refl c, hcopied⟩)
  | cons e es ih =>
    rw [Clear, ih h.2.2.2]
    constructor
    · rintro ⟨hfirst, hall⟩ p hp hbeside
      rcases besideCopiedFrom_cons h hp hbeside with ⟨hlt, rfl | rfl⟩ | ⟨hp, hbeside⟩
      · exact (hfirst hlt).1
      · exact (hfirst hlt).2
      · exact hall p hp hbeside
    · intro hall
      refine ⟨fun hlt => ⟨?_, ?_⟩, fun p hp hbeside => hall p (.inr ?_) ?_⟩
      · exact hall c (.inl rfl) (.inl ((copiedFrom_cons h).2 (.inl ⟨Nat.le_refl c, hlt⟩)))
      · refine hall e.start (.inr ⟨e, List.mem_cons_self, .inl rfl⟩) (.inr ⟨e.start - 1, by omega, ?_⟩)
        exact (copiedFrom_cons h).2 (.inl (by omega))
      · rcases hp with rfl | ⟨a, ha, hp⟩
        · exact ⟨e, List.mem_cons_self, .inr rfl⟩
        · exact ⟨a, List.mem_cons_of_mem _ ha, hp⟩
      · exact hbeside.imp (fun hq => (copiedFrom_cons h).2 (.inr hq)) fun ⟨q, hq, hcopied⟩ =>
          ⟨q, hq, (copiedFrom_cons h).2 (.inr hcopied)⟩

/-! ## Writing -/

theorem copy_eq_ok {i j : Nat} {cs : List Char} :
    copy source i j = .ok cs ↔ slice? source i j = some cs := by
  unfold copy
  split
  · next ds hds => rw [hds, Except.ok.injEq, Option.some.injEq]
  · next hnone => simp [hnone]

theorem exists_copy {i j : Nat} (hle : i ≤ j) : (∃ cs, copy source i j = .ok cs) ↔
    isBoundary source i = true ∧ isBoundary source j = true := by
  simp only [copy_eq_ok, ← Option.isSome_iff_exists, slice?_isSome_iff, hle, true_and]

/-- Edits one behind the other are written with what lies between them. -/
theorem write_cons (h : Follows (size source) c (e :: es)) : write source c (e :: es) = .ok out ↔
    ∃ before behind, (if c < e.start then copy source c e.start else .ok []) = .ok before ∧
      write source e.stop es = .ok behind ∧ before ++ e.text.toList ++ behind = out := by
  obtain ⟨hstart, hstop, hpoint, -⟩ := h
  have hnext : (if e.isReplacement = true then max (max c e.start) e.stop else max c e.start) =
      e.stop := by
    cases hr : e.isReplacement with
    | true =>
      simp only [if_true]
      omega
    | false =>
      have := hpoint hr
      simp only [Bool.false_eq_true, if_false]
      omega
  rw [write, hnext]
  by_cases hlt : c < e.start
  · simp only [hlt, if_true, bind_eq_ok, pure_eq_ok, exists_and_left]
  · simp only [hlt, if_false, bind_eq_ok, pure_eq_ok, exists_and_left]

/-- Writing succeeds if what is copied is clear, and writes the splice. -/
theorem write_splices (h : Follows (size source) c es) :
    ((∃ out, write source c es = .ok out) ↔ Clear source c es) ∧
      ∀ out, write source c es = .ok out → bytes out = spliceFrom source es c := by
  induction es generalizing c with
  | nil =>
    have hle : c ≤ size source := h
    rw [write]
    refine ⟨?_, fun out hout => ?_⟩
    · rw [exists_copy hle, Clear, and_iff_left isBoundary_size]
    · -- There is no byte at the end of the text.
      have hcount : size source + 1 - c = size source - c + 1 := by omega
      have hend : c + 1 * (size source - c) = size source := by omega
      have hnone : (bytes source)[size source]? = none := by simp
      have hkept (p : Nat) : keptAt source [] p = ((bytes source)[p]?).toList :=
        if_neg fun ⟨e, he, _⟩ => nomatch he
      simp only [spliceFrom, writtenAt, List.filter_nil, List.flatMap_nil, List.nil_append, hkept]
      rw [hcount, List.range'_concat, List.flatMap_append, hend, List.flatMap_singleton, hnone,
        Option.toList_none, List.append_nil, ← bytes_slice (copy_eq_ok.1 hout)]
  | cons e es ih =>
    obtain ⟨hstart, hstop, hpoint, hrest⟩ := id h
    obtain ⟨hexists, hbytes⟩ := ih hrest
    have hfront : (∃ before, (if c < e.start then copy source c e.start else .ok []) = .ok before) ↔
        (c < e.start → isBoundary source c = true ∧ isBoundary source e.start = true) := by
      by_cases hlt : c < e.start
      · rw [if_pos hlt, exists_copy hstart, forall_prop_of_true hlt]
      · simp [hlt]
    refine ⟨?_, fun out hout => ?_⟩
    · simp only [write_cons h]
      rw [Clear, ← hfront, ← hexists]
      constructor
      · rintro ⟨out, before, behind, hbefore, hbehind, -⟩
        exact ⟨⟨before, hbefore⟩, behind, hbehind⟩
      · rintro ⟨⟨before, hbefore⟩, behind, hbehind⟩
        exact ⟨_, before, behind, hbefore, hbehind, rfl⟩
    · obtain ⟨before, behind, hbefore, hbehind, rfl⟩ := (write_cons h).1 hout
      have hcopied : bytes before =
          (List.range' c (e.start - c)).flatMap fun p => ((bytes source)[p]?).toList := by
        by_cases hlt : c < e.start
        · rw [if_pos hlt] at hbefore
          exact bytes_slice (copy_eq_ok.1 hbefore)
        · rw [if_neg hlt, Except.ok.injEq] at hbefore
          have hnone : e.start - c = 0 := by omega
          rw [← hbefore, hnone]
          rfl
      rw [spliceFrom_cons h, ← hbytes behind hbehind, ← hcopied, bytes_append, bytes_append]

/-! ## The checks -/

theorem misplaced?_eq_none_iff {limit : Nat} : misplaced? limit rs e = none ↔
    (e.start ≤ e.stop ∧ e.stop ≤ limit) ∧
      (e.isReplacement = false → ∀ r ∈ rs, ¬(r.start < e.start ∧ e.start < r.stop)) := by
  unfold misplaced?
  split
  · next h =>
    simp only [Bool.or_eq_true, decide_eq_true_eq] at h
    simp only [reduceCtorEq, false_iff]
    omega
  · next h =>
    simp only [Bool.or_eq_true, decide_eq_true_eq, not_or, Nat.not_lt] at h
    rw [and_iff_right h]
    split
    · next hany =>
      simp only [Bool.and_eq_true, Bool.not_eq_true', List.any_eq_true, decide_eq_true_eq] at hany
      obtain ⟨hnot, r, hr, hwithin⟩ := hany
      simp only [reduceCtorEq, false_iff]
      exact fun hall => hall hnot r hr hwithin
    · next hany =>
      simp only [Bool.and_eq_true, Bool.not_eq_true', List.any_eq_true, decide_eq_true_eq, not_and,
        not_exists] at hany
      simp only [true_iff]
      exact fun hnot r hr hwithin => hany hnot r hr hwithin.1 hwithin.2

/-- It is enough to compare neighbours. -/
theorem overlap?_eq_none_iff (hrs : ∀ r ∈ rs, r.start ≤ r.stop) :
    overlap? rs = none ↔ rs.Pairwise fun a b => a.stop ≤ b.start := by
  induction rs with
  | nil => exact ⟨fun _ => .nil, fun _ => rfl⟩
  | cons a rs ih =>
    have ih := ih fun r hr => hrs r (List.mem_cons_of_mem _ hr)
    cases rs with
    | nil => exact ⟨fun _ => List.pairwise_singleton _ _, fun _ => rfl⟩
    | cons b rs =>
      have hb := hrs b (by simp)
      rw [overlap?]
      split
      · next hlt =>
        simp only [reduceCtorEq, false_iff]
        intro hall
        have := (List.pairwise_cons.1 hall).1 b List.mem_cons_self
        omega
      · next hle =>
        rw [ih, List.pairwise_cons (a := a), iff_and_self]
        intro hall c hc
        rcases List.mem_cons.1 hc with rfl | hc
        · omega
        · have := (List.pairwise_cons.1 hall).1 c hc
          omega

/-- Sorted edits that pass the checks lie one behind the other. -/
theorem follows_of_pairwise {limit : Nat} (hc : c ≤ limit)
    (hin : ∀ e ∈ es, (c ≤ e.start ∧ e.start ≤ e.stop ∧ e.stop ≤ limit) ∧ e.IsPoint)
    (h : es.Pairwise fun a b => a.stop ≤ b.start) : Follows limit c es := by
  induction es generalizing c with
  | nil => exact hc
  | cons e es ih =>
    obtain ⟨hnext, hes⟩ := List.pairwise_cons.1 h
    obtain ⟨⟨hstart, hstop, hlimit⟩, hpoint⟩ := hin e List.mem_cons_self
    refine ⟨hstart, hstop, hpoint, ih hlimit (fun a ha => ?_) hes⟩
    obtain ⟨⟨-, hplace⟩, ha'⟩ := hin a (List.mem_cons_of_mem _ ha)
    exact ⟨⟨hnext a ha, hplace⟩, ha'⟩

/-- Two replacements come in the order of their starts, and at one start in that of their calls. -/
theorem pairwise_replacements_iff (b : Edits) :
    (b.ordered.filter (·.isReplacement)).Pairwise (fun a b => a.stop ≤ b.start) ↔
      b.active.Pairwise fun a b => a.isReplacement = true → b.isReplacement = true →
        if a.start ≤ b.start then a.stop ≤ b.start else b.stop ≤ a.start := by
  rw [List.pairwise_filter, ordered, pairwise_sortBy_iff precedes_trans precedes_total]
  refine iff_of_eq (congrArg₂ _ (funext₂ fun a b => propext ?_) rfl)
  by_cases hrep : a.isReplacement = true ∧ b.isReplacement = true
  · obtain ⟨ha, hb⟩ := hrep
    have hkinds : a.kind = .replace ∧ b.kind = .replace := by
      simpa [Edit.isReplacement] using And.intro ha hb
    have hle : a.precedes b = true ↔ a.start ≤ b.start := by
      simp only [Edit.precedes, hkinds.1, hkinds.2, Bool.or_eq_true, Bool.and_eq_true,
        decide_eq_true_eq]
      omega
    simp only [ha, hb, hle, forall_const]
  · have hnot (P : Prop) (ha : a.isReplacement = true) (hb : b.isReplacement = true) : P :=
      absurd ⟨ha, hb⟩ hrep
    refine iff_of_true ?_ (hnot _)
    split
    · exact hnot _
    · exact fun hb ha => hnot _ ha hb

/-- The checks find nothing wrong with edits that are placed. -/
theorem checks_eq_none_iff (b : Edits) :
    b.ordered.findSome? (misplaced? (size b.source) (b.ordered.filter (·.isReplacement))) = none ∧
      overlap? (b.ordered.filter (·.isReplacement)) = none ↔ Placed b.source b.active := by
  have hplaces : b.ordered.findSome? (misplaced? (size b.source)
        (b.ordered.filter (·.isReplacement))) = none ↔
      ∀ e ∈ b.active, (e.start ≤ e.stop ∧ e.stop ≤ size b.source) ∧ (e.isReplacement = false →
        ∀ r ∈ b.active, r.isReplacement = true → ¬(r.start < e.start ∧ e.start < r.stop)) := by
    simp only [List.findSome?_eq_none_iff, misplaced?_eq_none_iff, List.mem_filter, mem_ordered,
      and_imp]
  rw [hplaces]
  constructor
  · rintro ⟨hplaces, hoverlap⟩
    have hin (e : Edit) (he : e ∈ b.active) := (hplaces e he).1
    rw [overlap?_eq_none_iff fun r hr => (hin r (mem_ordered.1 (List.mem_filter.1 hr).1)).1,
      pairwise_replacements_iff] at hoverlap
    exact ⟨hin, fun e he => (hplaces e he).2, hoverlap⟩
  · rintro ⟨hin, hins, hreps⟩
    refine ⟨fun e he => ⟨hin e he, hins e he⟩, ?_⟩
    rwa [overlap?_eq_none_iff fun r hr => (hin r (mem_ordered.1 (List.mem_filter.1 hr).1)).1,
      pairwise_replacements_iff]

/-- Edits that pass the checks lie one behind the other in ascending order. -/
theorem Placed.follows {b : Edits} (hpoints : ∀ e ∈ b.active, e.IsPoint)
    (h : Placed b.source b.active) : Follows (size b.source) 0 b.ordered := by
  have hreps := List.pairwise_filter.1 ((pairwise_replacements_iff b).2 h.replacements)
  refine follows_of_pairwise (Nat.zero_le _) (fun e he => ?_) ?_
  · have he := mem_ordered.1 he
    exact ⟨⟨Nat.zero_le _, h.inside e he⟩, hpoints e he⟩
  · refine List.Pairwise.imp_of_mem ?_ ((pairwise_ordered b).and hreps)
    rintro a c ha hc ⟨hac, hreps⟩
    have ha := mem_ordered.1 ha
    have hc := mem_ordered.1 hc
    have hstart := start_le_of_precedes hac
    cases har : a.isReplacement with
    | false =>
      have := hpoints a ha har
      omega
    | true =>
      cases hcr : c.isReplacement with
      | true => exact hreps har hcr
      | false =>
        have hlt := start_lt_of_precedes hac har hcr
        have := h.insertions c hc hcr a ha har
        omega

theorem besideCopiedFrom_zero (b : Edits) :
    BesideCopiedFrom source b.ordered 0 p ↔ BesideCopied source b.active p := by
  simp only [BesideCopiedFrom, BesideCopied, CopiedFrom, Copied, replaced_ordered, Nat.zero_le,
    true_and]

/-- Edits that pass the checks can be applied if what is copied is clear. -/
theorem Placed.clear_iff {b : Edits} (hpoints : ∀ e ∈ b.active, e.IsPoint)
    (h : Placed b.source b.active) : Clear b.source 0 b.ordered ↔ Applicable b.source b.active := by
  rw [Edits.clear_iff (h.follows hpoints)]
  simp only [besideCopiedFrom_zero, mem_ordered]
  constructor
  · intro hall
    exact ⟨h, fun e he => hall e.start (.inr ⟨e, he, .inl rfl⟩),
      fun e he _ => hall e.stop (.inr ⟨e, he, .inr rfl⟩)⟩
  · rintro happ p (rfl | ⟨e, he, rfl | rfl⟩) hbeside
    · exact isBoundary_zero
    · exact happ.starts e he hbeside
    · cases hr : e.isReplacement with
      | true => exact happ.stops e he hr hbeside
      | false =>
        -- An insertion ends where it starts.
        rw [hpoints e he hr] at hbeside ⊢
        exact happ.starts e he hbeside

theorem splice_eq_spliceFrom (b : Edits) :
    splice source b.active = spliceFrom source b.ordered 0 := by
  unfold splice spliceFrom
  rw [Nat.sub_zero, List.range_eq_range']
  refine List.flatMap_congr fun p _ => ?_
  rw [spliceAt, ← texts_eq_writtenAt (pairwise_ordered b) p]
  simp only [textsAt_ordered, keptAt, replaced_ordered]

/-- Edits are applied if they can be. -/
theorem apply_eq_ok_iff {b : Edits} (hpoints : ∀ e ∈ b.active, e.IsPoint) :
    b.apply = .ok out ↔ Applicable b.source b.active ∧ write b.source 0 b.ordered = .ok out := by
  have hchecks := checks_eq_none_iff b
  unfold apply
  simp only
  constructor
  · intro h
    split at h
    · cases h
    · next hplaces =>
      split at h
      · cases h
      · next hoverlap =>
        have hplaced := hchecks.1 ⟨hplaces, hoverlap⟩
        have hclear := (write_splices (hplaced.follows hpoints)).1.1 ⟨out, h⟩
        exact ⟨(hplaced.clear_iff hpoints).1 hclear, h⟩
  · rintro ⟨happ, h⟩
    obtain ⟨hplaces, hoverlap⟩ := hchecks.2 happ.toPlaced
    rwa [hplaces, hoverlap]

/-- Edits that can be applied are, and what results is the splice. -/
theorem Applicable.exists_apply {b : Edits} (hpoints : ∀ e ∈ b.active, e.IsPoint)
    (happ : Applicable b.source b.active) :
    ∃ out, b.apply = .ok out ∧ bytes out = splice b.source b.active := by
  have hplaced := happ.toPlaced
  obtain ⟨hexists, hbytes⟩ := write_splices (hplaced.follows hpoints)
  obtain ⟨out, hout⟩ := hexists.2 ((hplaced.clear_iff hpoints).2 happ)
  exact ⟨out, (apply_eq_ok_iff hpoints).2 ⟨happ, hout⟩,
    (hbytes out hout).trans (splice_eq_spliceFrom b).symm⟩

end Edits

/-- Several edits at one offset. -/
example : Edits.splice "ab".toList (Edits.ofCalls "ab".toList [.insertBefore 1 "<before>",
      .insert 1 "<insert1>", .insertAfter 1 "<after>", .insert 1 "<insert2>",
      .replace 1 2 "B"]).active =
    bytes "a<after><insert1><insert2><before>B".toList := by
  decide +kernel

/-- Within a character an edit cannot be applied beside what is copied. -/
example : ¬Edits.Applicable "é".toList (Edits.ofCalls "é".toList [.insert 1 "x"]).active := by
  decide +kernel

end LoopClosure
