import LoopClosure.Proofs.Draft.Placement
import Mathlib.Data.Fintype.Pigeonhole

/-!
# The innermost hoisting scope around two scopes

`Scopes.Lowest s P z x y`: of the scopes around both `x` and `y` that have the property `P`, all
others lie around `z`. It does not matter which of the two scopes is named first (`Lowest.symm`), and
in a table without cycles there is one such scope at most (`Lowest.unique`).

Where ways up end in time, the search for a common hoisting scope finds the lowest one, and the
search for a seat that starts there finds the lowest seat (`commonHoist_lowest`). The second search
passes a hoisting scope in each round, so that it needs no more rounds than there are scopes
(`declarationScope?_eq_some_iff`).
-/

namespace LoopClosure

namespace Scopes

variable {s : Scopes} {x y z w : ScopeId} {n m : Nat} {P Q : ScopeId → Prop}

/-! ## Ways up that end -/

theorem iterate_parent?_eq_none {id : Option ScopeId} (h : s.parent?^[n] id = none) (hle : n ≤ m) :
    s.parent?^[m] id = none := by
  obtain ⟨k, rfl⟩ := Nat.exists_eq_add_of_le' hle
  rw [Function.iterate_add_apply, h, Function.iterate_fixed (parent?_none s)]

/-- What lies around a scope is no farther from the end than the scope. -/
theorem Under.iterate_parent?_eq_none (hy : s.Under y x) (h : s.parent?^[n] (some x) = none) :
    s.parent?^[n] (some y) = none := by
  obtain ⟨k, hk⟩ := under_iff_iterate.1 hy
  rw [← hk, ← Function.iterate_add_apply]
  exact Scopes.iterate_parent?_eq_none h (Nat.le_add_right n k)

theorem EndsInTime.of_under (hx : s.EndsInTime x) (hy : s.Under y x) : s.EndsInTime y :=
  hy.iterate_parent?_eq_none hx

/-- Without cycles a way up takes each scope of the table once. -/
theorem iterate_parent?_size (hs : s.Acyclic) (x : ScopeId) :
    s.parent?^[s.size + 1] (some x) = none := by
  refine Option.eq_none_iff_forall_ne_some.2 fun z hz => ?_
  have hstep (k : Fin (s.size + 1)) : ∃ y : Fin s.size, s.parent?^[k] (some x) = some y.val := by
    cases hk : s.parent?^[k] (some x) with
    | none => cases (Scopes.iterate_parent?_eq_none hk (Nat.le_of_lt k.isLt)).symm.trans hz
    | some y =>
      refine ⟨⟨y, ?_⟩, rfl⟩
      by_contra hle
      -- Where the table ends, so does the way.
      have hend : s.parent?^[(k : Nat) + 1] (some x) = none := by
        rw [Function.iterate_succ_apply', hk, parent?, get?_eq_none (Nat.le_of_not_lt hle)]
        rfl
      cases (Scopes.iterate_parent?_eq_none hend k.isLt).symm.trans hz
  choose f hf using hstep
  obtain ⟨i, j, hne, heq⟩ := Fintype.exists_ne_map_eq_of_card_lt f (by simp)
  wlog hlt : i < j generalizing i j
  · exact this j i hne.symm heq.symm (lt_of_le_of_ne (not_lt.1 hlt) hne.symm)
  -- The scope that is met twice lies around its own parent.
  obtain ⟨k, hk⟩ := Nat.exists_eq_add_of_lt hlt
  have hcycle : s.parent?^[k + 1] (some (f i).val) = some (f i).val := by
    rw [← hf i, ← Function.iterate_add_apply, Nat.add_comm, ← Nat.add_assoc, ← hk, hf j, hf i, heq]
  rw [Function.iterate_succ_apply] at hcycle
  cases hp : s.parent? (some (f i).val) with
  | none =>
    rw [hp, Function.iterate_fixed (parent?_none s)] at hcycle
    cases hcycle
  | some p => exact hs hp (under_iff_iterate.2 ⟨k, hp ▸ hcycle⟩)

/-! ## The lowest scope around two scopes -/

/-- Of the scopes around both that have the property, `z` is the one that lies below all others. -/
structure Lowest (s : Scopes) (P : ScopeId → Prop) (z x y : ScopeId) : Prop where
  left : s.Under z x
  right : s.Under z y
  holds : P z
  lowest : ∀ {w}, s.Under w x → s.Under w y → P w → s.Under w z

namespace Lowest

theorem symm (h : s.Lowest P z x y) : s.Lowest P z y x :=
  ⟨h.right, h.left, h.holds, fun hy hx => h.lowest hx hy⟩

theorem unique (hs : s.Acyclic) (h : s.Lowest P z x y) (h' : s.Lowest P w x y) : z = w :=
  Under.antisymm hs (h'.lowest h.left h.right h.holds) (h.lowest h'.left h'.right h'.holds)

theorem of_nearest (h : s.Nearest (fun w => s.Under w x ∧ P w) z y) : s.Lowest P z x y :=
  ⟨h.holds.1, h.under, h.holds.2, fun hx hy hw => h.first hy ⟨hx, hw⟩⟩

/-- The lowest scope with a stronger property is the nearest one from the lowest scope. -/
theorem strengthen (h : s.Lowest P z x y) (hQ : ∀ {w}, Q w → P w) :
    s.Lowest Q w x y ↔ s.Nearest Q w z where
  mp hw := ⟨h.lowest hw.left hw.right (hQ hw.holds), hw.holds,
    fun hv hq => hw.lowest (hv.trans h.left) (hv.trans h.right) hq⟩
  mpr hw := ⟨hw.under.trans h.left, hw.under.trans h.right, hw.holds,
    fun hx hy hq => hw.first (h.lowest hx hy (hQ hq)) hq⟩

end Lowest

end Scopes

open Syntax Scopes

namespace Bound

variable {b : Bound} {x y z : ScopeId} {n : Nat}

theorem seats_iff_nearest : b.Seats y x ↔ b.scopes.Nearest b.IsSeat y x :=
  ⟨fun h => ⟨h.under, h.isSeat, fun hz hseat => h.innermost hseat hz⟩,
    fun h => ⟨h.holds, h.under, fun hseat hz => h.first hz hseat⟩⟩

/-- The search finds the seat if it has as many rounds as there are scopes on the way up. -/
theorem declarationScopeWithin_of_seats (hs : b.scopes.Acyclic)
    (hn : b.scopes.parent?^[n] (some x) = none) (hx : b.scopes.EndsInTime x) (h : b.Seats y x) :
    b.declarationScopeWithin n (some x) = some y := by
  induction n generalizing x with
  | zero => cases hn
  | succ n ih =>
    obtain ⟨hoist, hclosest⟩ : ∃ hoist, b.scopes.closestHoist? (some x) = some hoist :=
      Option.isSome_iff_exists.1 <|
        List.find?_isSome.2 ⟨y, hx.mem_walk h.under, decide_eq_true h.isSeat.1⟩
    obtain ⟨hhoist, -⟩ := (closestHoist?_eq_some_iff hs).1 hclosest
    rw [declarationScopeWithin, hclosest]
    dsimp only
    have hy : b.scopes.Under y hoist := hhoist.first h.under h.isSeat.1
    split
    · next htakes =>
      have hseat : b.scopes.Under hoist y := h.innermost ⟨hhoist.holds, htakes⟩ hhoist.under
      rw [hy.antisymm hs hseat]
    · next htakes =>
      cases hy with
      | refl => exact absurd h.isSeat.2 htakes
      | @up _ p hp hyp =>
        have hpx : b.scopes.Under p x := (Under.up hp .refl).trans hhoist.under
        rw [hp]
        refine ih ?_ (hx.of_under hpx)
          ⟨h.isSeat, hyp, fun hz hzp => h.innermost hz (hzp.trans hpx)⟩
        -- One step of the way is taken.
        have hend := hhoist.under.iterate_parent?_eq_none hn
        rwa [Function.iterate_succ_apply, hp] at hend

/-- The scope for the declarations of a scope is the innermost seat around it, and there is one
unless no seat is around it. -/
theorem declarationScope?_eq_some_iff (hs : b.scopes.Acyclic) (hx : b.scopes.EndsInTime x) :
    b.declarationScope? (some x) = some y ↔ b.Seats y x :=
  ⟨seats_of_declarationScope?,
    declarationScopeWithin_of_seats hs (iterate_parent?_size hs x) hx⟩

theorem lowest_of_commonHoist (hx : b.scopes.EndsInTime x) (hy : b.scopes.EndsInTime y)
    (h : ∃ c, b.scopes.Hoists c ∧ b.scopes.Under c x ∧ b.scopes.Under c y) :
    ∃ z, b.commonHoist (some x) (some y) = some z ∧ b.scopes.Lowest b.scopes.Hoists z x y := by
  unfold commonHoist
  extract_lets around
  have haround : (fun c => around.contains c = true) =
      fun c => b.scopes.Under c x ∧ b.scopes.Hoists c := by
    funext c
    rw [List.contains_iff_mem, List.mem_filter, decide_eq_true_iff]
    exact propext (and_congr_left' ⟨under_of_mem_walkUp, hx.mem_walk⟩)
  obtain ⟨c, hc, hcx, hcy⟩ := h
  have hcaround : around.contains c = true := (congrFun haround c).mpr ⟨hcx, hc⟩
  obtain ⟨z, hz⟩ := Option.isSome_iff_exists.1 <|
    List.find?_isSome.2 ⟨c, hy.mem_walk hcy, hcaround⟩
  refine ⟨z, by rw [hz, Option.some_or], .of_nearest ?_⟩
  rw [← haround]
  exact nearest_of_find?_walkUp hz

/-- In a table without cycles, for scopes whose ways up end in time and that have a hoisting scope in
common: the search for a common hoisting scope finds the lowest one, whichever of the two is named
first, and the scope for the declarations of that scope is the lowest seat around both. -/
theorem commonHoist_lowest (hs : b.scopes.Acyclic) (hx : b.scopes.EndsInTime x)
    (hy : b.scopes.EndsInTime y)
    (h : ∃ c, b.scopes.Hoists c ∧ b.scopes.Under c x ∧ b.scopes.Under c y) :
    ∃ z, b.commonHoist (some x) (some y) = some z ∧ b.commonHoist (some y) (some x) = some z ∧
      b.scopes.Lowest b.scopes.Hoists z x y ∧
      ∀ seat, b.declarationScope? (some z) = some seat ↔ b.scopes.Lowest b.IsSeat seat x y := by
  obtain ⟨z, hz, hlowest⟩ := lowest_of_commonHoist hx hy h
  obtain ⟨c, hc, hcx, hcy⟩ := h
  obtain ⟨z', hz', hlowest'⟩ := lowest_of_commonHoist hy hx ⟨c, hc, hcy, hcx⟩
  have heq : z' = z := hlowest'.symm.unique hs hlowest
  refine ⟨z, hz, heq ▸ hz', hlowest, fun seat => ?_⟩
  calc b.declarationScope? (some z) = some seat
      ↔ b.Seats seat z := declarationScope?_eq_some_iff hs (hx.of_under hlowest.left)
    _ ↔ b.scopes.Nearest b.IsSeat seat z := seats_iff_nearest
    _ ↔ b.scopes.Lowest b.IsSeat seat x y := (hlowest.strengthen fun hw => hw.1).symm

/-- Two methods of a class. -/
def methods : List Char := "class A \x7b m() \x7b \x7d n() \x7b \x7d \x7d".toList

/-- The class is the lowest hoisting scope around its methods, and their seat is the program. -/
theorem commonHoist_lowest_methods : ∃ t b, Grammar.parse methods = .ok t ∧
    bind ⟨"", methods, .ofTree t, {}⟩ = .ok b ∧
      b.commonHoist (some 3) (some 4) = some 2 ∧ b.declarationScope? (some 2) = some 1 ∧
      b.scopes.Acyclic ∧ b.scopes.EndsInTime 3 ∧ b.scopes.EndsInTime 4 ∧
      b.scopes.Lowest b.scopes.Hoists 2 3 4 ∧ b.scopes.Lowest b.IsSeat 1 3 4 := by
  have hrun : okAnd (Grammar.parse methods) (fun t =>
      okAnd (bind ⟨"", methods, .ofTree t, {}⟩) fun b => decide (b.scopes.size ≤ maxWalk ∧
        b.commonHoist (some 3) (some 4) = some 2 ∧ b.declarationScope? (some 2) = some 1 ∧
        b.scopes.Hoists 2 ∧ b.scopes.parent? (some 3) = some 2 ∧
        b.scopes.parent? (some 4) = some 2)) = true := by
    decide +kernel
  obtain ⟨t, hparse, hrun⟩ := okAnd_iff.1 hrun
  obtain ⟨b, hb, hrun⟩ := okAnd_iff.1 hrun
  obtain ⟨hsize, hcommon, hseat, hhoists, hm, hn⟩ := of_decide_eq_true hrun
  have hgrown : b.scopes.Grown := (bind_layout
    (Nodes.wellFormed_ofTree (Grammar.parse_wellFormed hparse)) (Grammar.parse_rooted hparse) hb).grown
  have hs : b.scopes.Acyclic := acyclic_of_parent_lt hgrown.parent_lt
  have hends (x : ScopeId) : b.scopes.EndsInTime x :=
    endsInTime_of_parent_lt hgrown.parent_lt hsize x
  obtain ⟨z, hz, -, hlowest, hseats⟩ := commonHoist_lowest hs (hends 3) (hends 4)
    ⟨2, hhoists, .up hm .refl, .up hn .refl⟩
  obtain rfl : 2 = z := Option.some.inj (hcommon.symm.trans hz)
  exact ⟨t, b, hparse, hb, hcommon, hseat, hs, hends 3, hends 4, hlowest, (hseats 1).1 hseat⟩

end Bound

end LoopClosure
