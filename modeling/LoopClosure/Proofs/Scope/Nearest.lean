import LoopClosure.Proofs.Scope.Forest
import LoopClosure.Proofs.Scope.Path
import Mathlib.Logic.Function.Iterate

/-!
# The nearest scope of a kind

`Scopes.Nearest s P y x`: of the scopes around `x`, itself included, that have the property `P`, all
others lie around `y`. This says without a bound on the length of the way up what the operations
look for that walk up from `x`.

In a table without cycles (`Acyclic`) such a scope is the only one, and a search finds it exactly if
the walk shows it (`find?_walkUp_eq_some_iff`). A walk shows what is reached in fewer steps than its
bound (`mem_walkUp_iff`), so that it shows the whole way up exactly if that has at most `maxWalk`
scopes (`EndsInTime`).
-/

namespace LoopClosure.Scopes

variable {s t : Scopes} {x y z p : ScopeId} {n : Nat} {P : ScopeId → Prop} {name : String}

/-! ## Ways up -/

/-- No scope lies around its parent. -/
def Acyclic (s : Scopes) : Prop := ∀ {x p : ScopeId}, s.parent? (some x) = some p → ¬s.Under x p

theorem Rooted.acyclic (h : s.Rooted) : s.Acyclic := fun hp => h.not_under_parent hp

theorem mem_walk_self (s : Scopes) (x : ScopeId) : x ∈ s.walk (some x) := List.mem_cons_self

theorem under_of_mem_walkUp (h : y ∈ s.walkUp n (some x)) : s.Under y x := by
  induction n generalizing x with
  | zero => cases h
  | succ n ih =>
    rw [walkUp_succ] at h
    rcases List.mem_cons.1 h with rfl | h
    · exact .refl
    · cases hp : s.parent? (some x) with
      | none =>
        rw [hp, walkUp_none] at h
        cases h
      | some p => exact .up hp (ih (hp ▸ h))

/-- Of two scopes around a third, one lies around the other. -/
theorem Under.comparable (hy : s.Under y x) (hz : s.Under z x) : s.Under y z ∨ s.Under z y := by
  induction hy with
  | refl => exact .inr hz
  | up hp hy ih =>
    cases hz with
    | refl => exact .inl (.up hp hy)
    | up hp' hz =>
      cases hp.symm.trans hp'
      exact ih hz

theorem Under.antisymm (hs : s.Acyclic) (hy : s.Under y x) (hx : s.Under x y) : y = x := by
  cases hy with
  | refl => rfl
  | up hp hy => exact absurd (hx.trans hy) (hs hp)

/-- A way up that shows a scope shows what lies before it. -/
theorem mem_walkUp_of_under (hs : s.Acyclic) (hz : z ∈ s.walkUp n (some x)) (hy : s.Under y x)
    (hzy : s.Under z y) : y ∈ s.walkUp n (some x) := by
  induction n generalizing x with
  | zero => cases hz
  | succ n ih =>
    rw [walkUp_succ] at hz ⊢
    cases hy with
    | refl => exact List.mem_cons_self
    | up hp hy =>
      rcases List.mem_cons.1 hz with rfl | hz
      · exact absurd (hzy.trans hy) (hs hp)
      · rw [hp] at hz ⊢
        exact List.mem_cons_of_mem _ (ih hz hy)

/-- A way up that is not cut off shows all that lies around. -/
theorem mem_walkUp_of_length_lt (hy : s.Under y x) (h : (s.walkUp n (some x)).length < n) :
    y ∈ s.walkUp n (some x) := by
  induction hy generalizing n with
  | refl =>
    obtain ⟨n, rfl⟩ := Nat.exists_eq_succ_of_ne_zero (Nat.ne_zero_of_lt h)
    exact List.mem_cons_self
  | up hp _ ih =>
    obtain ⟨n, rfl⟩ := Nat.exists_eq_succ_of_ne_zero (Nat.ne_zero_of_lt h)
    rw [walkUp_succ, hp] at h ⊢
    exact List.mem_cons_of_mem _ (ih (Nat.lt_of_succ_lt_succ h))

/-! ## Steps of a way up -/

theorem parent?_none (s : Scopes) : s.parent? none = none := rfl

theorem under_iff_iterate : s.Under y x ↔ ∃ k, s.parent?^[k] (some x) = some y := by
  constructor
  · intro h
    induction h with
    | refl => exact ⟨0, rfl⟩
    | up hp _ ih =>
      obtain ⟨k, hk⟩ := ih
      exact ⟨k + 1, by rw [Function.iterate_succ_apply, hp, hk]⟩
  · rintro ⟨k, hk⟩
    induction k generalizing x with
    | zero =>
      obtain rfl := Option.some.inj hk
      exact .refl
    | succ k ih =>
      rw [Function.iterate_succ_apply] at hk
      cases hp : s.parent? (some x) with
      | none =>
        rw [hp, Function.iterate_fixed (parent?_none s)] at hk
        cases hk
      | some p => exact .up hp (ih (hp ▸ hk))

/-- A walk shows what is reached in fewer steps than its bound. -/
theorem mem_walkUp_iff {id : Option ScopeId} :
    y ∈ s.walkUp n id ↔ ∃ k < n, s.parent?^[k] id = some y := by
  induction n generalizing id with
  | zero => simp [walkUp]
  | succ n ih =>
    cases id with
    | none => simp [Function.iterate_fixed (parent?_none s)]
    | some x =>
      rw [walkUp_succ, List.mem_cons, ih, Nat.exists_lt_succ_left]
      exact or_congr_left ⟨fun h => congrArg some h.symm, fun h => (Option.some.inj h).symm⟩

/-- `y` is reached from `x` in fewer steps than a walk is long. -/
def InReach (s : Scopes) (y x : ScopeId) : Prop := ∃ k < maxWalk, s.parent?^[k] (some x) = some y

theorem mem_walk_iff : y ∈ s.walk (some x) ↔ s.InReach y x := mem_walkUp_iff

/-- The way up from a scope has at most `maxWalk` scopes. -/
def EndsInTime (s : Scopes) (x : ScopeId) : Prop := s.parent?^[maxWalk] (some x) = none

/-- A way up that ends in time is shown whole. -/
theorem EndsInTime.mem_walk (h : s.EndsInTime x) (hy : s.Under y x) : y ∈ s.walk (some x) := by
  obtain ⟨k, hk⟩ := under_iff_iterate.1 hy
  refine mem_walkUp_iff.2 ⟨k, ?_, hk⟩
  by_contra hle
  obtain ⟨m, rfl⟩ := Nat.exists_eq_add_of_le' (Nat.le_of_not_lt hle)
  rw [Function.iterate_add_apply, h, Function.iterate_fixed (parent?_none s)] at hk
  cases hk

/-- A way up that is cut off does not show where it is cut off. -/
theorem endsInTime_of_forall_mem_walk (hs : s.Acyclic)
    (h : ∀ y, s.Under y x → y ∈ s.walk (some x)) : s.EndsInTime x := by
  refine Option.eq_none_iff_forall_ne_some.2 fun y hy => ?_
  obtain ⟨k, hk, hyk⟩ := mem_walkUp_iff.1 (h y (under_iff_iterate.2 ⟨_, hy⟩))
  -- From `y`, which is reached in `k` steps, the way would lead back to `y`.
  obtain ⟨m, hm⟩ := Nat.exists_eq_add_of_lt hk
  rw [hm, Nat.add_assoc, Nat.add_comm, Function.iterate_add_apply, hyk,
    Function.iterate_succ_apply] at hy
  cases hp : s.parent? (some y) with
  | none =>
    rw [hp, Function.iterate_fixed (parent?_none s)] at hy
    cases hy
  | some p => exact hs hp (under_iff_iterate.2 ⟨m, hp ▸ hy⟩)

/-- If scopes are younger than their parents, no way up is longer than the table. -/
theorem endsInTime_of_parent_lt (h : ∀ {x p : ScopeId}, s.parent? (some x) = some p → p < x)
    (hsize : s.size ≤ maxWalk) (x : ScopeId) : s.EndsInTime x := by
  have hdown {k : Nat} {x y : ScopeId} (hy : s.parent?^[k] (some x) = some y) : y + k ≤ x := by
    induction k generalizing x with
    | zero => exact Nat.le_of_eq (Option.some.inj hy).symm
    | succ k ih =>
      rw [Function.iterate_succ_apply] at hy
      cases hp : s.parent? (some x) with
      | none =>
        rw [hp, Function.iterate_fixed (parent?_none s)] at hy
        cases hy
      | some p => exact Nat.lt_of_le_of_lt (ih (hp ▸ hy)) (h hp)
  refine Option.eq_none_iff_forall_ne_some.2 fun y hy => ?_
  have hle := hdown hy
  have hx : x < s.size := by
    by_contra hge
    rw [show maxWalk = 9999 + 1 from rfl, Function.iterate_succ_apply, parent?,
      get?_eq_none (Nat.le_of_not_lt hge), Option.bind_none,
      Function.iterate_fixed (parent?_none s)] at hy
    cases hy
  exact Nat.not_lt_of_le (Nat.le_trans (Nat.le_add_left _ _) hle) (Nat.lt_of_lt_of_le hx hsize)

theorem Under.le_of_parent_lt (hy : s.Under y x)
    (h : ∀ {x p : ScopeId}, s.parent? (some x) = some p → p < x) : y ≤ x := by
  induction hy with
  | refl => exact Nat.le_refl _
  | up hp _ ih => exact Nat.le_trans ih (Nat.le_of_lt (h hp))

theorem acyclic_of_parent_lt (h : ∀ {x p : ScopeId}, s.parent? (some x) = some p → p < x) :
    s.Acyclic :=
  fun hp hu => Nat.not_lt_of_le (hu.le_of_parent_lt h) (h hp)

/-- If all ways up end, there are no cycles. -/
theorem acyclic_of_endsInTime (h : ∀ x, s.EndsInTime x) : s.Acyclic := fun {x p} hp hxp => by
  obtain ⟨k, hk⟩ := under_iff_iterate.1 hxp
  have hcycle : s.parent?^[k + 1] (some x) = some x := by
    rw [Function.iterate_succ_apply, hp, hk]
  have hagain : s.parent?^[(k + 1) * maxWalk] (some x) = some x := by
    rw [Function.iterate_mul]
    exact Function.iterate_fixed hcycle maxWalk
  have hend : s.parent?^[maxWalk] (some x) = none := h x
  rw [Nat.mul_comm, Function.iterate_mul, Function.iterate_succ_apply, hend,
    Function.iterate_fixed (Function.iterate_fixed (parent?_none s) maxWalk)] at hagain
  cases hagain

/-! ## Tables with the same tree -/

theorem SameShape.under_iff (h : SameShape s t) : t.Under y x ↔ s.Under y x :=
  ⟨fun hu => hu.congr fun _ => (h.parent? _).symm, fun hu => hu.congr fun _ => h.parent? _⟩

theorem Acyclic.of_sameShape (hs : s.Acyclic) (h : SameShape s t) : t.Acyclic :=
  fun hp hu => hs ((h.parent? _).symm.trans hp) (h.under_iff.1 hu)

theorem EndsInTime.of_sameShape (hx : s.EndsInTime x) (h : SameShape s t) : t.EndsInTime x := by
  rw [EndsInTime, funext h.parent?]
  exact hx

/-! ## The nearest scope -/

/-- Of the scopes around `x` that have the property, `y` is the one that lies below all others. -/
structure Nearest (s : Scopes) (P : ScopeId → Prop) (y x : ScopeId) : Prop where
  under : s.Under y x
  holds : P y
  first : ∀ {z}, s.Under z x → P z → s.Under z y

namespace Nearest

theorem unique (hs : s.Acyclic) (h : s.Nearest P y x) (h' : s.Nearest P z x) : y = z :=
  Under.antisymm hs (h'.first h.under h.holds) (h.first h'.under h'.holds)

/-- A scope without the property does not count. -/
theorem of_parent? (h : s.Nearest P y x) (hx : ¬P x) (hp : s.parent? (some x) = some p) :
    s.Nearest P y p where
  under := by
    cases h.under with
    | refl => exact absurd h.holds hx
    | up hp' hy => exact Option.some.inj (hp.symm.trans hp') ▸ hy
  holds := h.holds
  first hz := h.first (.up hp hz)

end Nearest

/-- What is found first on a way up lies below all else that would be found there. -/
theorem nearest_of_find?_walkUp {p : ScopeId → Bool}
    (h : (s.walkUp n (some x)).find? p = some y) : s.Nearest (p · = true) y x := by
  induction n generalizing x with
  | zero => cases h
  | succ n ih =>
    rw [walkUp_succ, List.find?_cons] at h
    split at h
    · next hx =>
      obtain rfl := Option.some.inj h
      exact ⟨.refl, hx, fun hz _ => hz⟩
    · next hx =>
      cases hp : s.parent? (some x) with
      | none =>
        rw [hp, walkUp_none] at h
        cases h
      | some q =>
        have hq := ih (hp ▸ h)
        refine ⟨.up hp hq.under, hq.holds, fun hz hpz => ?_⟩
        cases hz with
        | refl => exact absurd hpz (by simp [hx])
        | up hp' hz =>
          cases hp.symm.trans hp'
          exact hq.first hz hpz

/-- A search on the way up finds the nearest scope, provided that the walk shows it. -/
theorem find?_walkUp_eq_some_iff (hs : s.Acyclic) {p : ScopeId → Bool} :
    (s.walkUp n (some x)).find? p = some y ↔
      s.Nearest (p · = true) y x ∧ y ∈ s.walkUp n (some x) := by
  refine ⟨fun h => ⟨nearest_of_find?_walkUp h, List.mem_of_find?_eq_some h⟩, fun ⟨hy, hmem⟩ => ?_⟩
  obtain ⟨z, hz⟩ := Option.isSome_iff_exists.1 (List.find?_isSome.2 ⟨y, hmem, hy.holds⟩)
  rw [hz, hy.unique hs (nearest_of_find?_walkUp hz)]

/-- The scope declares the name. -/
def Declares (s : Scopes) (name : String) (x : ScopeId) : Prop :=
  (s.declaration? (some x) name).isSome = true

/-- The scope is a hoisting scope. -/
def Hoists (s : Scopes) (x : ScopeId) : Prop := s.kind? (some x) = some .hoist

instance (s : Scopes) : DecidablePred s.Hoists := fun x =>
  inferInstanceAs (Decidable (s.kind? (some x) = some .hoist))

theorem lookup?_eq_some_iff (hs : s.Acyclic) : s.lookup? (some x) name = some y ↔
    s.Nearest (s.Declares name) y x ∧ y ∈ s.walk (some x) := by
  simp only [lookup?, declares_eq]
  exact find?_walkUp_eq_some_iff hs

theorem closestHoist?_eq_some_iff (hs : s.Acyclic) : s.closestHoist? (some x) = some y ↔
    s.Nearest s.Hoists y x ∧ y ∈ s.walk (some x) := by
  have hiff : s.Hoists = fun z : ScopeId => decide (s.kind? (some z) = some .hoist) = true :=
    funext fun z => propext decide_eq_true_iff.symm
  rw [hiff]
  exact find?_walkUp_eq_some_iff hs

theorem isAncestor_iff : s.isAncestor (some y) (some x) = true ↔ y ∈ s.walk (some x) := by
  simp only [isAncestor, List.any_eq_true, decide_eq_true_eq, Option.some.injEq, exists_eq_right]

/-! ## A nest of blocks -/

/-- A hoisting scope with `n` blocks in one another; scope `n` is the innermost one. -/
def nest : Nat → Scopes
  | 0 => (Scopes.alloc {} .hoist none none {}).1
  | n + 1 => ((nest n).alloc .block none (some n) {}).1

theorem size_nest : (nest n).size = n + 1 := by
  induction n with
  | zero => rfl
  | succ n ih => rw [nest, size_alloc, ih]

theorem ne_size_nest : some n ≠ some (nest n).size := by simp [size_nest]

theorem grown_nest : (nest n).Grown := by
  induction n with
  | zero => exact .first _ _ rfl
  | succ n ih => exact ih.alloc (by simp [size_nest]) rfl

theorem acyclic_nest : (nest n).Acyclic := acyclic_of_parent_lt grown_nest.parent_lt

theorem endsInTime_nest (h : n < maxWalk) (x : ScopeId) : (nest n).EndsInTime x :=
  endsInTime_of_parent_lt grown_nest.parent_lt (by rwa [size_nest]) x

theorem parent?_nest (h : x < n) : (nest n).parent? (some (x + 1)) = some x := by
  induction n with
  | zero => cases h
  | succ n ih =>
    rw [nest, parent?_alloc ne_size_nest, size_nest]
    by_cases hx : x = n
    · rw [if_pos (hx ▸ rfl), hx]
    · rw [if_neg fun heq => hx (Nat.succ.inj heq),
        ih (Nat.lt_of_le_of_ne (Nat.le_of_lt_succ h) hx)]

theorem iterate_parent?_nest {k : Nat} (hk : k ≤ x) (hx : x ≤ n) :
    (nest n).parent?^[k] (some x) = some (x - k) := by
  induction k generalizing x with
  | zero => rfl
  | succ k ih =>
    obtain ⟨x, rfl⟩ := Nat.exists_eq_add_one.2 (Nat.zero_lt_of_lt hk)
    rw [Function.iterate_succ_apply, parent?_nest hx, ih (Nat.le_of_succ_le_succ hk)
      (Nat.le_of_succ_le hx), Nat.add_sub_add_right]

theorem under_nest (hx : x ≤ n) : (nest n).Under 0 x :=
  under_iff_iterate.2 ⟨x, by rw [iterate_parent?_nest (Nat.le_refl x) hx, Nat.sub_self]⟩

theorem hoists_nest_iff : (nest n).Hoists x ↔ x = 0 := by
  induction n with
  | zero =>
    rw [Hoists, nest, kind?_alloc (Option.some_ne_none _).symm]
    by_cases hx : x = 0 <;> simp [hx, kind?, get?, size]
  | succ n ih =>
    rw [Hoists, nest, kind?_alloc ne_size_nest, size_nest]
    split
    · simp_all
    · exact ih

theorem nearest_hoist_nest (hx : x ≤ n) : (nest n).Nearest (nest n).Hoists 0 x where
  under := under_nest hx
  holds := hoists_nest_iff.2 rfl
  first _ hz := hoists_nest_iff.1 hz ▸ .refl

theorem declaration?_nest (x : ScopeId) (name : String) :
    (nest n).declaration? (some x) name = none := by
  induction n with
  | zero =>
    rw [nest, declaration?_alloc (Option.some_ne_none _).symm]
    simp [declaration?, get?]
  | succ n ih => rw [nest, declaration?_alloc ne_size_nest, ih]

end LoopClosure.Scopes
