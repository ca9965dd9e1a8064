import LoopClosure.Proofs.Scope.Declare

/-!
# Walks that are cut off

- `Scopes.WalksInReach s x`: what the operations that walk up from `x` answer in a table without
  cycles, however long the way up is. They know of no scope that is `maxWalk` steps or more away,
  and say so in an ordinary answer: a name is not found, there is no hoisting scope, a scope is no
  ancestor, a hoisted binding is dropped.
- `Scopes.WalksExact s x`: the answers tell of the whole way up.

The answers are exact if and only if the way up ends in time (`walks_exact_iff`).
-/

namespace LoopClosure.Scopes

open Syntax (NodeId)

variable {s : Scopes} {x y : ScopeId} {name : String} {kind : BindingKind}

/-- The operations answer for the scopes within reach. -/
structure WalksInReach (s : Scopes) (x : ScopeId) : Prop where
  lookup? : ∀ {name : String} {y : ScopeId}, s.lookup? (some x) name = some y ↔
    s.Nearest (s.Declares name) y x ∧ s.InReach y x
  closestHoist? : ∀ {y : ScopeId}, s.closestHoist? (some x) = some y ↔
    s.Nearest s.Hoists y x ∧ s.InReach y x
  isAncestor : ∀ {y : ScopeId}, s.isAncestor (some y) (some x) = true ↔ s.InReach y x
  /-- What is not refused gets to the nearest hoisting scope, or nowhere. -/
  declare : ∀ {name : String} {kind : BindingKind} {node : Option NodeId} {fromPos : Option Nat}
    {y : ScopeId} {r : Scopes} {target : Option ScopeId}, kind.isHoisted = true →
    s.Nearest s.Hoists y x → s.declare (some x) name kind node fromPos = .ok (r, target) →
      (s.InReach y x → target = some y ∧ r.Declares name y) ∧
        (¬s.InReach y x → target = none ∧ r = s)

/-- The operations answer for all scopes around. -/
structure WalksExact (s : Scopes) (x : ScopeId) : Prop where
  lookup? : ∀ {name : String} {y : ScopeId}, s.lookup? (some x) name = some y ↔
    s.Nearest (s.Declares name) y x
  closestHoist? : ∀ {y : ScopeId}, s.closestHoist? (some x) = some y ↔ s.Nearest s.Hoists y x
  isAncestor : ∀ {y : ScopeId}, s.isAncestor (some y) (some x) = true ↔ s.Under y x
  declare : ∀ {name : String} {kind : BindingKind} {node : Option NodeId} {fromPos : Option Nat}
    {y : ScopeId} {r : Scopes} {target : Option ScopeId}, kind.isHoisted = true →
    s.Nearest s.Hoists y x → s.declare (some x) name kind node fromPos = .ok (r, target) →
      target = some y ∧ r.Declares name y

/-- A binding whose hoisting scope is out of reach is refused or dropped. -/
theorem declare_of_not_mem_walk {node : Option NodeId} {fromPos : Option Nat} {r : Scopes}
    {target : Option ScopeId} (hs : s.Acyclic) (hh : s.Nearest s.Hoists y x)
    (hmem : y ∉ s.walk (some x)) (hk : kind.isHoisted = true)
    (h : s.declare (some x) name kind node fromPos = .ok (r, target)) : target = none ∧ r = s := by
  have hnone : s.closestHoist? (some x) = none := Option.eq_none_iff_forall_ne_some.2 fun z hz => by
    obtain ⟨hz, hzmem⟩ := (closestHoist?_eq_some_iff hs).1 hz
    exact hmem (hz.unique hs hh ▸ hzmem)
  have hget (z : ScopeId) (hz : z ∈ (s.walk (some x)).takeWhile
      fun (j : ScopeId) => s.kind? j ≠ some .hoist) : ∃ c, s.get? (some z) = some c := by
    have hzmem := List.takeWhile_subset _ hz
    -- The walk does not get as far as the hoisting scope.
    rcases hh.under.comparable (under_of_mem_walkUp hzmem) with hyz | hzy
    · exact get?_of_lt (Hoists.lt_size hh.holds hyz)
    · exact absurd (mem_walkUp_of_under hs hzmem hh.under hzy) hmem
  rcases hoistTarget_cases name hget with ⟨heq, -⟩ | ⟨⟨d, he⟩, -⟩
  · have heq : s.hoistTarget name (s.walk (some x)) = .ok none := heq.trans (congrArg _ hnone)
    simp only [declare, hk, if_true, heq] at h
    cases h
    exact ⟨rfl, rfl⟩
  · simp only [declare, hk, if_true, he] at h
    cases h

/-- A binding whose hoisting scope is within reach is refused or stored there. -/
theorem declare_of_mem_walk {node : Option NodeId} {fromPos : Option Nat} {r : Scopes}
    {target : Option ScopeId} (hs : s.Acyclic) (hh : s.Nearest s.Hoists y x)
    (hmem : y ∈ s.walk (some x)) (hk : kind.isHoisted = true)
    (h : s.declare (some x) name kind node fromPos = .ok (r, target)) :
    target = some y ∧ r.Declares name y := by
  have hreceiver : receiver kind x y = y := receiver_of_isHoisted hk
  rcases declare_cases_of_mem_walk hs hh hmem name kind node fromPos with
    ⟨-, d, heq⟩ | ⟨-, hd, heq⟩ | ⟨-, -, heq⟩
  · cases heq.symm.trans h
  · rw [hreceiver] at hd
    cases heq.symm.trans h
    exact ⟨congrArg some hreceiver, hd⟩
  · cases heq.symm.trans h
    refine ⟨congrArg some hreceiver, ?_⟩
    rw [hreceiver, Declares, isSome_declaration?_append (Hoists.lt_size hh.holds .refl)]
    simp

theorem walksInReach (hs : s.Acyclic) (x : ScopeId) : s.WalksInReach x where
  lookup? := by
    simp only [← mem_walk_iff]
    exact lookup?_eq_some_iff hs
  closestHoist? := by
    simp only [← mem_walk_iff]
    exact closestHoist?_eq_some_iff hs
  isAncestor := isAncestor_iff.trans mem_walk_iff
  declare hk hh h :=
    ⟨fun hy => declare_of_mem_walk hs hh (mem_walk_iff.2 hy) hk h,
      fun hy => declare_of_not_mem_walk hs hh (mt mem_walk_iff.1 hy) hk h⟩

theorem WalksInReach.exact (h : s.WalksInReach x) (hends : s.EndsInTime x) : s.WalksExact x := by
  have hreach {y : ScopeId} (hy : s.Under y x) : s.InReach y x := mem_walk_iff.1 (hends.mem_walk hy)
  refine ⟨h.lookup?.trans (and_iff_left_of_imp fun hy => hreach hy.under),
    h.closestHoist?.trans (and_iff_left_of_imp fun hy => hreach hy.under),
    h.isAncestor.trans ⟨fun ⟨k, _, hy⟩ => under_iff_iterate.2 ⟨k, hy⟩, hreach⟩,
    fun hk hh hd => (h.declare hk hh hd).1 (hreach hh.under)⟩

/-- What the operations that walk up answer in a table without cycles, and when it is exact. -/
theorem walks_exact_iff (hs : s.Acyclic) (x : ScopeId) :
    s.WalksInReach x ∧ (s.WalksExact x ↔ s.EndsInTime x) :=
  ⟨walksInReach hs x,
    fun h => endsInTime_of_forall_mem_walk hs fun _ hy => isAncestor_iff.1 (h.isAncestor.2 hy),
    (walksInReach hs x).exact⟩

theorem walks_exact_innermost : (nest 9999).Acyclic ∧ (nest 9999).WalksExact 9999 :=
  ⟨acyclic_nest, (walks_exact_iff acyclic_nest 9999).2.2 (endsInTime_nest (by decide) _)⟩

/-- A name that the outermost scope of a nest declares is not found from the innermost one if the
nest is too deep. -/
theorem lookup?_nest (n : Nat) (name : String) : ∃ r,
    (nest n).declare (some 0) name .let_ none none = .ok (r, some 0) ∧ r.Acyclic ∧
      r.Nearest (r.Declares name) 0 n ∧ (maxWalk ≤ n → r.lookup? (some n) name = none) := by
  have hlt : 0 < (nest n).size := by
    rw [size_nest]
    exact Nat.succ_pos n
  obtain ⟨c, hc⟩ := get?_of_lt hlt
  have hnone : c.declaration? name = none := by
    have hd := declaration?_nest (n := n) 0 name
    rwa [declaration?, hc, Option.bind_some] at hd
  obtain ⟨r, hr⟩ : ∃ r, r = (nest n).update (some 0)
    (·.append name { kind := .let_, node := none, fromPos := none }) := ⟨_, rfl⟩
  have hshape : SameShape (nest n) r := hr ▸ .update _ _ ⟨fun _ => rfl, fun _ => rfl, fun _ => rfl⟩
  have hacyclic : r.Acyclic := acyclic_nest.of_sameShape hshape
  have hdeclares (y : ScopeId) : r.Declares name y ↔ y = 0 := by
    rw [Declares, hr, isSome_declaration?_append hlt, declaration?_nest]
    simp
  refine ⟨r, ?_, hacyclic, ⟨hshape.under_iff.2 (under_nest (Nat.le_refl n)), (hdeclares 0).2 rfl,
    fun _ hz => (hdeclares _).1 hz ▸ .refl⟩, fun hn =>
      Option.eq_none_iff_forall_ne_some.2 fun y hy => ?_⟩
  · simp only [declare, BindingKind.isHoisted, Bool.false_eq_true, if_false, hc, hnone, hr]
  · obtain ⟨hnearest, hmem⟩ := (lookup?_eq_some_iff hacyclic).1 hy
    obtain rfl := (hdeclares y).1 hnearest.holds
    obtain ⟨k, hk, hzero⟩ := mem_walk_iff.1 hmem
    have hkn : k < n := Nat.lt_of_lt_of_le hk hn
    rw [funext hshape.parent?, iterate_parent?_nest (Nat.le_of_lt hkn) (Nat.le_refl n)] at hzero
    exact Nat.sub_ne_zero_of_lt hkn (Option.some.inj hzero)

/-- In a nest of 10001 scopes a name of the outermost one is not found from the innermost one. -/
theorem lookup?_cutOff : ∃ r,
    (nest maxWalk).declare (some 0) "x" .let_ none none = .ok (r, some 0) ∧ r.Acyclic ∧
      r.Nearest (r.Declares "x") 0 maxWalk ∧ r.lookup? (some maxWalk) "x" = none := by
  obtain ⟨r, heq, hacyclic, hnearest, hnone⟩ := lookup?_nest maxWalk "x"
  exact ⟨r, heq, hacyclic, hnearest, hnone (Nat.le_refl maxWalk)⟩

end LoopClosure.Scopes
