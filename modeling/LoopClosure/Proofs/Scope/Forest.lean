import LoopClosure.Proofs.Scope.Moves

/-!
# The forest of scopes

A table keeps each link between two scopes twice: a scope has a parent, and the parent lists it.

- `Scopes.Linked`: the two agree. So they do after any operations on an empty table
  (`linked_run`).
- `Scopes.Under s top x`: the way up from `x` passes `top`.
- `Scopes.Rooted`: every way up ends. So it does if no scope is moved below itself
  (`rooted_run`).
- `Scopes.Tree s top`: there is one root, `top`. Scopes put below others and moved below others keep
  that.
-/

namespace LoopClosure.Scopes

open Syntax (NodeId)

variable {s t : Scopes} {child top x y p : ScopeId} {parent : Option ScopeId}

theorem SameShape.foldl {α : Type} {step : Scopes → α → Scopes}
    (h : ∀ s a, SameShape s (step s a)) (as : List α) (s : Scopes) :
    SameShape s (as.foldl step s) := by
  induction as generalizing s with
  | nil => exact .refl s
  | cons a as ih => exact (h s a).trans (ih _)

/-! ## Links -/

/-- A scope lists the scopes whose parent it is, each once. -/
def Linked (s : Scopes) : Prop :=
  ∀ p c : ScopeId, (s.childIds (some p)).count c = if s.parent? (some c) = some p then 1 else 0

theorem childIds_eq_nil (h : s.size ≤ p) : s.childIds (some p) = [] := by
  rw [childIds, get?_eq_none h, Option.map_none, Option.getD_none]

/-- A scope that moves is taken out of one list and put behind another. -/
theorem childIds_reparent (h : s.parent? child ≠ parent) (p : ScopeId) :
    (s.reparent child parent).childIds (some p) =
      if s.parent? child = some p then (s.childIds (some p)).filter (· ≠ child)
      else if parent = some p ∧ p < s.size then s.childIds (some p) ++ [child]
      else s.childIds (some p) := by
  by_cases hp : p < s.size
  · obtain ⟨c, hc⟩ := get?_of_lt hp
    rw [reparent_of_ne h]
    simp only [childIds, get?_update, hc]
    by_cases hself : child = p
    · subst hself
      by_cases hold : s.parent? child = some child
      · have hnew : parent ≠ some child := fun e => h (hold.trans e.symm)
        simp [hold, hnew]
      · by_cases hnew : parent = some child <;> simp [hold, hnew, hp]
    · by_cases hold : s.parent? child = some p
      · have hnew : parent ≠ some p := fun e => h (hold.trans e.symm)
        simp [hold, hnew, hself]
      · by_cases hnew : parent = some p <;> simp [hold, hnew, hself, hp]
  · have hle := Nat.le_of_not_lt hp
    rw [childIds_eq_nil hle, childIds_eq_nil (by rwa [size_reparent])]
    simp [hp]

namespace Linked

theorem mem_iff (h : s.Linked) : x ∈ s.childIds (some p) ↔ s.parent? (some x) = some p := by
  rw [← List.count_pos_iff, h p x]
  split <;> simp [*]

theorem wellFormed (h : s.Linked) : s.WellFormed where
  parent_lt hp := by
    by_contra hlt
    have hmem := h.mem_iff.2 hp
    rw [childIds_eq_nil (Nat.le_of_not_lt hlt)] at hmem
    cases hmem
  parent_child := h.mem_iff.1

theorem of_sameShape (h : s.Linked) (hs : SameShape s t) : t.Linked := fun p c => by
  rw [hs.childIds, hs.parent?]
  exact h p c

theorem empty : Linked {} := fun _ _ => rfl

theorem alloc (h : s.Linked) {kind : ScopeKind} {node : Option NodeId} {flags : Flags}
    (hp : ∀ p, parent = some p → p < s.size) : (s.alloc kind node parent flags).1.Linked := by
  have hne : parent ≠ some s.size := fun e => Nat.lt_irrefl _ (hp _ e)
  intro p c
  rw [childIds_alloc hne, parent?_alloc hne]
  by_cases hc : c = s.size
  · -- The new scope was listed nowhere.
    have hfresh : (s.childIds (some p)).count s.size = 0 := by
      rw [h, if_neg fun e => Nat.lt_irrefl _ (lt_size_of_parent? e)]
    subst c
    by_cases hpar : parent = some p
    · simp [hpar, hp p hpar, hfresh]
    · simp [hpar, hfresh]
  · have hother : ¬s.size = c := fun e => hc e.symm
    rw [if_neg hc, ← h p c]
    split
    · rw [List.count_append, List.count_singleton]
      simp [hother]
    · rfl

theorem reparent (h : s.Linked) (hc : child < s.size) (hp : ∀ p, parent = some p → p < s.size) :
    (s.reparent child parent).Linked := by
  by_cases heq : s.parent? child = parent
  · rwa [reparent_of_eq heq]
  intro p c
  rw [childIds_reparent heq, parent?_reparent hc]
  by_cases hcc : c = child
  · subst c
    rw [if_pos rfl]
    by_cases hold : s.parent? child = some p
    · rw [if_pos hold, if_neg fun e => heq (hold.trans e.symm)]
      exact List.count_eq_zero.2 (by simp)
    · have hzero : (s.childIds (some p)).count child = 0 := by rw [h, if_neg hold]
      rw [if_neg hold]
      by_cases hnew : parent = some p
      · simp [hnew, hp p hnew, hzero]
      · simp [hnew, hzero]
  · -- The other scopes are listed as they were.
    have hother : ¬child = c := fun e => hcc e.symm
    rw [if_neg hcc, ← h p c]
    split
    · exact List.count_filter (by simpa using hcc)
    · split
      · rw [List.count_append, List.count_singleton]
        simp [hother]
      · rfl

end Linked

/-! ## Ways up -/

/-- The way up from a scope passes `top`. -/
inductive Under (s : Scopes) (top : ScopeId) : ScopeId → Prop where
  | refl : Under s top top
  | up {x p : ScopeId} (hp : s.parent? (some x) = some p) (h : Under s top p) : Under s top x

def IsRoot (s : Scopes) (x : ScopeId) : Prop := x < s.size ∧ s.parent? (some x) = none

/-- Every way up ends at a root. -/
def Rooted (s : Scopes) : Prop := ∀ x < s.size, ∃ top, s.IsRoot top ∧ s.Under top x

namespace Under

theorem trans (h : s.Under top y) (h' : s.Under y x) : s.Under top x := by
  induction h' with
  | refl => exact h
  | up hp _ ih => exact .up hp ih

theorem congr (h : s.Under top x)
    (hp : ∀ id : ScopeId, t.parent? (some id) = s.parent? (some id)) : t.Under top x := by
  induction h with
  | refl => exact .refl
  | up hup _ ih => exact .up ((hp _).trans hup) ih

/-- Below a root no scope lies under one of its ancestors but itself. -/
theorem not_above (h : s.Under top x) (htop : s.IsRoot top) (hp : s.parent? (some x) = some p) :
    ¬s.Under x p := by
  induction h generalizing p with
  | refl =>
    rw [htop.2] at hp
    cases hp
  | @up x q hq hunder ih =>
    -- The way up from `q` would come back to `x`, and from there to `q`.
    cases hp.symm.trans hq
    intro hcycle
    cases hcycle with
    | refl => exact ih hq .refl
    | up hq' h' => exact ih hq' ((Under.up hq .refl).trans h')

/-- A way that does not pass the scope that moves is kept. -/
theorem reparent (h : s.Under top x) (hc : child < s.size) (hx : ¬s.Under child x) :
    (s.reparent child parent).Under top x := by
  induction h with
  | refl => exact .refl
  | @up x p hp _ ih =>
    have hne : x ≠ child := fun e => hx (e ▸ .refl)
    refine .up ?_ (ih fun hu => hx (.up hp hu))
    rw [parent?_reparent hc, if_neg hne, hp]

end Under

theorem IsRoot.reparent (h : s.IsRoot x) (hc : child < s.size) (hne : x ≠ child) :
    (s.reparent child parent).IsRoot x :=
  ⟨by rw [size_reparent]; exact h.1, by rw [parent?_reparent hc, if_neg hne, h.2]⟩

namespace Rooted

theorem empty : Rooted {} := fun _ hx => absurd hx (Nat.not_lt_zero _)

theorem of_sameShape (h : s.Rooted) (hs : SameShape s t) : t.Rooted := fun x hx => by
  obtain ⟨top, htop, hu⟩ := h x (hs.size ▸ hx)
  exact ⟨top, ⟨hs.size ▸ htop.1, (hs.parent? _).trans htop.2⟩, hu.congr fun _ => hs.parent? _⟩

theorem not_under_parent (h : s.Rooted) (hp : s.parent? (some x) = some p) : ¬s.Under x p := by
  obtain ⟨top, htop, hu⟩ := h x (lt_size_of_parent? hp)
  exact hu.not_above htop hp

theorem alloc (h : s.Rooted) {kind : ScopeKind} {node : Option NodeId} {flags : Flags}
    (hp : ∀ p, parent = some p → p < s.size) : (s.alloc kind node parent flags).1.Rooted := by
  have hne : parent ≠ some s.size := fun e => Nat.lt_irrefl _ (hp _ e)
  -- What was there keeps its way up.
  have hold (x : ScopeId) (hx : x < s.size) :
      ∃ top, (s.alloc kind node parent flags).1.IsRoot top ∧
        (s.alloc kind node parent flags).1.Under top x := by
    obtain ⟨top, htop, hu⟩ := h x hx
    refine ⟨top, ⟨?_, ?_⟩, ?_⟩
    · rw [size_alloc]
      exact Nat.lt_succ_of_lt htop.1
    · rw [parent?_alloc hne, if_neg (Nat.ne_of_lt htop.1), htop.2]
    · clear hx
      induction hu with
      | refl => exact .refl
      | up hup _ ih =>
        refine .up ?_ ih
        rw [parent?_alloc hne, if_neg (Nat.ne_of_lt (lt_size_of_parent? hup)), hup]
  intro x hx
  rw [size_alloc, Nat.lt_succ_iff_lt_or_eq] at hx
  rcases hx with hx | rfl
  · exact hold x hx
  · have hnew : (s.alloc kind node parent flags).1.parent? (some s.size) = parent := by
      rw [parent?_alloc hne, if_pos rfl]
    cases parent with
    | none => exact ⟨s.size, ⟨by rw [size_alloc]; exact Nat.lt_succ_self _, hnew⟩, .refl⟩
    | some p =>
      obtain ⟨top, htop, hu⟩ := hold p (hp p rfl)
      exact ⟨top, htop, .up hnew hu⟩

/-- A scope that does not move below itself goes on to have a way up that ends, and so do the scopes
below it. -/
theorem reparent (h : s.Rooted) (hc : child < s.size)
    (hp : ∀ p, parent = some p → p < s.size ∧ ¬s.Under child p) :
    (s.reparent child parent).Rooted := by
  have hmoved : (s.reparent child parent).parent? (some child) = parent := by
    rw [parent?_reparent hc, if_pos rfl]
  have helse (x : ScopeId) (hx : x < s.size) (hnot : ¬s.Under child x) :
      ∃ top, (s.reparent child parent).IsRoot top ∧ (s.reparent child parent).Under top x := by
    obtain ⟨top, htop, hu⟩ := h x hx
    refine ⟨top, htop.reparent hc ?_, hu.reparent hc hnot⟩
    rintro rfl
    exact hnot hu
  have hchild : ∃ top, (s.reparent child parent).IsRoot top ∧
      (s.reparent child parent).Under top child := by
    cases parent with
    | none => exact ⟨child, ⟨by rwa [size_reparent], hmoved⟩, .refl⟩
    | some p =>
      obtain ⟨top, htop, hu⟩ := helse p (hp p rfl).1 (hp p rfl).2
      exact ⟨top, htop, .up hmoved hu⟩
  intro x hx
  rw [size_reparent] at hx
  by_cases hunder : s.Under child x
  · clear hx
    induction hunder with
    | refl => exact hchild
    | @up x p hup _ ih =>
      by_cases hxc : x = child
      · exact hxc ▸ hchild
      · obtain ⟨top, htop, hu⟩ := ih
        refine ⟨top, htop, .up ?_ hu⟩
        rw [parent?_reparent hc, if_neg hxc, hup]
  · exact helse x hx hunder

end Rooted

/-! ## Operations -/

/-- What can be done to a table. -/
inductive Operation where
  | alloc (kind : ScopeKind) (node : Option NodeId) (parent : Option ScopeId) (flags : Flags)
  | declare (id : Option ScopeId) (name : String) (kind : BindingKind) (node : Option NodeId)
    (fromPos : Option Nat)
  | addGlobal (id : Option ScopeId) (name : String) (kind : BindingKind) (fromPos : Option Nat)
  | remove (id : Option ScopeId) (name : String)
  | modify (id : Option ScopeId) (name : String) (f : Declaration → Declaration)
  | addFlags (id : Option ScopeId) (flags : Flags)
  | markPropagates (id : Option ScopeId) (name : String)
  | addReference (id : Option ScopeId) (name : String) (ident : NodeId)
  | takeReferences (id : Option ScopeId) (name : String)
  | pushFree (id : Option ScopeId) (name : String) (position : Nat)
  | popFree (id : Option ScopeId) (position : Nat)
  | setKind (id : Option ScopeId) (kind : ScopeKind)
  | reparent (child : ScopeId) (parent : Option ScopeId)

namespace Operation

/-- The table after an operation. One that is refused leaves it as it was. -/
def apply (s : Scopes) : Operation → Scopes
  | alloc kind node parent flags => (s.alloc kind node parent flags).1
  | declare id name kind node fromPos =>
    match s.declare id name kind node fromPos with
    | .ok (t, _) => t
    | .error _ => s
  | addGlobal id name kind fromPos => s.addGlobal id name kind fromPos
  | remove id name => s.remove id name
  | modify id name f => s.modify id name f
  | addFlags id flags => s.addFlags id flags
  | markPropagates id name => s.markPropagates id name
  | addReference id name ident => s.addReference id name ident
  | takeReferences id name => (s.takeReferences id name).1
  | pushFree id name position => s.pushFree id name position
  | popFree id position =>
    match s.popFree? id position with
    | some (t, _) => t
    | none => s
  | setKind id kind => s.setKind id kind
  | reparent child parent => s.reparent child parent

/-- A parent is absent or a scope of the table, and what moves is a scope of the table. -/
def Admitted (s : Scopes) : Operation → Prop
  | alloc _ _ parent _ => ∀ p, parent = some p → p < s.size
  | reparent child parent => child < s.size ∧ ∀ p, parent = some p → p < s.size
  | _ => True

/-- No scope moves below itself or one of its descendants. -/
def Upright (s : Scopes) : Operation → Prop
  | reparent child parent => ∀ p, parent = some p → ¬s.Under child p
  | _ => True

/-- Each of the operations has a property in the table that it finds. -/
def All (P : Scopes → Operation → Prop) : Scopes → List Operation → Prop
  | _, [] => True
  | s, o :: os => P s o ∧ All P (o.apply s) os

/-- All but the new scopes and the moves keep the tree as it is. -/
theorem apply_cases (s : Scopes) (o : Operation) :
    (∃ kind node parent flags, o = alloc kind node parent flags) ∨
      (∃ child parent, o = reparent child parent) ∨ s.SameShape (o.apply s) := by
  cases o with
  | alloc kind node parent flags => exact .inl ⟨kind, node, parent, flags, rfl⟩
  | reparent child parent => exact .inr (.inl ⟨child, parent, rfl⟩)
  | declare id name kind node fromPos =>
    refine .inr (.inr ?_)
    dsimp only [apply]
    split
    · next t target h =>
      rcases declare_cases h with rfl | ⟨j, c, -, -, -, rfl⟩
      · exact .refl _
      · exact .update _ _ ⟨fun _ => rfl, fun _ => rfl, fun _ => rfl⟩
    · exact .refl _
  | popFree id position =>
    refine .inr (.inr ?_)
    dsimp only [apply]
    split
    · next t name h =>
      simp only [popFree?, Option.bind_eq_bind, Option.bind_eq_some_iff, Option.pure_def,
        Option.some.injEq, Prod.mk.injEq] at h
      obtain ⟨_, -, i, -, _, -, rfl, -⟩ := h
      exact .update _ _ ⟨fun _ => rfl, fun _ => rfl, fun _ => rfl⟩
    · exact .refl _
  | addReference id name ident => exact .inr (.inr (.update _ _ (.addReference name ident)))
  | _ => exact .inr (.inr (.update _ _ ⟨fun _ => rfl, fun _ => rfl, fun _ => rfl⟩))

variable {o : Operation} {os : List Operation}

theorem linked_apply (h : s.Linked) (ho : o.Admitted s) : (o.apply s).Linked := by
  rcases apply_cases s o with ⟨kind, node, parent, flags, rfl⟩ | ⟨child, parent, rfl⟩ | hs
  · exact h.alloc ho
  · exact h.reparent ho.1 ho.2
  · exact h.of_sameShape hs

theorem rooted_apply (h : s.Rooted) (ho : o.Admitted s) (hu : o.Upright s) :
    (o.apply s).Rooted := by
  rcases apply_cases s o with ⟨kind, node, parent, flags, rfl⟩ | ⟨child, parent, rfl⟩ | hs
  · exact h.alloc ho
  · exact h.reparent ho.1 fun p hp => ⟨ho.2 p hp, hu p hp⟩
  · exact h.of_sameShape hs

theorem linked_run (h : s.Linked) (hos : All Admitted s os) : (os.foldl apply s).Linked := by
  induction os generalizing s with
  | nil => exact h
  | cons o os ih => exact ih (linked_apply h hos.1) hos.2

theorem rooted_run (h : s.Rooted) (hos : All Admitted s os) (hu : All Upright s os) :
    (os.foldl apply s).Rooted := by
  induction os generalizing s with
  | nil => exact h
  | cons o os ih => exact ih (rooted_apply h hos.1 hu.1) hos.2 hu.2

end Operation

/-! ## Trees -/

/-- The scopes make one tree: every way up ends at `top`, the only root. -/
structure Tree (s : Scopes) (top : ScopeId) : Prop where
  linked : s.Linked
  isRoot_iff : ∀ x, s.IsRoot x ↔ x = top
  under : ∀ x < s.size, s.Under top x

namespace Tree

theorem isRoot (h : s.Tree top) : s.IsRoot top := (h.isRoot_iff top).2 rfl

theorem rooted (h : s.Tree top) : s.Rooted := fun x hx => ⟨top, h.isRoot, h.under x hx⟩

/-- Of two scopes not each is under the other. -/
theorem antisymm (h : s.Tree top) (hxy : s.Under x y) (hyx : s.Under y x) : x = y := by
  cases hxy with
  | refl => rfl
  | up hp hxp =>
    have hy := h.under _ (lt_size_of_parent? hp)
    exact absurd (hyx.trans hxp) (hy.not_above h.isRoot hp)

theorem of_rooted (hl : s.Linked) (hr : s.Rooted) (h : ∀ x, s.IsRoot x ↔ x = top) :
    s.Tree top where
  linked := hl
  isRoot_iff := h
  under x hx := by
    obtain ⟨root, hroot, hu⟩ := hr x hx
    exact (h root).1 hroot ▸ hu

theorem of_sameShape (h : s.Tree top) (hs : SameShape s t) : t.Tree top := by
  refine .of_rooted (h.linked.of_sameShape hs) (h.rooted.of_sameShape hs) fun x => ?_
  rw [IsRoot, hs.size, hs.parent?]
  exact h.isRoot_iff x

/-- The first scope of a table is a tree. -/
theorem first (kind : ScopeKind) (node : Option NodeId) (flags : Flags) :
    (Scopes.alloc {} kind node none flags).1.Tree (Scopes.alloc {} kind node none flags).2 := by
  have hnone : ∀ p : ScopeId, none = some p → p < Scopes.size {} := fun _ e => nomatch e
  refine .of_rooted (.alloc .empty hnone) (.alloc .empty hnone) fun x => ?_
  have hzero : Scopes.size {} = 0 := rfl
  rw [IsRoot, size_alloc, snd_alloc, parent?_alloc (by simp), hzero, Nat.lt_one_iff]
  refine and_iff_left_of_imp ?_
  rintro rfl
  rw [if_pos rfl]

/-- A new scope below another one is no root. -/
theorem alloc (h : s.Tree top) {kind : ScopeKind} {node : Option NodeId} {flags : Flags}
    (hp : p < s.size) : (s.alloc kind node (some p) flags).1.Tree top := by
  have hlt : ∀ q, some p = some q → q < s.size := fun q e => Option.some.inj e ▸ hp
  have hne : some p ≠ some s.size := fun e => Nat.lt_irrefl _ (hlt _ e)
  refine .of_rooted (h.linked.alloc hlt) (h.rooted.alloc hlt) fun x => ?_
  rw [IsRoot, size_alloc, parent?_alloc hne, ← h.isRoot_iff x, IsRoot]
  by_cases hx : x = s.size
  · simp [hx]
  · rw [if_neg hx]
    exact and_congr_left'
      ⟨fun hlt => Nat.lt_of_le_of_ne (Nat.le_of_lt_succ hlt) hx, Nat.lt_succ_of_lt⟩

/-- A scope with a parent moves below a scope that is not below it. -/
theorem reparent (h : s.Tree top) (hc : s.parent? (some child) = some x) (hp : p < s.size)
    (hu : ¬s.Under child p) : (s.reparent child (some p)).Tree top := by
  have hlt := lt_size_of_parent? hc
  have hps : ∀ q, some p = some q → q < s.size := fun q e => Option.some.inj e ▸ hp
  refine .of_rooted (h.linked.reparent hlt hps)
    (h.rooted.reparent hlt fun q e => ⟨hps q e, Option.some.inj e ▸ hu⟩) fun y => ?_
  rw [IsRoot, size_reparent, parent?_reparent hlt, ← h.isRoot_iff y, IsRoot]
  by_cases hy : y = child
  · simp [hy, hc]
  · rw [if_neg hy]

/-- Siblings of a scope move below it. -/
theorem reparents {children : List ScopeId} (h : s.Tree top) (hp : s.parent? (some p) = some x)
    (hc : ∀ c ∈ children, c ≠ p ∧ (s.parent? (some c) = some x ∨ s.parent? (some c) = some p)) :
    (children.foldl (fun s c => s.reparent c (some p)) s).Tree top := by
  induction children generalizing s with
  | nil => exact h
  | cons c children ih =>
    obtain ⟨hne, hparent⟩ := hc c List.mem_cons_self
    have hrest := fun d hd => hc d (List.mem_cons_of_mem c hd)
    rw [List.foldl_cons]
    rcases hparent with hparent | hparent
    · have hlt := lt_size_of_parent? hparent
      -- A sibling that `p` is below would be below itself.
      have hnot : ¬s.Under c p := by
        intro hu
        cases hu with
        | refl => exact hne rfl
        | up hq hu =>
          cases hp.symm.trans hq
          exact h.rooted.not_under_parent hparent hu
      refine ih (h.reparent hparent (lt_size_of_parent? hp) hnot) ?_ fun d hd => ?_
      · rw [parent?_reparent hlt, if_neg hne.symm, hp]
      · refine ⟨(hrest d hd).1, ?_⟩
        rw [parent?_reparent hlt]
        split
        · exact .inr rfl
        · exact (hrest d hd).2
    · rw [reparent_of_eq hparent]
      exact ih h hp hrest

end Tree

end LoopClosure.Scopes
