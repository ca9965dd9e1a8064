import LoopClosure.Proofs.Scope.Table

/-!
# Moving scopes

What a table shows after some of its scopes were moved below another one. Only parents and children
change (`view_reparents`, `parent?_reparents`). A table is `Listed` if each scope is among the children
of its parent; moves keep that.

`Scopes.Grown s`: scopes were only ever added to the table, each below an older one, and none is that
of a wrapped body. So the tables of a binding are.
-/

namespace LoopClosure.Scopes

open Syntax (NodeId)

variable {s t : Scopes} {child x p : ScopeId} {parent id : Option ScopeId}

/-- Each scope is listed by its parent. -/
def Listed (s : Scopes) : Prop :=
  ∀ x p : ScopeId, s.parent? (some x) = some p → x ∈ s.childIds (some p)

/-- A child that does not move stays listed. -/
theorem mem_childIds_reparent_of_ne (hx : x ∈ s.childIds id) (hne : x ≠ child) :
    x ∈ (s.reparent child parent).childIds id := by
  by_cases h : s.parent? child = parent
  · rwa [reparent_of_eq h]
  · rw [reparent_of_ne h]
    cases hc : s.get? id with
    | none => simp [childIds, hc] at hx
    | some c =>
      simp only [childIds, get?_update, hc] at hx ⊢
      by_cases h₁ : parent = id <;> by_cases h₂ : some child = id <;>
        by_cases h₃ : s.parent? child = id <;> simp_all

/-- A scope that moved is listed by its new parent. -/
theorem mem_childIds_reparent_self (h : s.parent? child ≠ some p) (hp : p < s.size) :
    child ∈ (s.reparent child (some p)).childIds (some p) := by
  rw [reparent_of_ne h, childIds, get?_update_self]
  have hlt : p < ((s.update (s.parent? child) (·.dropChild child)).update child
      (·.moveTo (some p))).size := by
    simpa using hp
  obtain ⟨c, hc⟩ := get?_of_lt hlt
  simp [hc]

theorem Listed.reparent (h : s.Listed) (hlt : child < s.size) (hp : p < s.size) :
    (s.reparent child (some p)).Listed := by
  intro x q hx
  by_cases hs : s.parent? child = some p
  · rw [reparent_of_eq hs] at hx ⊢
    exact h x q hx
  · rw [parent?_reparent hlt] at hx
    by_cases hxc : x = child
    · rw [if_pos hxc, Option.some.injEq] at hx
      rw [hxc, ← hx]
      exact mem_childIds_reparent_self hs hp
    · rw [if_neg hxc] at hx
      exact mem_childIds_reparent_of_ne (h x q hx) hxc

/-- A new scope is listed by its parent. -/
theorem Listed.alloc (h : s.Listed) {kind : ScopeKind} {node : Option NodeId} {flags : Flags}
    (hp : p < s.size) : (s.alloc kind node (some p) flags).1.Listed := by
  have hne : some p ≠ some s.size := fun e => Nat.ne_of_lt hp (Option.some.inj e)
  intro x q hx
  rw [parent?_alloc hne] at hx
  rw [childIds_alloc hne]
  by_cases hxs : x = s.size
  · rw [if_pos hxs] at hx
    rw [if_pos ⟨hx, Option.some.inj hx ▸ hp⟩, hxs]
    exact List.mem_append_right _ List.mem_cons_self
  · rw [if_neg hxs] at hx
    split
    · exact List.mem_append_left _ (h x q hx)
    · exact h x q hx

theorem Listed.of_sameShape {t : Scopes} (h : s.Listed) (hs : SameShape s t) : t.Listed := by
  intro x q hx
  rw [hs.childIds]
  exact h x q ((hs.parent? _).symm.trans hx)

/-! ## Several moves -/

section Several

variable (s) (children : List ScopeId) (parent)

@[simp] theorem size_reparents :
    (children.foldl (fun s c => s.reparent c parent) s).size = s.size := by
  induction children generalizing s with
  | nil => rfl
  | cons c children ih => exact (ih _).trans size_reparent

/-- A view that shows neither parent nor children is not changed by moves. -/
theorem view_reparents {α : Type} (view : Scope → α)
    (hc : ∀ c l, view { c with children := l } = view c)
    (hp : ∀ c p, view { c with parent := p } = view c) (id : Option ScopeId) :
    ((children.foldl (fun s c => s.reparent c parent) s).get? id).map view =
      (s.get? id).map view := by
  induction children generalizing s with
  | nil => rfl
  | cons c children ih => exact (ih _).trans (view_reparent view hc hp id)

theorem node?_reparents (id : Option ScopeId) :
    (children.foldl (fun s c => s.reparent c parent) s).node? id = s.node? id :=
  bind_eq_of_map_eq (view_reparents s parent children (·.node) (fun _ _ => rfl) (fun _ _ => rfl) id)

theorem declaration?_reparents (id : Option ScopeId) (name : String) :
    (children.foldl (fun s c => s.reparent c parent) s).declaration? id name =
      s.declaration? id name :=
  bind_eq_of_map_eq (view_reparents s parent children (·.declaration? name) (fun _ _ => rfl)
    (fun _ _ => rfl) id)

theorem kind?_reparents (id : Option ScopeId) :
    (children.foldl (fun s c => s.reparent c parent) s).kind? id = s.kind? id :=
  view_reparents s parent children (·.kind) (fun _ _ => rfl) (fun _ _ => rfl) id

theorem flags_reparents (id : Option ScopeId) :
    (children.foldl (fun s c => s.reparent c parent) s).flags id = s.flags id := by
  rw [flags, view_reparents s parent children (·.flags) (fun _ _ => rfl) (fun _ _ => rfl), flags]

theorem usesOf_reparents (id : Option ScopeId) (name : String) :
    (children.foldl (fun s c => s.reparent c parent) s).usesOf id name = s.usesOf id name := by
  rw [usesOf, view_reparents s parent children (·.referencesTo name) (fun _ _ => rfl)
    (fun _ _ => rfl), usesOf]

variable {s children}

theorem parent?_reparents (hlt : ∀ c ∈ children, c < s.size) (x : ScopeId) :
    (children.foldl (fun s c => s.reparent c parent) s).parent? (some x) =
      if x ∈ children then parent else s.parent? (some x) := by
  induction children generalizing s with
  | nil => rfl
  | cons c children ih =>
    have hc := hlt c List.mem_cons_self
    have hrest : ∀ d ∈ children, d < (s.reparent c parent).size := fun d hd => by
      rw [size_reparent]
      exact hlt d (List.mem_cons_of_mem _ hd)
    rw [List.foldl_cons, ih hrest, parent?_reparent hc]
    by_cases hx : x ∈ children
    · rw [if_pos hx, if_pos (List.mem_cons_of_mem _ hx)]
    · by_cases hxc : x = c <;> simp [hx, hxc]

theorem Listed.reparents (h : s.Listed) (hlt : ∀ c ∈ children, c < s.size) (hp : p < s.size) :
    (children.foldl (fun s c => s.reparent c (some p)) s).Listed := by
  induction children generalizing s with
  | nil => exact h
  | cons c children ih =>
    refine ih (h.reparent (hlt c List.mem_cons_self) hp) (fun d hd => ?_) ?_ <;>
      rw [size_reparent]
    · exact hlt d (List.mem_cons_of_mem _ hd)
    · exact hp

end Several

/-! ## Tables that only grow -/

structure Grown (s : Scopes) : Prop where
  parent_lt : ∀ {x p : ScopeId}, s.parent? (some x) = some p → p < x
  listed : s.Listed
  unwrapped : ∀ x : ScopeId, (s.flags (some x)).loopWrapper = false

namespace Grown

theorem of_sameShape (h : Grown s) (hs : SameShape s t)
    (hflags : ∀ x : ScopeId, (t.flags (some x)).loopWrapper = (s.flags (some x)).loopWrapper) :
    Grown t where
  parent_lt hp := h.parent_lt ((hs.parent? _).symm.trans hp)
  listed := h.listed.of_sameShape hs
  unwrapped x := (hflags x).trans (h.unwrapped x)

theorem update {f : Scope → Scope} (h : Grown s) (id : Option ScopeId) (hf : Scope.Tame f)
    (hflags : ∀ c, (f c).flags.loopWrapper = c.flags.loopWrapper) : Grown (s.update id f) := by
  exact h.of_sameShape (.update s id hf) fun x => flags_view_update (·.loopWrapper) hflags id _

theorem first (kind : ScopeKind) (flags : Flags) (hflags : flags.loopWrapper = false) :
    Grown (Scopes.alloc {} kind none none flags).1 := by
  have hnone : (none : Option ScopeId) ≠ some (Scopes.size {}) := by simp
  have hparent (x : ScopeId) :
      (Scopes.alloc {} kind none none flags).1.parent? (some x) = none := by
    rw [parent?_alloc hnone]
    split <;> rfl
  refine ⟨fun {x p} hp => ?_, fun {x p} hp => ?_, fun x => ?_⟩
  · cases (hparent x).symm.trans hp
  · cases (hparent x).symm.trans hp
  · rw [flags_alloc hnone]
    split
    · exact hflags
    · rfl

theorem alloc (h : Grown s) {kind : ScopeKind} {node : Option NodeId} {parent : ScopeId}
    {flags : Flags} (hlt : parent < s.size) (hflags : flags.loopWrapper = false) :
    Grown (s.alloc kind node (some parent) flags).1 := by
  have hne : some parent ≠ some s.size := fun e => Nat.ne_of_lt hlt (Option.some.inj e)
  refine ⟨fun {x p} hp => ?_, h.listed.alloc hlt, fun x => ?_⟩
  · rw [parent?_alloc hne] at hp
    split at hp
    · next hx => exact hx ▸ Option.some.inj hp ▸ hlt
    · exact h.parent_lt hp
  · rw [flags_alloc hne]
    split
    · exact hflags
    · exact h.unwrapped x

end Grown

end LoopClosure.Scopes
