import LoopClosure.Lowering.Hazard
import LoopClosure.Proofs.Lowering.Wrapping

/-!
# Hazards without bounds

What `hazard?` looks for, in terms of the scope tree and the node tree alone: `Bound.IsHazard b h`.
The searches stop after `maxWalk` scopes and `maxClimb` nodes; where the ways up are shorter
(`Bound.Sees`, for a whole program `Bound.WithinLimits`) they find exactly the hazards
(`hazard?_eq_some_iff`).
-/

namespace LoopClosure

open Syntax Scopes

/-! ## The loop around a node -/

namespace Syntax.Nodes

variable {ns : Nodes} {loop id : NodeId}

/-- The nearest loop or function at or around a node is the loop `loop`. -/
inductive EnclosingLoop (ns : Nodes) (loop : NodeId) : NodeId → Prop where
  | here {form : Form NodeId} (hf : ns.form? loop = some form) (hl : form.isLoop = true) :
    EnclosingLoop ns loop loop
  | up {id p : NodeId}
    (hpass : ∀ form, ns.form? id = some form → form.isFunction = false ∧ form.isLoop = false)
    (hp : ns.parent? id = some p) (h : EnclosingLoop ns loop p) : EnclosingLoop ns loop id

theorem EnclosingLoop.isLoop (h : ns.EnclosingLoop loop id) :
    ∃ form, ns.form? loop = some form ∧ form.isLoop = true := by
  induction h with
  | here hf hl => exact ⟨_, hf, hl⟩
  | up _ _ _ ih => exact ih

/-- A loop is its own loop. -/
theorem EnclosingLoop.eq_of_isLoop {form : Form NodeId} (h : ns.EnclosingLoop loop id)
    (hf : ns.form? id = some form) (hl : form.isLoop = true) : loop = id := by
  cases h with
  | here => rfl
  | up hpass =>
    rw [(hpass form hf).2] at hl
    cases hl

/-- Where a search for a loop ends. -/
def stopsSearch (ns : Nodes) (id : NodeId) : Bool :=
  match ns.form? id with
  | some form => form.isFunction || form.isLoop
  | none => false

/-- What a search finds is there, whether or not it is cut off. -/
theorem enclosingLoop_of_find?_climb {n : Nat} {id : NodeId}
    (h : (id :: ns.climb n id).find? ns.stopsSearch = some loop) {form : Form NodeId}
    (hf : ns.form? loop = some form) (hl : form.isLoop = true) : ns.EnclosingLoop loop id := by
  induction n generalizing id with
  | zero =>
    rw [climb, List.find?_singleton] at h
    split at h
    · obtain rfl := Option.some.inj h
      exact .here hf hl
    · cases h
  | succ n ih =>
    rw [List.find?_cons] at h
    split at h
    · obtain rfl := Option.some.inj h
      exact .here hf hl
    · next hstop =>
      have hpass : ∀ form, ns.form? id = some form →
          form.isFunction = false ∧ form.isLoop = false := fun form hf => by
        rw [stopsSearch, hf] at hstop
        exact Bool.or_eq_false_iff.1 hstop
      unfold climb at h
      split at h
      · cases h
      · next p hp => exact .up hpass hp (ih h)

/-- A search that ends before its bound looks at the whole way. -/
theorem find?_climb_of_enclosingLoop {id : NodeId} (h : ns.EnclosingLoop loop id) {n : Nat}
    (hlen : (ns.climb n id).length < n) :
    (id :: ns.climb n id).find? ns.stopsSearch = some loop := by
  induction h generalizing n with
  | here hf hl => rw [List.find?_cons_of_pos (by simp [stopsSearch, hf, hl])]
  | @up id p hpass hp _ ih =>
    obtain ⟨n, rfl⟩ := Nat.exists_eq_add_one.2 (Nat.zero_lt_of_lt hlen)
    rw [List.find?_cons_of_neg]
    · simp only [climb, hp, List.length_cons] at hlen ⊢
      exact ih (Nat.lt_of_succ_lt_succ hlen)
    · unfold stopsSearch
      split
      · next form hf => simp [hpass form hf]
      · exact Bool.false_ne_true

theorem enclosingLoop_of_enclosingLoop? (h : ns.enclosingLoop? id = some loop) :
    ns.EnclosingLoop loop id := by
  obtain ⟨hfind, hloop⟩ := Option.filter_eq_some_iff.1 h
  cases hf : ns.form? loop with
  | none => simp [hf] at hloop
  | some form => exact enclosingLoop_of_find?_climb hfind hf (by simpa [hf] using hloop)

theorem enclosingLoop?_eq_some_iff (hlen : (ns.ancestors id).length < maxClimb) :
    ns.enclosingLoop? id = some loop ↔ ns.EnclosingLoop loop id := by
  refine ⟨enclosingLoop_of_enclosingLoop?, fun h => ?_⟩
  obtain ⟨form, hf, hl⟩ := h.isLoop
  exact Option.filter_eq_some_iff.2 ⟨find?_climb_of_enclosingLoop h hlen, by simp [hf, hl]⟩

end Syntax.Nodes

namespace Bound

variable {b : Bound}

/-- A reference to a block-scoped binding from a function made in the loop that makes the binding
anew. -/
structure IsHazard (b : Bound) (h : Hazard) : Prop where
  resolves : ∃ r, b.resolution? h.ident = some r ∧ r.scope = h.scope
  named : b.nodes.identifier? h.ident = some h.name
  declared : ∃ d, b.scopes.declaration? h.scope h.name = some d ∧ d.kind.isBlockScoped = true
  closure : ∃ inner, b.nodeScope? h.ident = some inner ∧ b.scopes.FunctionBelow h.scope inner
  loop : ∃ n, b.scopes.node? h.scope = some n ∧ b.nodes.EnclosingLoop h.loop n

/-- The ways up from scopes and nodes end before the bounds of the searches. -/
structure WithinLimits (b : Bound) : Prop where
  scopes : ∀ id : ScopeId, (b.scopes.walk id).length < maxWalk
  nodes : ∀ id : NodeId, (b.nodes.ancestors id).length < maxClimb

/-- The ways up that are searched for a reference end before the bounds. -/
structure Sees (b : Bound) (ident : NodeId) : Prop where
  scopes : ∀ inner, b.nodeScope? ident = some inner → (b.scopes.walk (some inner)).length < maxWalk
  nodes : ∀ id : NodeId, (b.nodes.ancestors id).length < maxClimb

theorem WithinLimits.sees (h : b.WithinLimits) (ident : NodeId) : b.Sees ident :=
  ⟨fun inner _ => h.scopes inner, h.nodes⟩

theorem length_walk_of_le {s : Scopes} {id : ScopeId} (h : s.size ≤ id) :
    (s.walk (some id)).length < maxWalk := by
  have hp : s.parent? id = none := by
    rw [Scopes.parent?, get?_eq_none h]
    rfl
  have hwalk : s.walk id = id :: s.walkUp 9999 (s.parent? id) := rfl
  rw [hwalk, hp, walkUp_none]
  exact Nat.lt_of_lt_of_le Nat.one_lt_two (Nat.le_add_left 2 9998)

/-- The limits need to be checked of the scopes and nodes of the tables only. -/
theorem withinLimits_iff : b.WithinLimits ↔
    (∀ id < b.scopes.size, (b.scopes.walk (some id)).length < maxWalk) ∧
      ∀ id < b.nodes.size, (b.nodes.ancestors id).length < maxClimb := by
  refine ⟨fun h => ⟨fun id _ => h.scopes id, fun id _ => h.nodes id⟩, fun ⟨hs, hn⟩ => ⟨fun id => ?_,
    fun id => ?_⟩⟩
  · by_cases hid : id < b.scopes.size
    · exact hs id hid
    · exact length_walk_of_le (Nat.le_of_not_lt hid)
  · by_cases hid : id < b.nodes.size
    · exact hn id hid
    · have hp : b.nodes.parent? id = none := by
        rw [Nodes.parent?, Nodes.get?, Array.getElem?_eq_none (Nat.le_of_not_lt hid)]
        rfl
      have hclimb : b.nodes.climb (9999 + 1) id = [] := by
        rw [Nodes.climb, hp]
      rw [Nodes.ancestors, show maxClimb = 9999 + 1 from rfl, hclimb]
      exact Nat.succ_pos _

instance : Decidable b.WithinLimits := decidable_of_iff' _ withinLimits_iff

/-- What the searches find is a hazard. -/
theorem isHazard_of_hazard? {ident : NodeId} {h : Hazard} (hh : b.hazard? ident = some h) :
    b.IsHazard h ∧ h.ident = ident := by
  obtain ⟨r, hr, hh⟩ := Option.bind_eq_some_iff.1 hh
  obtain ⟨name, hname, hh⟩ := Option.bind_eq_some_iff.1 hh
  obtain ⟨d, hd, hh⟩ := Option.bind_eq_some_iff.1 hh
  dsimp only at hh
  split at hh
  · cases hh
  · next hskip =>
    obtain ⟨hblock, -⟩ := Bool.or_eq_false_iff.1 (Bool.eq_false_iff.2 hskip)
    obtain ⟨n, hn, hh⟩ := Option.bind_eq_some_iff.1 hh
    obtain ⟨loop, hloop, hh⟩ := Option.bind_eq_some_iff.1 hh
    split at hh
    · next hfun =>
      cases hh
      cases hinner : b.nodeScope? ident with
      | none => simp [hinner, hasFunctionBetween, walk] at hfun
      | some inner =>
        rw [hinner] at hfun
        exact ⟨⟨⟨r, hr, rfl⟩, hname, ⟨d, hd, by simpa using hblock⟩,
          ⟨inner, hinner, functionBelow_of_hasFunctionBetween hfun⟩,
          n, hn, Nodes.enclosingLoop_of_enclosingLoop? hloop⟩, rfl⟩
    · cases hh

/-- Searches that are not cut off find exactly the hazards. -/
theorem hazard?_eq_some_iff {ident : NodeId} {h : Hazard} (hsees : b.Sees ident) :
    b.hazard? ident = some h ↔ b.IsHazard h ∧ h.ident = ident := by
  refine ⟨isHazard_of_hazard?, ?_⟩
  rintro ⟨hh, rfl⟩
  obtain ⟨⟨r, hr, hscope⟩, hname, ⟨d, hd, hblock⟩, ⟨inner, hinner, hfun⟩, n, hn, hloop⟩ := hh
  have hne : ¬some inner = some h.scope := by
    rintro heq
    rw [Option.some.inj heq] at hfun
    exact not_functionBelow_self hfun
  rw [← hasFunctionBetween_iff (hsees.scopes inner hinner)] at hfun
  rw [← Nodes.enclosingLoop?_eq_some_iff (hsees.nodes n)] at hloop
  simp only [hazard?, hr, hname, hscope, hd, hblock, hinner, hn, hloop, hfun, hne,
    Option.bind_eq_bind, Option.bind_some, Bool.not_true, Bool.false_or, decide_false, if_pos]
  rfl

/-- A reference to what is not block-scoped is no hazard. -/
theorem Settled.not_isHazard {h : Hazard} (hs : b.Settled h.ident) : ¬b.IsHazard h := by
  rintro ⟨⟨r, hr, hscope⟩, hname, ⟨d, hd, hblock⟩, -, -⟩
  obtain ⟨r', name, d', hr', hname', hd', hnot⟩ := hs
  rw [hr, Option.some.injEq] at hr'
  rw [hname, Option.some.injEq] at hname'
  subst hr' hname'
  rw [hscope, hd, Option.some.injEq] at hd'
  rw [hd', hnot] at hblock
  cases hblock

theorem IsHazard.scope_lt {h : Hazard} (hh : b.IsHazard h) : h.scope < b.scopes.size := by
  obtain ⟨d, hd, -⟩ := hh.declared
  exact lt_size_of_declaration? hd

end Bound

end LoopClosure
