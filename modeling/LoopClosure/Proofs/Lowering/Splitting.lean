import LoopClosure.Lowering.Wrap
import LoopClosure.Proofs.Scope.Leads
import LoopClosure.Proofs.Scope.Moves

/-!
# A scope of its own for a body

What the tables show after a single-statement body was split off (`Bound.splitBody`): there is one
scope more, which declares nothing; what lies in the body is in it or below it; of the other scopes
only parents and children change.
-/

namespace LoopClosure.Bound

open Syntax Syntax.Nodes Scopes

variable {b : Bound} {body : NodeId} {outer x : ScopeId}

/-- The scopes below `outer` that the new scope of a body comes above. -/
def moved (b : Bound) (body : NodeId) (outer : ScopeId) : List ScopeId :=
  let s := (b.scopes.alloc .hoist body outer { loopWrapper := true }).1
  (s.childIds outer).filter fun (child : ScopeId) =>
    child ≠ b.scopes.size && ((s.node? child).map (b.nodes.contains body)).getD false

theorem scopes_splitBody (b : Bound) (body : NodeId) (outer : ScopeId) :
    (b.splitBody body outer).1.scopes =
      (b.moved body outer).foldl (fun s c => s.reparent c b.scopes.size)
        (b.scopes.alloc .hoist body outer { loopWrapper := true }).1 := rfl

theorem view_splitBody {α : Type} (v : Scope → α)
    (hc : ∀ c l, v { c with children := l } = v c) (hp : ∀ c p, v { c with parent := p } = v c)
    (hx : x ≠ b.scopes.size) :
    ((b.splitBody body outer).1.scopes.get? (some x)).map v = (b.scopes.get? (some x)).map v := by
  rw [scopes_splitBody, view_reparents _ _ _ v hc hp, view_alloc_of_ne v hc hx]

section Old

variable (hx : x ≠ b.scopes.size)
include hx

theorem kind?_splitBody :
    (b.splitBody body outer).1.scopes.kind? (some x) = b.scopes.kind? (some x) :=
  view_splitBody (·.kind) (fun _ _ => rfl) (fun _ _ => rfl) hx

theorem flags_splitBody :
    (b.splitBody body outer).1.scopes.flags (some x) = b.scopes.flags (some x) := by
  rw [flags, view_splitBody (·.flags) (fun _ _ => rfl) (fun _ _ => rfl) hx, flags]

theorem marked_splitBody {name : String} (hm : b.scopes.Marked x name) :
    (b.splitBody body outer).1.scopes.Marked x name := by
  unfold Marked
  rw [kind?_splitBody hx, flags_splitBody hx, hasPropagated,
    view_splitBody (fun c => decide (name ∈ c.propagates)) (fun _ _ => rfl) (fun _ _ => rfl) hx]
  exact hm

end Old

section Split

variable (hlt : outer < b.scopes.size)
include hlt

theorem node?_splitBody (x : ScopeId) : (b.splitBody body outer).1.scopes.node? (some x) =
    if x = b.scopes.size then some body else b.scopes.node? (some x) := by
  have hne : some outer ≠ some b.scopes.size := fun e => Nat.ne_of_lt hlt (Option.some.inj e)
  rw [scopes_splitBody, node?_reparents, node?_alloc hne]

theorem declaration?_splitBody (x : ScopeId) (name : String) :
    (b.splitBody body outer).1.scopes.declaration? (some x) name =
      b.scopes.declaration? (some x) name := by
  have hne : some outer ≠ some b.scopes.size := fun e => Nat.ne_of_lt hlt (Option.some.inj e)
  rw [scopes_splitBody, declaration?_reparents, declaration?_alloc hne]

/-- The new scope declares nothing. -/
theorem declaration?_splitBody_new (name : String) :
    (b.splitBody body outer).1.scopes.declaration? (some b.scopes.size) name = none := by
  rw [declaration?_splitBody hlt, declaration?, get?_eq_none (Nat.le_refl _), Option.bind_none]

theorem usesOf_splitBody (x : ScopeId) (name : String) :
    (b.splitBody body outer).1.scopes.usesOf (some x) name = b.scopes.usesOf (some x) name := by
  have hne : some outer ≠ some b.scopes.size := fun e => Nat.ne_of_lt hlt (Option.some.inj e)
  rw [scopes_splitBody, usesOf_reparents, usesOf_alloc hne]

theorem flags_splitBody_new : (b.splitBody body outer).1.scopes.flags (some b.scopes.size) =
    { loopWrapper := true } := by
  have hne : some outer ≠ some b.scopes.size := fun e => Nat.ne_of_lt hlt (Option.some.inj e)
  rw [scopes_splitBody, flags_reparents, flags_alloc hne, if_pos rfl]

theorem kind?_splitBody_new :
    (b.splitBody body outer).1.scopes.kind? (some b.scopes.size) = some .hoist := by
  have hne : some outer ≠ some b.scopes.size := fun e => Nat.ne_of_lt hlt (Option.some.inj e)
  rw [scopes_splitBody, kind?_reparents, kind?_alloc hne, if_pos rfl]

theorem parent?_of_mem_moved (hw : b.scopes.WellFormed) (hx : x ∈ b.moved body outer) :
    b.scopes.parent? (some x) = some outer := by
  have hne : some outer ≠ some b.scopes.size := fun e => Nat.ne_of_lt hlt (Option.some.inj e)
  obtain ⟨hmem, hnew⟩ := List.mem_filter.1 hx
  rw [childIds_alloc hne, if_pos ⟨rfl, hlt⟩, List.mem_append, List.mem_singleton] at hmem
  rcases hmem with hold | rfl
  · exact hw.parent_child hold
  · simp at hnew

/-- What is moved: the scopes right below `outer` whose nodes are in the range of the body. -/
theorem mem_moved_iff (hw : b.scopes.WellFormed) (hl : b.scopes.Listed) :
    x ∈ b.moved body outer ↔ b.scopes.parent? (some x) = some outer ∧
      ∃ n, b.scopes.node? (some x) = some n ∧ b.nodes.contains body n = true := by
  have hne : some outer ≠ some b.scopes.size := fun e => Nat.ne_of_lt hlt (Option.some.inj e)
  constructor
  · intro hm
    have hp := parent?_of_mem_moved hlt hw hm
    have hin := (List.mem_filter.1 hm).2
    rw [node?_alloc hne, if_neg (Nat.ne_of_lt (lt_size_of_parent? hp)), Bool.and_eq_true,
      Option.getD_eq_iff] at hin
    obtain hin | ⟨-, hin⟩ := hin.2
    · obtain ⟨n, hn, hc⟩ := Option.map_eq_some_iff.1 hin
      exact ⟨hp, n, hn, hc⟩
    · cases hin
  · rintro ⟨hp, n, hn, hc⟩
    have hx : x ≠ b.scopes.size := Nat.ne_of_lt (lt_size_of_parent? hp)
    refine List.mem_filter.2 ⟨?_, ?_⟩
    · rw [childIds_alloc hne, if_pos ⟨rfl, hlt⟩]
      exact List.mem_append_left _ (hl x outer hp)
    · rw [node?_alloc hne, if_neg hx, hn, Bool.and_eq_true]
      exact ⟨decide_eq_true hx, hc⟩

theorem lt_of_mem_moved (hw : b.scopes.WellFormed) (hl : b.scopes.Listed) :
    ∀ c ∈ b.moved body outer, c < b.scopes.size :=
  fun _ hc => lt_size_of_parent? ((mem_moved_iff hlt hw hl).1 hc).1

theorem parent?_splitBody (hw : b.scopes.WellFormed) (hl : b.scopes.Listed) (x : ScopeId) :
    (b.splitBody body outer).1.scopes.parent? (some x) =
      if x ∈ b.moved body outer then some b.scopes.size
      else if x = b.scopes.size then some outer else b.scopes.parent? (some x) := by
  have hne : some outer ≠ some b.scopes.size := fun e => Nat.ne_of_lt hlt (Option.some.inj e)
  rw [scopes_splitBody, parent?_reparents, parent?_alloc hne]
  exact fun c hc => size_alloc ▸ Nat.lt_succ_of_lt (lt_of_mem_moved hlt hw hl c hc)

theorem listed_splitBody (hw : b.scopes.WellFormed) (hl : b.scopes.Listed) :
    (b.splitBody body outer).1.scopes.Listed := by
  rw [scopes_splitBody]
  refine (hl.alloc hlt).reparents (fun c hc => ?_) ?_ <;> rw [size_alloc]
  · exact Nat.lt_succ_of_lt (lt_of_mem_moved hlt hw hl c hc)
  · exact Nat.lt_succ_self _

end Split

/-! ## Nodes -/

theorem getElem?_rescope (outer scope : ScopeId) (ids : List NodeId) (table : Array ScopeId)
    (i : NodeId) :
    (ids.foldl (fun table id => if table[id]? = some outer then table.setIfInBounds id scope
      else table) table)[i]? =
        if i ∈ ids ∧ table[i]? = some outer then some scope else table[i]? := by
  induction ids generalizing table with
  | nil => simp
  | cons id ids ih =>
    rw [List.foldl_cons, ih]
    by_cases hi : i = id
    · subst hi
      by_cases hid : table[i]? = some outer
      · have hlt : i < table.size := (Array.getElem?_eq_some_iff.1 hid).1
        rw [if_pos hid, Array.getElem?_setIfInBounds_self_of_lt hlt, ite_self,
          if_pos ⟨List.mem_cons_self, hid⟩]
      · simp [hid]
    · by_cases hid : table[id]? = some outer <;>
        simp [hi, hid, Array.getElem?_setIfInBounds_ne (Ne.symm hi)]

/-- What lies in the body and was in `outer` is in the new scope. -/
theorem nodeScope?_splitBody (b : Bound) (body : NodeId) (outer : ScopeId) (i : NodeId) :
    (b.splitBody body outer).1.nodeScope? i =
      if i ∈ b.nodes.subtree body ∧ b.nodeScope? i = some outer then some b.scopes.size
      else b.nodeScope? i :=
  getElem?_rescope _ _ _ _ _

end LoopClosure.Bound
