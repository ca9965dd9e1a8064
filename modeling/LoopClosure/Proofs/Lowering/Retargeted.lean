import LoopClosure.Proofs.Lowering.Wrapping

/-!
# Which references go to a parameter

When a name of the head becomes a parameter, the references that are listed for it at the head and
lie in the range of the body resolve to the parameter, and no others (`resolution?_retargetHeader`).
All stay listed where they resolve to.
-/

namespace LoopClosure.Bound

open Syntax Scopes

variable {b : Bound} {header : Option ScopeId} {scope h : ScopeId} {body i : NodeId}
  {name other : String} {idents : List NodeId} {id : Option ScopeId}

/-- What is done for one use. -/
def retargetUse (header : Option ScopeId) (scope : ScopeId) (body : NodeId) (name : String)
    (b : Bound) (ident : NodeId) : Bound :=
  if b.nodes.contains body ident then
    (b.retarget ident scope).withScopes (b.scopes.addReference scope name ident)
  else b.withScopes (b.scopes.addReference header name ident)

theorem nodes_retargetUse (ident : NodeId) :
    (retargetUse header scope body name b ident).nodes = b.nodes := by
  unfold retargetUse
  split <;> rfl

theorem scopes_retargetUse (ident : NodeId) :
    (retargetUse header scope body name b ident).scopes =
      b.scopes.addReference (if b.nodes.contains body ident then scope else header) name ident := by
  unfold retargetUse
  split <;> rfl

theorem resolution?_retargetUse (ident i : NodeId) :
    (retargetUse header scope body name b ident).resolution? i =
      if i = ident ∧ b.nodes.contains body i then
        (b.resolution? i).map fun r => { r with scope }
      else b.resolution? i := by
  unfold retargetUse
  by_cases hc : b.nodes.contains body ident = true
  · rw [if_pos hc]
    refine (resolution?_retarget b ident i scope).trans ?_
    by_cases hi : i = ident
    · rw [if_pos hi, if_pos ⟨hi, hi ▸ hc⟩]
    · rw [if_neg hi, if_neg fun h => hi h.1]
  · rw [if_neg hc, if_neg]
    · rfl
    · rintro ⟨rfl, hc'⟩
      exact hc hc'

theorem resolution?_retargetUses :
    (idents.foldl (retargetUse header scope body name) b).resolution? i =
      if i ∈ idents ∧ b.nodes.contains body i then
        (b.resolution? i).map fun r => { r with scope }
      else b.resolution? i := by
  induction idents generalizing b with
  | nil => simp
  | cons ident idents ih =>
    rw [List.foldl_cons, ih, nodes_retargetUse, resolution?_retargetUse]
    by_cases hc : b.nodes.contains body i = true
    · by_cases hi : i = ident
      · subst hi
        by_cases hm : i ∈ idents <;> simp [hc, hm, Function.comp_def]
      · simp [hi]
    · simp [hc]

theorem usesOf_retargetUses_subset :
    b.scopes.usesOf id other ⊆
      (idents.foldl (retargetUse header scope body name) b).scopes.usesOf id other := by
  induction idents generalizing b with
  | nil => exact List.Subset.refl _
  | cons ident idents ih =>
    refine List.Subset.trans ?_ ih
    rw [scopes_retargetUse]
    exact usesOf_subset_addReference _ _ _ _ _

/-- Each use is listed at the parameter or at the head. -/
theorem mem_usesOf_retargetUses (b : Bound) (body : NodeId) (name : String)
    (hs : scope < b.scopes.size) (hh : h < b.scopes.size) (hi : i ∈ idents) :
    i ∈ (idents.foldl (retargetUse (some h) scope body name) b).scopes.usesOf
      (some (if b.nodes.contains body i then scope else h)) name := by
  induction idents generalizing b with
  | nil => cases hi
  | cons ident idents ih =>
    have huses : OnlyUses b.scopes (retargetUse (some h) scope body name b ident).scopes := by
      rw [scopes_retargetUse]
      exact .addReference _ _ _ _
    rcases List.mem_cons.1 hi with rfl | hi
    · refine usesOf_retargetUses_subset (b := retargetUse (some h) scope body name b i) ?_
      rw [scopes_retargetUse]
      split <;> rw [usesOf_addReference (by assumption), if_pos ⟨rfl, rfl⟩] <;>
        exact List.mem_append_right _ List.mem_cons_self
    · have hrest := ih (retargetUse (some h) scope body name b ident) (huses.size.symm ▸ hs)
        (huses.size.symm ▸ hh) hi
      rwa [nodes_retargetUse] at hrest

theorem retargetHeader_eq (b : Bound) (header : Option ScopeId) (scope : ScopeId) (body : NodeId)
    (name : String) : b.retargetHeader header scope body name =
      (b.scopes.usesOf header name).foldl (retargetUse header scope body name)
        (b.withScopes (b.scopes.takeReferences header name).1) := rfl

/-- The uses listed at the head that lie in the range of the body go to the parameter. -/
theorem resolution?_retargetHeader :
    (b.retargetHeader header scope body name).resolution? i =
      if i ∈ b.scopes.usesOf header name ∧ b.nodes.contains body i then
        (b.resolution? i).map fun r => { r with scope }
      else b.resolution? i := by
  rw [retargetHeader_eq, resolution?_retargetUses]
  rfl

/-- What is listed somewhere is listed there still, or at the parameter. -/
theorem mem_usesOf_retargetHeader (hs : scope < b.scopes.size) (hh : h < b.scopes.size)
    (hi : i ∈ b.scopes.usesOf id other) :
    i ∈ (b.retargetHeader (some h) scope body name).scopes.usesOf
      (if (id = some h ∧ other = name) ∧ b.nodes.contains body i then some scope else id) other := by
  have htake : OnlyUses b.scopes (b.scopes.takeReferences (some h) name).1 := .takeReferences _ _ _
  rw [retargetHeader_eq]
  by_cases hhead : id = some h ∧ other = name
  · obtain ⟨rfl, rfl⟩ := hhead
    have hmem := mem_usesOf_retargetUses (b.withScopes (b.scopes.takeReferences (some h) other).1)
      body other (htake.size.symm ▸ hs) (htake.size.symm ▸ hh) hi
    rw [show (b.withScopes (b.scopes.takeReferences (some h) other).1).nodes = b.nodes from rfl,
      apply_ite some] at hmem
    simpa only [and_self, true_and] using hmem
  · rw [if_neg fun h => hhead h.1]
    exact usesOf_retargetUses_subset (mem_usesOf_takeReferences.2 ⟨hi, hhead⟩)

end LoopClosure.Bound
