import LoopClosure.Proofs.Binding.Targets

/-!
# What scopes list after a binding

`Scopes.Lists s ns refs target`: of the references `refs` each scope lists, by name, those that
`target` takes to it, in the order of `refs`. Each reference that is resolved is put behind the others
(`resolveAll_lists`), so this holds of bound units (`bind_lists`), whose references come in the order
of their numbers (`bind_references`).
-/

namespace LoopClosure

open Syntax Scopes Binding

namespace Scopes

structure Lists (s : Scopes) (ns : Nodes) (refs : List NodeId) (target : NodeId → Option ScopeId) :
    Prop where
  usesOf : ∀ (x : ScopeId) (name : String), s.usesOf x name =
    refs.filter fun i => ns.identifier? i = some name ∧ target i = some x
  known : ∀ {i : NodeId} {x : ScopeId}, target i = some x →
    i ∈ refs ∧ ∃ name, ns.identifier? i = some name
  declared : ∀ {x : ScopeId} {name : String}, s.usesOf x name ≠ [] →
    (s.declaration? (some x) name).isSome = true
  keyed : s.Keyed

namespace Lists

variable {s t : Scopes} {ns : Nodes} {refs : List NodeId} {target target' : NodeId → Option ScopeId}
  {i : NodeId} {x : ScopeId} {name : String}

theorem mem_usesOf_iff (h : s.Lists ns refs target) :
    i ∈ s.usesOf x name ↔ ns.identifier? i = some name ∧ target i = some x := by
  rw [h.usesOf, List.mem_filter, decide_eq_true_eq]
  exact and_iff_right_of_imp fun hi => (h.known hi.2).1

theorem of_empty (ns : Nodes) (h : ∀ x : ScopeId, s.listsOf x = []) :
    s.Lists ns [] fun _ => none where
  usesOf x name := by
    rw [usesOf_eq, h]
    rfl
  known hx := nomatch hx
  declared {x name} hx := by
    rw [usesOf_eq, h] at hx
    exact absurd rfl hx
  keyed x := by
    rw [h]
    exact List.nodup_nil

/-- Another table with the same lists and declarations. -/
theorem congr (h : s.Lists ns refs target) (hl : s.SameLists t)
    (hd : ∀ (x : ScopeId) (name : String),
      (s.declaration? x name).isSome = true → (t.declaration? x name).isSome = true) :
    t.Lists ns refs target where
  usesOf x name := (hl.usesOf x name).trans (h.usesOf x name)
  known := h.known
  declared hx := hd _ _ (h.declared (hl.usesOf _ _ ▸ hx))
  keyed := hl.keyed h.keyed

/-- A reference that resolves to nothing is listed nowhere. -/
theorem skip (h : s.Lists ns refs target) (hi : target i = none) :
    s.Lists ns (refs ++ [i]) target where
  usesOf x name := by
    rw [h.usesOf, List.filter_append, List.filter_singleton, hi]
    simp
  known hx := (h.known hx).imp_left (List.mem_append_left _)
  declared := h.declared
  keyed := h.keyed

/-- A reference that is resolved is put behind those of its name. -/
theorem add (h : s.Lists ns refs target) (hi : i ∉ refs) (hname : ns.identifier? i = some name)
    (hd : (s.declaration? (some x) name).isSome = true)
    (htarget : ∀ j, target' j = if j = i then some x else target j) :
    (s.addReference (some x) name i).Lists ns (refs ++ [i]) target' where
  usesOf y other := by
    obtain ⟨d, hdecl⟩ := Option.isSome_iff_exists.1 hd
    have hold : refs.filter (fun j => ns.identifier? j = some other ∧ target' j = some y) =
        refs.filter fun j => ns.identifier? j = some other ∧ target j = some y :=
      List.filter_congr fun j hj => by rw [htarget, if_neg (ne_of_mem_of_not_mem hj hi)]
    rw [usesOf_addReference (lt_size_of_declaration? hdecl), List.filter_append,
      List.filter_singleton, hold, ← h.usesOf, htarget, if_pos rfl, hname]
    by_cases hplace : y = x ∧ other = name
    · simp [hplace]
    · have hnot : ¬(some name = some other ∧ some x = some y) := fun h =>
        hplace ⟨(Option.some.inj h.2).symm, (Option.some.inj h.1).symm⟩
      rw [if_neg fun h => hplace ⟨Option.some.inj h.1, h.2⟩, decide_eq_false hnot, cond_false,
        List.append_nil]
  known {j y} hy := by
    rw [htarget] at hy
    by_cases hj : j = i
    · exact ⟨hj ▸ List.mem_append_right _ List.mem_cons_self, name, hj ▸ hname⟩
    · rw [if_neg hj] at hy
      exact (h.known hy).imp_left (List.mem_append_left _)
  declared {y other} hy := by
    rw [declaration?_addReference]
    obtain ⟨j, hj⟩ := List.exists_mem_of_ne_nil _ hy
    rcases mem_usesOf_addReference hj with hj | ⟨-, hid, rfl⟩
    · exact h.declared (List.ne_nil_of_mem hj)
    · rwa [hid]
  keyed := h.keyed.addReference _ _ _

end Lists

end Scopes

namespace Binding

variable {u : CompilationUnit} {b b' : Build} {r r' : Resolving} {done idents : List NodeId}
  {i : NodeId}

/-! ## The order of the references -/

theorem references_enterNode {n : Node} (h : enterNode u b i n = .ok b') :
    b'.references = b.references ∨ b'.references = b.references.push i := by
  unfold enterNode at h
  extract_lets scope at h
  obtain ⟨⟨t, own⟩, -, h⟩ := bind_eq_ok.1 h
  dsimp only at h
  split at h
  · split at h
    · cases h
      exact .inr rfl
    · cases h
      exact .inl rfl
  · cases h
    exact .inl rfl

theorem references_enterNodes {ns : List Node} (hlt : ∀ j ∈ b.references.toList, j < i)
    (hs : b.references.toList.Pairwise (· < ·)) (h : enterNodes u b i ns = .ok b') :
    b'.references.toList.Pairwise (· < ·) := by
  induction ns generalizing b i with
  | nil =>
    cases h
    exact hs
  | cons n ns ih =>
    obtain ⟨b₁, h₁, h⟩ := bind_eq_ok.1 h
    rcases references_enterNode h₁ with heq | heq
    · exact ih (fun j hj => Nat.lt_succ_of_lt (hlt j (heq ▸ hj))) (heq ▸ hs) h
    · refine ih (fun j hj => ?_) ?_ h
      · rw [heq, Array.toList_push, List.mem_append, List.mem_singleton] at hj
        rcases hj with hj | rfl
        · exact Nat.lt_succ_of_lt (hlt j hj)
        · exact Nat.lt_succ_self _
      · rw [heq, Array.toList_push, List.pairwise_append]
        exact ⟨hs, List.pairwise_singleton _ _, fun j hj k hk => List.mem_singleton.1 hk ▸ hlt j hj⟩

/-! ## Resolving -/

/-- The scope that a reference is resolved to. -/
def Resolving.place? (r : Resolving) (i : NodeId) : Option ScopeId :=
  ((r.resolved[i]?).join).map (·.scope)

theorem resolveReference_lists (hl : r.scopes.Lists u.nodes done r.place?) (hnew : i ∉ done)
    (hsize : i < r.resolved.size) (h : resolveReference u b r i = .ok r') :
    r'.scopes.Lists u.nodes (done ++ [i]) r'.place? := by
  rcases resolveReference_cases h with ⟨rfl, -⟩ | ⟨name, e, hres⟩
  · refine hl.skip ?_
    cases hp : r'.place? i with
    | none => rfl
    | some x => exact absurd (hl.known hp).1 hnew
  · obtain ⟨d, hd, -⟩ := hres.declared
    have hplace (j : NodeId) : r'.place? j = if j = i then some e.scope else r.place? j := by
      rw [Resolving.place?, hres.resolved]
      split
      · next hj => rw [hj, Array.getElem?_setIfInBounds_self_of_lt hsize, Option.join_some,
          Option.map_some]
      · next hj => rw [Array.getElem?_setIfInBounds_ne (Ne.symm hj), Resolving.place?]
    refine (hl.add hnew hres.named (by rw [hd, Option.isSome_some]) hplace).congr hres.uses.lists
      fun x other hx => ?_
    rw [(resolveReference_steps h).isSome_eq]
    rwa [declaration?_addReference] at hx

theorem resolveAll_lists (hl : r.scopes.Lists u.nodes done r.place?)
    (hnodup : (done ++ idents).Nodup) (hsize : ∀ i ∈ idents, i < r.resolved.size)
    (h : resolveAll u b r idents = .ok r') :
    r'.scopes.Lists u.nodes (done ++ idents) r'.place? := by
  induction idents generalizing r done with
  | nil =>
    cases h
    rwa [List.append_nil]
  | cons i idents ih =>
    obtain ⟨r₁, h₁, h⟩ := bind_eq_ok.1 h
    have hnew : i ∉ done := fun hi =>
      (List.nodup_append.1 hnodup).2.2 i hi i List.mem_cons_self rfl
    have hsize₁ : r₁.resolved.size = r.resolved.size := by
      rcases resolveReference_cases h₁ with ⟨rfl, -⟩ | ⟨name, e, hres⟩
      · rfl
      · rw [hres.resolved, Array.size_setIfInBounds]
    rw [List.append_cons] at hnodup ⊢
    exact ih (resolveReference_lists hl hnew (hsize i List.mem_cons_self) h₁) hnodup
      (fun j hj => hsize₁ ▸ hsize j (List.mem_cons_of_mem _ hj)) h

end Binding

/-! ## Bound units -/

/-- The scope that a reference of a bound unit resolves to. -/
def Bound.place? (b : Bound) (i : NodeId) : Option ScopeId := (b.resolution? i).map (·.scope)

/-- Each scope lists the references that resolve to it. -/
def Bound.Lists (b : Bound) : Prop := b.scopes.Lists b.nodes b.references b.place?

section Bind

variable {u : CompilationUnit} {root : NodeId} {b : Bound}

/-- The references of a bound unit come in the order of their numbers. -/
theorem bind_references (hb : bind u root = .ok b) : b.references.Pairwise (· < ·) ∧
    ∀ i, i ∈ b.references ↔
      (∃ name, u.nodes.identifier? i = some name) ∧ isReference u.nodes i = true := by
  unfold bind at hb
  split at hb
  · obtain ⟨s, hs, h⟩ := bind_eq_ok.1 hb
    obtain ⟨build, hbuild, h⟩ := bind_eq_ok.1 h
    extract_lets listed globals at h
    obtain ⟨r, -, h⟩ := bind_eq_ok.1 h
    cases h
    refine ⟨references_enterNodes (by simp) (by simp) hbuild, fun i => ?_⟩
    rw [mem_references_enterNodes rfl hbuild]
    simp
  · cases hb

theorem bind_lists (hb : bind u root = .ok b) : b.Lists := by
  unfold bind at hb
  split at hb
  · obtain ⟨s, hs, h⟩ := bind_eq_ok.1 hb
    obtain ⟨build, hbuild, h⟩ := bind_eq_ok.1 h
    extract_lets listed globals at h
    obtain ⟨r, hr, h⟩ := bind_eq_ok.1 h
    cases h
    obtain ⟨he, hsize⟩ := (entered_environment hs).enterNodes rfl hbuild
    have hglobals : build.scopes.Built globals := .foldl (fun _ _ => .addGlobal _ _ _ _) _ _
    have hplace : Resolving.place? ⟨globals, .replicate u.nodes.size none⟩ = fun _ => none := by
      funext i
      rw [Resolving.place?, Array.getElem?_replicate]
      split <;> rfl
    have hinit : globals.Lists u.nodes []
        (Resolving.place? ⟨globals, .replicate u.nodes.size none⟩) :=
      hplace ▸ .of_empty _ fun x => (hglobals.sameLists.listsOf x).trans (he.unused x)
    have hnodup : ([] ++ build.references.toList).Nodup := he.nodup
    refine resolveAll_lists hinit hnodup (fun i hi => ?_) hr
    have := he.reference_lt hi
    simpa [hsize, Nodes.size] using this
  · cases hb

end Bind

end LoopClosure
