import LoopClosure.Proofs.Binding.Targets
import LoopClosure.Proofs.Scope.Leads

/-!
# Ways from references to their bindings

In a bound unit the way up from a reference leads to the scope that it resolves to, and that scope
lists the reference as a use (`bind_traced`).
-/

namespace LoopClosure

open Syntax Scopes Binding

namespace Binding

variable {u : CompilationUnit} {G : Grants} {s t : Scopes} {x : ScopeId} {name : String}

theorem Step.marked (h : Step u G s t) (hm : s.Marked x name) : t.Marked x name := by
  have hrefl (c : Scope) : c.propagates ⊆ c.propagates := List.Subset.refl _
  cases h with
  | declare _ _ hd =>
    rcases Scopes.declare_cases hd with rfl | ⟨j, c, -, -, -, rfl⟩
    · exact hm
    · exact hm.update _ (fun _ => rfl) (fun c => hrefl c) fun _ => id
  | modify => exact hm.update _ (fun _ => rfl) (fun c => hrefl c) fun _ => id
  | addFlags =>
    exact hm.update _ (fun _ => rfl) (fun c => hrefl c) fun _ hw => Bool.or_eq_true_iff.2 (.inl hw)
  | markPropagates =>
    exact hm.update _ (fun _ => rfl) (fun c _ hn => mem_appendNew.2 (.inl hn)) fun _ => id
  | addReference =>
    refine hm.update _ (fun c => ?_) (fun c => ?_) fun c hw => ?_ <;> unfold Scope.addReference <;>
      split <;> first | rfl | exact hrefl c | exact hw

theorem Step.usesOf_subset (h : Step u G s t) (id : Option ScopeId) (name : String) :
    s.usesOf id name ⊆ t.usesOf id name := by
  cases h with
  | declare _ _ hd =>
    rcases Scopes.declare_cases hd with rfl | ⟨j, c, -, -, -, rfl⟩
    · exact List.Subset.refl _
    · rw [usesOf_update (f := (·.append _ _)) fun _ => rfl]
      exact List.Subset.refl _
  | modify =>
    rw [Scopes.modify, usesOf_update (f := (·.modify _ _)) fun _ => rfl]
    exact List.Subset.refl _
  | addFlags =>
    rw [usesOf_addFlags]
    exact List.Subset.refl _
  | markPropagates =>
    rw [Scopes.markPropagates, usesOf_update (f := (·.propagate _)) fun _ => rfl]
    exact List.Subset.refl _
  | addReference => exact usesOf_subset_addReference _ _ _ _ _

theorem Steps.usesOf_subset (h : Steps u G s t) (id : Option ScopeId) (name : String) :
    s.usesOf id name ⊆ t.usesOf id name := by
  induction h with
  | refl => exact List.Subset.refl _
  | tail _ hstep ih => exact List.Subset.trans ih (hstep.usesOf_subset id name)

theorem Steps.marked (h : Steps u G s t) (hm : s.Marked x name) : t.Marked x name := by
  induction h with
  | refl => exact hm
  | tail _ hstep ih => exact hstep.marked ih

theorem Steps.grown (h : Steps u G s t) (hs : s.Grown) : t.Grown := by
  induction h with
  | refl => exact hs
  | tail _ hstep ih => exact hstep.grown ih

theorem Steps.kind? (h : Steps u G s t) (id : Option ScopeId) : t.kind? id = s.kind? id := by
  induction h with
  | refl => rfl
  | tail _ hstep ih => exact (hstep.kind? id).trans ih

/-- The ways up from what is resolved lead to where it is resolved to. -/
def AllLead (u : CompilationUnit) (b : Build) (r : Resolving) : Prop :=
  ∀ (ident : NodeId) (e : Resolution), r.resolved[ident]? = some (some e) →
    ∃ name x, u.nodes.identifier? ident = some name ∧ b.nodeScopes[ident]? = some x ∧
      ident ∈ r.scopes.usesOf (some e.scope) name ∧ r.scopes.Leads name e.scope x

variable {b : Build} {r r' : Resolving} {ident : NodeId}

theorem AllLead.resolveReference (hr : AllLead u b r) (hg : r.scopes.Grown)
    (h : resolveReference u b r ident = .ok r') : AllLead u b r' := by
  have hsteps := resolveReference_steps h
  intro i e hi
  have hold (hi : r.resolved[i]? = some (some e)) : ∃ name x, u.nodes.identifier? i = some name ∧
      b.nodeScopes[i]? = some x ∧ i ∈ r'.scopes.usesOf (some e.scope) name ∧
        r'.scopes.Leads name e.scope x := by
    obtain ⟨name, x, hname, hx, huse, hl⟩ := hr i e hi
    exact ⟨name, x, hname, hx, hsteps.usesOf_subset _ _ huse,
      hl.congr (fun _ => hsteps.sameShape.parent? _) (fun x => hsteps.isSome_eq x name)
        fun _ => hsteps.marked⟩
  rcases resolveReference_cases h with ⟨rfl, -⟩ | ⟨name, e', hres⟩
  · exact hold hi
  rw [hres.resolved] at hi
  by_cases heq : ident = i
  · subst i
    have hlt : ident < r.resolved.size := by
      have := (Array.getElem?_eq_some_iff.1 hi).1
      rwa [Array.size_setIfInBounds] at this
    rw [Array.getElem?_setIfInBounds_self_of_lt hlt, Option.some.injEq, Option.some.injEq] at hi
    subst e'
    obtain ⟨x, hx, -⟩ := finds_of_lookup? hres.found
    have hfound := hx ▸ hres.found
    refine ⟨name, x, hres.named, hx, ?_, leads_of_walkUp hfound
      (fun _ => hsteps.sameShape.parent? _) (fun x => hsteps.isSome_eq x name) fun y hy hk => ?_⟩
    · obtain ⟨d, hd, -⟩ := hres.declared
      rw [hres.uses.usesOf, usesOf_addReference (lt_size_of_declaration? hd), if_pos ⟨rfl, rfl⟩]
      exact List.mem_append_right _ List.mem_cons_self
    · rw [hsteps.kind?] at hk
      rcases hres.marked with hsame | hall
      · rw [hx] at hsame
        exact absurd hk (kind?_ne_of_closestHoist? hg (List.mem_of_find?_eq_some hfound) hsame hy)
      · exact .inl (hall y (hx ▸ hy) hk)
  · rw [Array.getElem?_setIfInBounds_ne heq] at hi
    exact hold hi

theorem AllLead.resolveAll {idents : List NodeId} (hr : AllLead u b r) (hg : r.scopes.Grown)
    (h : resolveAll u b r idents = .ok r') : AllLead u b r' := by
  induction idents generalizing r with
  | nil =>
    cases h
    exact hr
  | cons ident idents ih =>
    obtain ⟨r₁, h₁, h⟩ := bind_eq_ok.1 h
    exact ih (hr.resolveReference hg h₁) ((resolveReference_steps h₁).grown hg) h

end Binding

/-- The ways up from references lead to the scopes that they resolve to. -/
def Bound.Traced (b : Bound) : Prop :=
  ∀ (ident : NodeId) (r : Resolution), b.resolution? ident = some r →
    ∃ name x, b.nodes.identifier? ident = some name ∧ b.nodeScope? ident = some x ∧
      ident ∈ b.scopes.usesOf (some r.scope) name ∧ b.scopes.Leads name r.scope x

theorem bind_traced {u : CompilationUnit} {b : Bound} (hns : u.nodes.WellFormed)
    (hroot : u.nodes.Rooted) (hb : bind u = .ok b) : b.Traced := by
  obtain ⟨build, globals, r, hstaged, hr, hscopes, hnodes, hresolved, -⟩ :=
    bind_stages hns hroot hb
  have hinit : AllLead u build ⟨globals, .replicate u.nodes.size none⟩ := by
    intro ident e he
    rw [Array.getElem?_replicate] at he
    split at he <;> cases he
  intro ident e he
  rw [Bound.resolution?, hresolved] at he
  rw [Bound.nodes, bind_unit hb, Bound.nodeScope?, hscopes, hnodes]
  exact hinit.resolveAll hstaged.layout.grown hr ident e (Option.join_eq_some_iff.1 he)

end LoopClosure
