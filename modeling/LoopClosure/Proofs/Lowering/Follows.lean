import LoopClosure.Proofs.Binding.Traces
import LoopClosure.Proofs.Lowering.Parameters
import LoopClosure.Proofs.Lowering.Splitting

/-!
# Scopes that follow the tree

`Bound.Nests`: the nodes in a scope, and those of the scopes below it, lie inside the node that the
scope is of. When a body is split off, those scopes move below the new one whose nodes lie inside the
body (`Nests.mem_moved_iff_inside`), so that this stays so (`Nests.splitBody`), whatever the form of
the body.

`Bound.Follows b bodies`: the scopes of a unit whose loop bodies `bodies` are wrapped lie in one
another as the nodes they are of. Those nodes open a scope or are wrapped bodies.

A body without a scope of its own gets one, and takes along the scopes of what lies in it
(`Follows.splitBody`). A block keeps its scope, which becomes that of a function
(`Follows.openBlock`). A body with a scope of its own that is no block would get the new one below
its own, so nothing is said of it.
-/

namespace LoopClosure.Bound

open Syntax Syntax.Nodes Scopes Binding

variable {b b' : Bound} {bodies : List NodeId} {body loop : NodeId} {form : Form NodeId}
  {outer : ScopeId}

/-! ## Scopes inside one another -/

/-- The scopes of a unit lie in one another as the nodes that they are of. -/
structure Nests (b : Bound) : Prop where
  listed : b.scopes.Listed
  opened : ∀ {i : NodeId} {x : ScopeId}, b.nodeScope? i = some x →
    ∃ n, b.scopes.node? (some x) = some n
  around : ∀ {i n : NodeId} {x : ScopeId}, b.nodeScope? i = some x →
    b.scopes.node? (some x) = some n → b.nodes.Inside n i
  nest : ∀ {x p : ScopeId}, b.scopes.parent? (some x) = some p →
    ∃ n, b.scopes.node? (some x) = some n ∧
      ∀ m, b.scopes.node? (some p) = some m → b.nodes.Inside m n

/-! ### Nodes of a split body -/

section Body

variable (hns : b.nodes.WellFormed) (hf : b.nodes.form? loop = some form)
  (hbody : form.loopBody? = some body)
include hns hf hbody

theorem mem_subtree_body_iff {i : NodeId} : i ∈ b.nodes.subtree body ↔ b.nodes.Inside body i := by
  refine ⟨inside_of_mem_subtreeWithin hns, fun hi => ?_⟩
  obtain ⟨n, hn⟩ : ∃ n, b.nodes.get? i = some n := by
    cases hi with
    | refl =>
      exact exists_get?_of_parent?_eq_some
        (parent?_of_form? hns hf (Form.mem_children_of_loopBody? hbody))
    | up hp => exact exists_get?_of_parent?_eq_some hp
  exact (mem_subtree_iff hns (Array.getElem?_eq_some_iff.1 hn).1).2 hi

theorem nodeScope?_split_cases {i : NodeId} {x : ScopeId}
    (hi : (b.splitBody body outer).1.nodeScope? i = some x) :
    b.nodeScope? i = some x ∧ (b.nodes.Inside body i → x ≠ outer) ∨
      b.nodeScope? i = some outer ∧ b.nodes.Inside body i ∧ x = b.scopes.size := by
  have hsub := mem_subtree_body_iff hns hf hbody (i := i)
  rw [nodeScope?_splitBody] at hi
  split at hi
  · next hin => exact .inr ⟨hin.2, hsub.1 hin.1, (Option.some.inj hi).symm⟩
  · next hout => exact .inl ⟨hi, fun hin hx => hout ⟨hsub.2 hin, hx ▸ hi⟩⟩

theorem nodeScope?_split_new {i : NodeId} (hi : b.nodeScope? i = some outer)
    (hin : b.nodes.Inside body i) :
    (b.splitBody body outer).1.nodeScope? i = some b.scopes.size := by
  rw [nodeScope?_splitBody, if_pos ⟨(mem_subtree_body_iff hns hf hbody).2 hin, hi⟩]

theorem nodeScope?_split_old {i : NodeId} {x : ScopeId} (hi : b.nodeScope? i = some x)
    (hout : b.nodes.Inside body i → x ≠ outer) :
    (b.splitBody body outer).1.nodeScope? i = some x := by
  rw [nodeScope?_splitBody, if_neg, hi]
  rintro ⟨hin, ho⟩
  exact hout ((mem_subtree_body_iff hns hf hbody).1 hin) (Option.some.inj (hi.symm.trans ho))

end Body

section Scope

variable (hlt : outer < b.scopes.size)
include hlt

theorem node?_split_old {x : ScopeId} (hx : x < b.scopes.size) :
    (b.splitBody body outer).1.scopes.node? (some x) = b.scopes.node? (some x) := by
  rw [node?_splitBody hlt, if_neg (Nat.ne_of_lt hx)]

theorem node?_split_new :
    (b.splitBody body outer).1.scopes.node? (some b.scopes.size) = some body := by
  rw [node?_splitBody hlt, if_pos rfl]

theorem parent?_split_new (hw : b.scopes.WellFormed) (hl : b.scopes.Listed) :
    (b.splitBody body outer).1.scopes.parent? (some b.scopes.size) = some outer := by
  rw [parent?_splitBody hlt hw hl, if_neg, if_pos rfl]
  exact fun hm => Nat.lt_irrefl _ (lt_of_mem_moved hlt hw hl _ hm)

end Scope

/-! ### Splitting -/

namespace Nests

variable (h : b.Nests) (hw : b.WellScoped) (hns : b.nodes.WellFormed)
  (hf : b.nodes.form? loop = some form) (hbody : form.loopBody? = some body)
  (houter : b.nodeScope? body = some outer)
include h hw hns hf hbody houter

/-- The scopes that move are those of what lies in the body. -/
theorem mem_moved_iff_inside {x : ScopeId} {n : NodeId} (hn : b.scopes.node? (some x) = some n) :
    x ∈ b.moved body outer ↔ b.scopes.parent? (some x) = some outer ∧ b.nodes.Inside body n := by
  rw [mem_moved_iff (hw.nodeScope_lt houter) hw.wellFormed h.listed]
  refine and_congr_right fun hp => ?_
  obtain ⟨m, hm⟩ := h.opened houter
  obtain ⟨n', hn', hmn⟩ := h.nest hp
  obtain rfl := Option.some.inj (hn.symm.trans hn')
  rw [← contains_body_iff_of_inside hns hf hbody (h.around houter hm) (hmn m hm)]
  constructor
  · rintro ⟨n', hn', hc⟩
    exact Option.some.inj (hn'.symm.trans hn) ▸ hc
  · exact fun hc => ⟨n, hn, hc⟩

theorem split_nest {x p : ScopeId}
    (hp : (b.splitBody body outer).1.scopes.parent? (some x) = some p) :
    ∃ n, (b.splitBody body outer).1.scopes.node? (some x) = some n ∧
      ∀ m, (b.splitBody body outer).1.scopes.node? (some p) = some m → b.nodes.Inside m n := by
  have hlt := hw.nodeScope_lt houter
  rw [parent?_splitBody hlt hw.wellFormed h.listed] at hp
  split at hp
  · next hmoved =>
    obtain rfl := Option.some.inj hp
    obtain ⟨hup, n, hn, -⟩ := (mem_moved_iff hlt hw.wellFormed h.listed).1 hmoved
    have hin := ((h.mem_moved_iff_inside hw hns hf hbody houter hn).1 hmoved).2
    refine ⟨n, (node?_split_old hlt (lt_size_of_parent? hup)).trans hn, fun m hm => ?_⟩
    rw [node?_split_new hlt, Option.some.injEq] at hm
    exact hm ▸ hin
  · split at hp
    · next hx =>
      obtain rfl := Option.some.inj hp
      refine ⟨body, hx ▸ node?_split_new hlt, fun m hm => ?_⟩
      rw [node?_split_old hlt hlt] at hm
      exact h.around houter hm
    · obtain ⟨n, hn, hin⟩ := h.nest hp
      refine ⟨n, (node?_split_old hlt (lt_size_of_parent? hp)).trans hn, fun m hm => hin m ?_⟩
      rwa [node?_split_old hlt (hw.wellFormed.parent_lt hp)] at hm

theorem splitBody : (b.splitBody body outer).1.Nests where
  listed := listed_splitBody (hw.nodeScope_lt houter) hw.wellFormed h.listed
  opened {i x} hi := by
    have hlt := hw.nodeScope_lt houter
    rcases nodeScope?_split_cases hns hf hbody hi with ⟨hold, -⟩ | ⟨-, -, rfl⟩
    · rw [node?_split_old hlt (hw.nodeScope_lt hold)]
      exact h.opened hold
    · exact ⟨body, node?_split_new hlt⟩
  around {i n x} hi hn := by
    have hlt := hw.nodeScope_lt houter
    rcases nodeScope?_split_cases hns hf hbody hi with ⟨hold, -⟩ | ⟨-, hin, rfl⟩
    · rw [node?_split_old hlt (hw.nodeScope_lt hold)] at hn
      exact h.around hold hn
    · rw [node?_split_new hlt, Option.some.injEq] at hn
      exact hn ▸ hin
  nest := h.split_nest hw hns hf hbody houter

end Nests

/-! ## The scopes of wrapped loops -/

/-- The scopes of a unit in which `bodies` are wrapped follow its tree. -/
structure Follows (b : Bound) (bodies : List NodeId) : Prop where
  regions : Regions b.unit b.scopes b.nodeScopes
  listed : b.scopes.Listed
  opened : ∀ {i : NodeId} {x : ScopeId}, b.nodeScope? i = some x →
    ∃ n, b.scopes.node? (some x) = some n
  placed : ∀ {x : ScopeId} {n : NodeId}, b.scopes.node? (some x) = some n →
    b.nodeScope? n = some x
  opener : ∀ {x : ScopeId} {n : NodeId}, b.scopes.node? (some x) = some n →
    opens b.unit n = true ∨ n ∈ bodies
  wrapper : ∀ {x : ScopeId}, (b.scopes.flags (some x)).loopWrapper = true →
    ∃ n ∈ bodies, b.scopes.node? (some x) = some n

namespace Follows

theorem nests (h : b.Follows bodies) : b.Nests where
  listed := h.listed
  opened := h.opened
  around hi hn := h.regions.around hi hn
  nest hp := h.regions.nest hp

section Split

variable (h : b.Follows bodies) (hw : b.WellScoped) (hns : b.nodes.WellFormed)
  (hf : b.nodes.form? loop = some form) (hbody : form.loopBody? = some body)
  (houter : b.nodeScope? body = some outer) (hnew : body ∉ bodies)
  (hopens : opens b.unit body = false)

include h hnew hopens in
theorem node?_ne_body (x : ScopeId) : b.scopes.node? (some x) ≠ some body := by
  intro hn
  rcases h.opener hn with ho | hmem
  · rw [hopens] at ho
    cases ho
  · exact hnew hmem

include h hns houter hnew hopens in
/-- What lies in the body does not open the scope around the body. -/
theorem ne_outer_of_inside {x : ScopeId} {n : NodeId} (hn : b.scopes.node? (some x) = some n)
    (hin : b.nodes.Inside body n) : x ≠ outer := by
  rintro rfl
  have heq : n = body := (h.regions.around houter hn).antisymm hns hin
  exact h.node?_ne_body hnew hopens x (heq ▸ hn)

include h hw hns hf hbody houter hnew hopens

theorem split_step {i p : NodeId} {x : ScopeId}
    (hi : (b.splitBody body outer).1.nodeScope? i = some x) (hp : b.nodes.parent? i = some p) :
    ∃ y, (b.splitBody body outer).1.nodeScope? p = some y ∧
      (x = y ∨ (b.splitBody body outer).1.scopes.node? (some x) = some i ∧
        (b.splitBody body outer).1.scopes.parent? (some x) = some y) := by
  have hlt := hw.nodeScope_lt houter
  have hparent (x : ScopeId) : (b.splitBody body outer).1.scopes.parent? (some x) = _ :=
    parent?_splitBody hlt hw.wellFormed h.listed x
  rcases nodeScope?_split_cases hns hf hbody hi with ⟨hold, hout⟩ | ⟨hold, hin, hx⟩
  · obtain ⟨y, hy, hstep⟩ := h.regions.step hold hp
    by_cases hmoves : b.nodes.Inside body p ∧ y = outer
    · -- The scope of the node is one of those that move.
      obtain ⟨hin, rfl⟩ := hmoves
      refine ⟨b.scopes.size, nodeScope?_split_new hns hf hbody hy hin, .inr ?_⟩
      obtain ⟨hn, hup⟩ := hstep.resolve_left (hout (.up hp hin))
      refine ⟨(node?_split_old hlt (lt_size_of_parent? hup)).trans hn, ?_⟩
      rw [hparent, if_pos]
      exact (h.nests.mem_moved_iff_inside hw hns hf hbody houter hn).2 ⟨hup, .up hp hin⟩
    · have hstays : b.nodes.Inside body p → y ≠ outer := fun hin hyo => hmoves ⟨hin, hyo⟩
      refine ⟨y, nodeScope?_split_old hns hf hbody hy hstays, hstep.imp_right ?_⟩
      rintro ⟨hn, hup⟩
      have hx := lt_size_of_parent? hup
      refine ⟨(node?_split_old hlt hx).trans hn, ?_⟩
      rw [hparent, if_neg, if_neg (Nat.ne_of_lt hx), hup]
      intro hmoved
      obtain ⟨hup', hin⟩ := (h.nests.mem_moved_iff_inside hw hns hf hbody houter hn).1 hmoved
      have hne : body ≠ i := fun e => h.node?_ne_body hnew hopens x (e ▸ hn)
      exact hstays (hin.parent hne hp) (Option.some.inj (hup.symm.trans hup'))
  · obtain ⟨y, hy, hstep⟩ := h.regions.step hold hp
    obtain rfl : outer = y := hstep.resolve_right fun hn =>
      h.ne_outer_of_inside hns houter hnew hopens hn.1 hin rfl
    by_cases heq : body = i
    · refine ⟨outer, nodeScope?_split_old hns hf hbody hy fun hin' => ?_, .inr ?_⟩
      · have hlt' := hns.parent_lt hp
        rw [← heq] at hlt'
        exact absurd (hin'.le hns) (Nat.not_le_of_lt hlt')
      · rw [hx, ← heq]
        exact ⟨node?_split_new hlt, parent?_split_new hlt hw.wellFormed h.listed⟩
    · exact ⟨b.scopes.size, nodeScope?_split_new hns hf hbody hy (hin.parent heq hp), .inl hx⟩

theorem split_regions : Regions b.unit (b.splitBody body outer).1.scopes
    (b.splitBody body outer).1.nodeScopes where
  top := (node?_split_old (hw.nodeScope_lt houter)
    (Nat.zero_lt_of_lt (hw.nodeScope_lt houter))).trans h.regions.top
  around hi hn := (h.nests.splitBody hw hns hf hbody houter).around hi hn
  nest := h.nests.split_nest hw hns hf hbody houter
  step := h.split_step hw hns hf hbody houter hnew hopens
  own {i x form'} hi hform ho := by
    have hlt := hw.nodeScope_lt houter
    rcases nodeScope?_split_cases hns hf hbody hi with ⟨hold, -⟩ | ⟨hold, hin, -⟩
    · rw [node?_split_old hlt (hw.nodeScope_lt hold)]
      exact h.regions.own hold hform ho
    · have hn := h.regions.own hold hform ho
      exact absurd rfl (h.ne_outer_of_inside hns houter hnew hopens hn hin)

theorem splitBody : (b.splitBody body outer).1.Follows (bodies ++ [body]) where
  regions := h.split_regions hw hns hf hbody houter hnew hopens
  listed := listed_splitBody (hw.nodeScope_lt houter) hw.wellFormed h.listed
  opened hi := (h.nests.splitBody hw hns hf hbody houter).opened hi
  placed {x n} hn := by
    rw [node?_splitBody (hw.nodeScope_lt houter)] at hn
    split at hn
    · next hx =>
      rw [hx, ← Option.some.inj hn]
      exact nodeScope?_split_new hns hf hbody houter .refl
    · exact nodeScope?_split_old hns hf hbody (h.placed hn)
        (h.ne_outer_of_inside hns houter hnew hopens hn)
  opener {x n} hn := by
    rw [node?_splitBody (hw.nodeScope_lt houter)] at hn
    split at hn
    · exact .inr (List.mem_append_right _ (Option.some.inj hn ▸ List.mem_cons_self))
    · exact (h.opener hn).imp_right (List.mem_append_left _)
  wrapper {x} hx := by
    have hlt := hw.nodeScope_lt houter
    by_cases heq : x = b.scopes.size
    · exact ⟨body, List.mem_append_right _ List.mem_cons_self, heq ▸ node?_split_new hlt⟩
    · rw [flags_splitBody heq] at hx
      obtain ⟨n, hmem, hn⟩ := h.wrapper hx
      rw [node?_splitBody hlt, if_neg heq]
      exact ⟨n, List.mem_append_left _ hmem, hn⟩

end Split

/-- The scope of a body that is a block becomes that of a function. -/
theorem openBlock (h : b.Follows bodies) (hn : b.scopes.node? (some outer) = some body) :
    (b.withScopes ((b.scopes.setKind outer .hoist).addFlags outer { loopWrapper := true })).Follows
      (bodies ++ [body]) := by
  have hshape := openBlock_sameShape b outer
  have hflags (x : ScopeId) (hne : x ≠ outer) :
      ((b.scopes.setKind outer .hoist).addFlags outer { loopWrapper := true }).flags (some x) =
        b.scopes.flags (some x) := by
    have hne' : some outer ≠ some x := fun e => hne (Option.some.inj e).symm
    rw [flags, addFlags, get?_update_of_ne hne', setKind, get?_update_of_ne hne', flags]
  refine ⟨h.regions.sameShape hshape, h.listed.of_sameShape hshape, fun {i x} hi => ?_,
    fun {x n} hx => ?_, fun {x n} hx => ?_, fun {x} hx => ?_⟩
  · obtain ⟨n, hi⟩ := h.opened hi
    exact ⟨n, (hshape.node? _).trans hi⟩
  · exact h.placed ((hshape.node? _).symm.trans hx)
  · exact (h.opener ((hshape.node? _).symm.trans hx)).imp_right (List.mem_append_left _)
  · by_cases hxo : x = outer
    · exact ⟨body, List.mem_append_right _ List.mem_cons_self, (hshape.node? _).trans (hxo ▸ hn)⟩
    · obtain ⟨n, hmem, hn⟩ := h.wrapper (hflags x hxo ▸ hx)
      exact ⟨n, List.mem_append_left _ hmem, (hshape.node? _).trans hn⟩

/-- A change of declarations and uses only. -/
theorem of_sameShape (h : b.Follows bodies) (hu : b'.unit = b.unit)
    (hn : b'.nodeScopes = b.nodeScopes) (hs : b.scopes.SameShape b'.scopes)
    (hflags : ∀ id, b'.scopes.flags id = b.scopes.flags id) : b'.Follows bodies := by
  refine ⟨?_, h.listed.of_sameShape hs, fun hi => ?_, fun hx => ?_, fun hx => ?_, fun hx => ?_⟩
  · rw [hu, hn]
    exact h.regions.sameShape hs
  · rw [nodeScope?, hn] at hi
    obtain ⟨n, hi⟩ := h.opened hi
    exact ⟨n, (hs.node? _).trans hi⟩
  · rw [nodeScope?, hn]
    exact h.placed ((hs.node? _).symm.trans hx)
  · rw [hu]
    exact h.opener ((hs.node? _).symm.trans hx)
  · rw [hflags] at hx
    obtain ⟨n, hmem, hn⟩ := h.wrapper hx
    exact ⟨n, hmem, (hs.node? _).trans hn⟩

end Follows

end LoopClosure.Bound
