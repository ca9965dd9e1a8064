import LoopClosure.Grammar.Program
import LoopClosure.Proofs.Binding.Layout
import LoopClosure.Proofs.Lowering.Declared
import LoopClosure.Proofs.Lowering.Detection
import LoopClosure.Proofs.Scope.Forest

/-!
# The tree of scopes of a program

The scopes of a program are one tree with the scope of the globals at its root (`bind_tree`), also
after loops were wrapped (`lower_tree`). Binding puts each scope below the one that its node stands
in. A body that is split off gets a scope beside the scopes that then move below it, so that none of
them moves below itself, however loops lie in one another.
-/

namespace LoopClosure

open Syntax Scopes

variable {u : CompilationUnit} {s t : Scopes} {top : ScopeId}

/-! ## Binding -/

namespace Binding

theorem sameShape_addTable (s : Scopes) (table : List (String × Bool)) :
    s.SameShape (addTable s table) :=
  .foldl (fun _ _ => addGlobal_sameShape _ _ _ _ _) table s

theorem tree_environment (h : environment u = .ok s) : s.Tree topScope := by
  unfold environment at h
  obtain ⟨t, ht, h⟩ := bind_eq_ok.1 h
  cases h
  rw [addEnvironments_eq ht]
  have hfirst := Tree.first .hoist none { top := true }
  have halways := hfirst.of_sameShape (.foldl sameShape_addTable Globals.always _)
  have hnamed := halways.of_sameShape
    (.foldl sameShape_addTable (u.options.environments.filterMap Globals.environment?) _)
  exact hnamed.of_sameShape (sameShape_addTable _ u.options.globals)

/-- A node that opens a scope opens it below the scope that it stands in. -/
theorem Enters.tree {id : NodeId} {scope own : ScopeId} {form : Form NodeId}
    (h : Enters u id scope form s t own) (hs : s.Tree top) (hlt : scope < s.size) :
    t.Tree top := by
  cases h with
  | same _ h => exact hs.of_sameShape h.sameShape
  | own _ h _ h' =>
    have hr := hs.of_sameShape h.sameShape
    exact (hr.alloc (h.sameShape.size ▸ hlt)).of_sameShape h'.sameShape

end Binding

open Binding

theorem bind_tree {root : NodeId} {b : Bound} (h : bind u root = .ok b) :
    b.scopes.Tree topScope := by
  unfold bind at h
  split at h
  · next comments hform =>
    obtain ⟨s, hs, h⟩ := bind_eq_ok.1 h
    obtain ⟨build, hbuild, h⟩ := bind_eq_ok.1 h
    extract_lets listed globals at h
    obtain ⟨r, hr, h⟩ := bind_eq_ok.1 h
    cases h
    have hentered : build.scopes.Tree topScope :=
      (entered_environment hs).invariant (P := fun b => b.scopes.Tree topScope)
        (tree_environment hs) (fun he ht _ hstep => by
          obtain ⟨own, henter, -⟩ := enterNode_scopes hstep
          exact (enterScopes_enters henter).tree ht (he.scope_lt _)) rfl hbuild
    have hglobals : build.scopes.SameShape globals :=
      .foldl (fun _ _ => addGlobal_sameShape _ _ _ _ _) listed build.scopes
    exact (hentered.of_sameShape hglobals).of_sameShape (resolveAll_steps hr).sameShape
  · cases h

/-! ## Wrapping -/

namespace Bound

variable {b b' : Bound} {wraps wraps' : Array Wrap}

/-- The scopes that move below the new one are its siblings. -/
theorem splitBody_tree {body : NodeId} {outer : ScopeId} (ht : b.scopes.Tree top)
    (hlt : outer < b.scopes.size) : (b.splitBody body outer).1.scopes.Tree top := by
  have hne : some outer ≠ some b.scopes.size := fun e => Nat.ne_of_lt hlt (Option.some.inj e)
  rw [scopes_splitBody]
  refine (ht.alloc hlt).reparents (x := outer) ?_ fun c hc => ?_
  · rw [parent?_alloc hne, if_pos rfl]
  · have hp := parent?_of_mem_moved hlt ht.linked.wellFormed hc
    have hold := Nat.ne_of_lt (lt_size_of_parent? hp)
    refine ⟨hold, .inl ?_⟩
    rw [parent?_alloc hne, if_neg hold, hp]

theorem openBody_tree {body : NodeId} {outer : ScopeId} (blockBody : Bool)
    (ht : b.scopes.Tree top) (hlt : outer < b.scopes.size) :
    (b.openBody body blockBody outer).1.scopes.Tree top := by
  cases blockBody with
  | true => exact ht.of_sameShape (openBlock_sameShape b outer)
  | false => exact splitBody_tree ht hlt

theorem retargetHeader_sameShape (b : Bound) (header : Option ScopeId) (scope : ScopeId)
    (body : NodeId) (name : String) :
    b.scopes.SameShape (b.retargetHeader header scope body name).scopes := by
  unfold retargetHeader
  refine List.foldlRecOn (motive := fun t : Bound => b.scopes.SameShape t.scopes) _ _
    (OnlyUses.takeReferences b.scopes header name).sameShape fun t ht ident _ => ?_
  split
  · exact ht.trans (OnlyUses.addReference t.scopes scope name ident).sameShape
  · exact ht.trans (OnlyUses.addReference t.scopes header name ident).sameShape

theorem addParams_sameShape {header : Option ScopeId} {scope : ScopeId} {body : NodeId}
    {names params : List String} (h : addParams header scope body b names = .ok (b', params)) :
    b.scopes.SameShape b'.scopes := by
  induction names generalizing b b' params with
  | nil =>
    cases h
    exact .refl _
  | cons name names ih =>
    unfold addParams at h
    split at h
    · exact ih h
    · split at h
      · cases h
      · next t target hd =>
        obtain ⟨⟨b₁, params₁⟩, hrest, h⟩ := bind_eq_ok.1 h
        cases h
        have hdeclared : b.scopes.SameShape t := by
          rcases declare_cases hd with rfl | ⟨j, c, -, -, -, rfl⟩
          · exact .refl _
          · exact .update _ _ ⟨fun _ => rfl, fun _ => rfl, fun _ => rfl⟩
        have hretargeted := retargetHeader_sameShape (b.withScopes t) header scope body name
        exact (hdeclared.trans hretargeted).trans (ih hrest)

theorem wrap_tree {loop body : NodeId} {w : Wrap} (hb : b.WellScoped) (ht : b.scopes.Tree top)
    (h : b.wrap loop body = .ok (b', w)) : b'.scopes.Tree top := by
  unfold wrap at h
  split at h
  · cases h
  · next outer houter =>
    obtain ⟨⟨b₂, params⟩, hparams, h⟩ := bind_eq_ok.1 h
    cases h
    exact (openBody_tree _ ht (hb.nodeScope_lt houter)).of_sameShape (addParams_sameShape hparams)

theorem wrapAll_tree {idents : List NodeId} (hb : b.WellScoped) (ht : b.scopes.Tree top)
    (h : wrapAll b wraps idents = .ok (b', wraps')) : b'.scopes.Tree top := by
  induction idents generalizing b wraps with
  | nil =>
    cases h
    exact ht
  | cons ident idents ih =>
    unfold wrapAll at h
    split at h
    · exact ih hb ht h
    · obtain ⟨⟨b₁, wraps₁⟩, hstep, h⟩ := bind_eq_ok.1 h
      refine ih (wrapHazard_extends hb hstep).1 ?_ h
      obtain ⟨-, -, ⟨rfl, -, -⟩ | ⟨body, w, -, -, -, hwrap, -⟩⟩ := wrapHazard_cases hstep
      · exact ht
      · exact wrap_tree hb ht hwrap

end Bound

/-! ## Lowering -/

/-- Once the loops are wrapped, scopes get `var`s and nothing else. -/
theorem Lowering.finish_advances {l l' : Lowering} (h : l.finish = .ok l') : Advances l l' := by
  obtain ⟨l₁, h₁, h⟩ := bind_eq_ok.1 h
  obtain ⟨l₂, h₂, h₃⟩ := bind_eq_ok.1 h
  have hbodies : Advances l l₁ := foldlM_rel .refl .trans
    (fun _ _ _ _ _ hstep => (adaptBody_records hstep).toAdvances) h₁
  have hrelays : Advances l₁ l₂ := foldlM_rel .refl .trans
    (fun _ _ _ _ _ hstep => (resolveRelays_records hstep (.refl _)).toAdvances) h₂
  have hcalls : Advances l₂ l' := foldlM_rel .refl .trans
    (fun _ _ _ _ _ hstep => (writeCall_records hstep).toAdvances) h₃
  exact (hbodies.trans hrelays).trans hcalls

theorem lower_tree {root : NodeId} {b : Bound} {out : Lowered} (hb : bind u root = .ok b)
    (h : lower b = .ok out) : out.bound.scopes.Tree topScope := by
  obtain ⟨⟨b', wraps⟩, hwraps, h⟩ := bind_eq_ok.1 h
  obtain ⟨l, hfinish, h⟩ := bind_eq_ok.1 h
  obtain ⟨code, -, h⟩ := bind_eq_ok.1 h
  cases h
  have hwrapped := Bound.wrapAll_tree (bind_wellScoped hb).1 (bind_tree hb) hwraps
  exact hwrapped.of_sameShape (Lowering.finish_advances hfinish).vars.shape

/-! ## The forest -/

/-- Scopes are a forest after any operations on an empty table, and the scopes of a program are a
tree below the scope of the globals. -/
theorem scopes_forest :
    (∀ os : List Operation, Operation.All Operation.Admitted {} os →
      (∀ p c : ScopeId, ((os.foldl Operation.apply {}).childIds (some p)).count c =
        if (os.foldl Operation.apply {}).parent? (some c) = some p then 1 else 0) ∧
      (Operation.All Operation.Upright {} os → (os.foldl Operation.apply {}).Rooted)) ∧
    ∀ (u : CompilationUnit) (root : NodeId) (b : Bound), bind u root = .ok b →
      b.scopes.Tree topScope ∧ ∀ out, lower b = .ok out → out.bound.scopes.Tree topScope :=
  ⟨fun _ hos => ⟨Operation.linked_run .empty hos, Operation.rooted_run .empty hos⟩,
    fun _ _ _ hb => ⟨bind_tree hb, fun _ hout => lower_tree hb hout⟩⟩

/-- A scope moves below another one. -/
def siblingMove : List Operation :=
  [.alloc .hoist none none {}, .alloc .block none (some 0) {}, .alloc .block none (some 0) {},
    .reparent 2 (some 1), .setKind (some 1) .hoist]

/-- Each body gets a scope of its own; what lies in the inner one moves below that. -/
def loopsWithoutBlocks : List Char :=
  "for (const x of xs) for (const y of ys) f(() => x + y);".toList

theorem scopes_forest_loopsWithoutBlocks :
    (((siblingMove.foldl Operation.apply {}).childIds (some 1)).count 2 = 1 ∧
      (siblingMove.foldl Operation.apply {}).Rooted) ∧
    ∃ t b out, Grammar.parse loopsWithoutBlocks = .ok t ∧
      bind ⟨"", loopsWithoutBlocks, .ofTree t, {}⟩ = .ok b ∧ lower b = .ok out ∧
      b.scopes.Tree topScope ∧ out.bound.scopes.Tree topScope ∧
      b.scopes.parent? (some 4) = some 3 ∧ out.bound.scopes.parent? (some 4) = some 6 := by
  obtain ⟨hoperations, hprograms⟩ := scopes_forest
  refine ⟨?_, ?_⟩
  · have hadmitted : Operation.All Operation.Admitted {} siblingMove := by
      refine ⟨fun p e => ?_, fun p e => ?_, fun p e => ?_, ⟨by decide, fun p e => ?_⟩,
        trivial, trivial⟩ <;> cases e <;> decide
    have hupright : Operation.All Operation.Upright {} siblingMove := by
      refine ⟨trivial, trivial, trivial, fun p e h => ?_, trivial, trivial⟩
      cases e
      -- The way up from scope 1 is 1, 0.
      rcases h with _ | ⟨hp, h⟩
      cases (show _ = some 0 from rfl).symm.trans hp
      rcases h with _ | ⟨hp, -⟩
      cases hp
    obtain ⟨hlinked, hrooted⟩ := hoperations siblingMove hadmitted
    exact ⟨(hlinked 1 2).trans (by decide), hrooted hupright⟩
  · have hrun : okAnd (Grammar.parse loopsWithoutBlocks) (fun t =>
        okAnd (bind ⟨"", loopsWithoutBlocks, .ofTree t, {}⟩) fun b => okAnd (lower b) fun out =>
          decide (b.scopes.parent? (some 4) = some 3 ∧
            out.bound.scopes.parent? (some 4) = some 6)) = true := by
      decide +kernel
    obtain ⟨t, hparse, hrun⟩ := okAnd_iff.1 hrun
    obtain ⟨b, hb, hrun⟩ := okAnd_iff.1 hrun
    obtain ⟨out, hout, hrun⟩ := okAnd_iff.1 hrun
    obtain ⟨hbound, hlowered⟩ := hprograms _ _ _ hb
    exact ⟨t, b, out, hparse, hb, hout, hbound, hlowered out hout, of_decide_eq_true hrun⟩

end LoopClosure
