import LoopClosure.Proofs.Lowering.Diagnosed
import LoopClosure.Proofs.Lowering.Insertions
import LoopClosure.Proofs.Lowering.Outcome

/-!
# Names, declarations and edits of a compilation

`Lowering.Account source options l`: what a lowering of a source ends with, as far as it is seen from
outside. The names it gives out are new to the source, its edits are those of `Lowering.Inserts`,
and in front of the outermost calls it declares flags and hoisted names (`account_of_lowerSource`).
-/

namespace LoopClosure

open Syntax Syntax.Nodes

/-- The name occurs in the source, or the options or a comment list it as a global. -/
def Lowering.Knows (l : Lowering) (source : List Char) (options : Options) (name : String) : Prop :=
  (∃ ident, l.nodes.identifier? ident = some name) ∨ name ∈ options.globals.map (·.1) ∨
    ∃ statements comments, l.nodes.form? Nodes.root = some (.program statements comments) ∧
      name ∈ (Binding.commentGlobals source comments).map (·.1)

/-! ## Names of bindings -/

theorem Syntax.Nodes.exists_identifier?_of_mem_bindingNames {ns : Nodes} {target : NodeId}
    {v : String} (h : v ∈ ns.bindingNames target) : ∃ ident, ns.identifier? ident = some v := by
  obtain ⟨ident, -, hident⟩ := List.mem_filterMap.1 h
  exact ⟨ident, hident⟩

theorem Syntax.Nodes.exists_identifier?_of_mem_namesOf {ns : Nodes} {declaration : NodeId}
    {v : String} (h : v ∈ ns.namesOf declaration) : ∃ ident, ns.identifier? ident = some v := by
  unfold namesOf at h
  split at h
  · obtain ⟨d, -, h⟩ := List.mem_flatMap.1 h
    split at h
    · exact exists_identifier?_of_mem_bindingNames h
    · cases h
  · cases h

namespace Bound

variable {b b' : Bound}

theorem addParams_subset {header : Option ScopeId} {scope : ScopeId} {body : NodeId}
    {names params : List String} (h : addParams header scope body b names = .ok (b', params)) :
    params ⊆ names := by
  induction names generalizing b b' params with
  | nil =>
    cases h
    exact List.Subset.refl _
  | cons name names ih =>
    unfold addParams at h
    split at h
    · exact fun v hv => List.mem_cons_of_mem _ (ih h hv)
    · split at h
      · cases h
      · obtain ⟨⟨b₁, params₁⟩, hrest, h⟩ := bind_eq_ok.1 h
        cases h
        exact List.cons_subset_cons _ (ih hrest)

/-- The parameters of a wrap are names of its loop. -/
theorem params_of_wrap {loop body : NodeId} {w : Wrap} (hb : b.WellScoped)
    (h : b.wrap loop body = .ok (b', w)) {v : String} (hv : v ∈ w.params) :
    ∃ ident, b.nodes.identifier? ident = some v := by
  unfold wrap at h
  split at h
  · cases h
  · next outer houter =>
    dsimp only at h
    obtain ⟨⟨b₂, params⟩, hparams, h⟩ := bind_eq_ok.1 h
    cases h
    obtain ⟨-, hext, -⟩ := openBody_spec hb _ (hb.nodeScope_lt houter)
    have hnames := addParams_subset hparams hv
    rw [hext.nodes] at hnames
    obtain ⟨-, -, -, -, -, -, -, -, -, -, -, -, -, -, ident, -, hname⟩ :=
      exists_of_mem_headerNames hnames
    exact ⟨ident, hname⟩

/-- What holds of every wrap that is made holds of all wraps. -/
theorem forall_of_wrapAll {P : Nodes → Wrap → Prop} {wraps wraps' : Array Wrap}
    {idents : List NodeId} (hP : ∀ {b b' : Bound} {loop body : NodeId} {w : Wrap}, b.WellScoped →
      b.wrap loop body = .ok (b', w) → P b.nodes w) (hb : b.WellScoped)
    (hw : ∀ w ∈ wraps, P b.nodes w) (h : wrapAll b wraps idents = .ok (b', wraps')) :
    ∀ w ∈ wraps', P b.nodes w := by
  induction idents generalizing b wraps with
  | nil =>
    cases h
    exact hw
  | cons ident idents ih =>
    unfold wrapAll at h
    split at h
    · exact ih hb hw h
    · obtain ⟨⟨b₁, wraps₁⟩, hstep, h⟩ := bind_eq_ok.1 h
      obtain ⟨hb₁, hext⟩ := wrapHazard_extends hb hstep
      rw [← hext.nodes] at hw ⊢
      refine ih hb₁ ?_ h
      obtain ⟨-, -, ⟨-, rfl, -⟩ | ⟨body, w, -, -, -, hwrap, rfl⟩⟩ := wrapHazard_cases hstep
      · exact hw
      · intro w' hw'
        rcases Array.mem_push.1 hw' with hw' | rfl
        · exact hw w' hw'
        · exact hext.nodes ▸ hP hb hwrap

end Bound

/-! ## The account -/

namespace Lowering

variable {l l' : Lowering} {k : Nat} {v : String}

theorem Keeps.hoists_iff (h : Keeps l l') : l'.Hoists k v ↔ l.Hoists k v := by
  simp only [Hoists, h.wraps, h.outermost, h.sitesOf, h.nodes]

theorem Keeps.flags_iff (h : Keeps l l') {n : Names} : l'.Flags n k v ↔ l.Flags n k v := by
  simp only [Flags, h.wraps, h.carried_iff, h.flagged_iff]

/-- What the lowering of a source ends with. -/
structure Account (source : List Char) (options : Options) (l : Lowering) : Prop
    extends Outcome l where
  new : ∀ {key name : String}, l.draft.names.permanent? key = some name →
    ¬l.Knows source options name
  declared : ∀ (k : Nat) (v : String), v ∈ (l.exit k).declared ↔
    k < l.wraps.size ∧ (l.Hoists k v ∨ l.Flags l.draft.names k v)
  valued : ∀ k, (l.exit k).Valued
  inserts : ∀ e, e ∈ l.made ↔ ∃ p ps, l.Inserts e p ps
  named : ∀ {i : Nat} {w : Wrap}, l.wraps[i]? = some w → ∀ a : Alias, l.sitesOf i a.siteKind ≠ [] →
    ∃ target name, aliasScope? l.bound w.scope = some target ∧
      l.draft.names.permanent? a.key = some name
  params : ∀ {i : Nat} {w : Wrap}, l.wraps[i]? = some w → ∀ v ∈ w.params,
    ∃ ident, l.nodes.identifier? ident = some v
  blocks : ∀ {i : Nat} {w : Wrap}, l.wraps[i]? = some w → w.blockBody = true →
    ∃ statements, l.nodes.form? w.body = some (.block statements)
  root : ∀ {s : NodeId} {n : Node}, l.nodes.get? s = some n → l.nodes.Inside Nodes.root s
  program : ∃ statements comments, l.nodes.form? Nodes.root = some (.program statements comments)
  references : ∀ {s : NodeId}, s ∈ l.bound.references → Binding.isReference l.nodes s = true

end Lowering

theorem account_of_lowerSource {file : String} {source : List Char} {options : Options}
    {l : Lowering} (h : lowerSource file source options = .ok l) : l.Account source options := by
  obtain ⟨ho, t, hparse, hnodes⟩ := outcome_of_lowerSource h
  obtain ⟨t', b, hparse', hbind, hl⟩ := lowerSource_eq_ok.1 h
  cases hparse.symm.trans hparse'
  obtain ⟨⟨b', wraps⟩, hwraps, hfinish⟩ := bind_eq_ok.1 hl
  have hb := (bind_wellScoped hbind).1
  have hbnodes : b.nodes = .ofTree t := congrArg CompilationUnit.nodes (bind_unit hbind)
  have hns : b.nodes.WellFormed :=
    hbnodes ▸ Nodes.wellFormed_ofTree (Grammar.parse_wellFormed hparse)
  have hext := (Bound.wrapAll_extends hb hwraps).2
  have hn : (Lowering.ofWraps b' wraps).Nested :=
    Lowering.nested_ofWraps (hext.nodes ▸ hns)
      (hext.nodes ▸ Bound.wrapAll_wrapsOf hb (.empty _) hwraps)
  have hempty := Lowering.exit_ofWraps b' wraps
  have hrecords := Lowering.finish_records hn Array.size_replicate hempty hfinish
  have hsize : (Lowering.ofWraps b' wraps).exits.size = wraps.size := Array.size_replicate
  obtain ⟨statements, comments, hform, hidents⟩ := mem_identifiers hbind
  have hall {P : Nodes → Wrap → Prop} (hP : ∀ {b b' : Bound} {loop body : NodeId} {w : Wrap},
      b.WellScoped → b.wrap loop body = .ok (b', w) → P b.nodes w) {i : Nat} {w : Wrap}
      (hw : l.wraps[i]? = some w) : P l.nodes w := by
    have hmem : _ ∈ wraps := hrecords.wraps ▸ Array.mem_of_getElem? hw
    rw [hnodes, ← hbnodes]
    exact Bound.forall_of_wrapAll hP hb (fun w hw => absurd hw (Array.not_mem_empty w)) hwraps _ hmem
  refine ⟨ho, fun hname hknown => ?_, fun k v => ?_, ?_, ?_,
    fun hw => Lowering.finish_named hn Array.size_replicate hempty hfinish hw,
    fun hw => hall (P := fun ns w => ∀ v ∈ w.params, ∃ ident, ns.identifier? ident = some v)
      (fun hb h v => Bound.params_of_wrap hb h) hw,
    fun hw => hall (P := fun ns w => w.blockBody = true → ∃ statements,
      ns.form? w.body = some (.block statements)) (fun _ h => Bound.block_of_wrap h) hw,
    fun hg => ?_, ⟨statements, comments, hnodes ▸ hform⟩, fun hs => ?_⟩
  · refine (hrecords.fresh (Names.fresh_of_taken b'.identifiers)).notMem hname ?_
    rw [(Bound.KnowsNoMore.wrapAll hwraps).identifiers, hidents]
    rcases hknown with ⟨ident, hident⟩ | hglobal | ⟨_, _, hform', hlisted⟩
    · exact .inl ⟨ident, hnodes ▸ hident⟩
    · exact .inr (.inl hglobal)
    · rw [hnodes] at hform'
      cases hform.symm.trans hform'
      exact .inr (.inr hlisted)
  · rw [hrecords.declared, hempty, hsize, ← hrecords.toKeeps.hoists_iff,
      ← hrecords.toKeeps.flags_iff, hrecords.wraps, or_iff_right List.not_mem_nil]
    rfl
  · refine hrecords.valued fun k => ?_
    rw [hempty]
    simp [Exits.Valued]
  · exact Lowering.finish_inserts hn Array.size_replicate hempty rfl rfl hfinish
  · rw [hnodes] at hg ⊢
    obtain ⟨p, u, hu, -⟩ := located_of_get? hg
    exact inside_of_located (.here _ _ _) hu
  · rw [hrecords.toKeeps.bound] at hs
    have hlisted : _ ∈ b.references := hext.references ▸ hs
    exact hnodes ▸ isReference_of_bind hbind hlisted

end LoopClosure
