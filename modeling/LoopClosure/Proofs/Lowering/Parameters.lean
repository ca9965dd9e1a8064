import LoopClosure.Proofs.Binding.Regions
import LoopClosure.Proofs.Lowering.Outcome
import LoopClosure.Proofs.Scope.Moves

/-!
# Parameters of wraps

A wrap declares the names of the head of its loop as parameters, except those that the body declares
itself. What the body declares is known from the binding (`Leaves.wrap`), since no other wrap touches
the scope of a block.

- `Bound.ChangesAt scope b b'`: the declarations of `scope` differ, and what references resolve to.
- `Bound.Leaves b₀ b bodies`: what wraps of the bodies `bodies` have left of `b₀`.
-/

namespace LoopClosure

open Syntax Syntax.Nodes Scopes Binding

namespace Syntax.Nodes

theorem foldr_subtreeBefore {ns : Nodes} {depth : Nat}
    (h : ∀ id behind, ns.subtreeBefore depth id behind = ns.subtreeWithin depth id ++ behind)
    (ids behind : List NodeId) : ids.foldr (ns.subtreeBefore depth) behind =
      ids.flatMap (ns.subtreeWithin depth) ++ behind := by
  induction ids with
  | nil => rfl
  | cons id ids ih => rw [List.foldr_cons, ih, h, List.flatMap_cons, List.append_assoc]

theorem subtreeBefore_eq (ns : Nodes) (depth : Nat) (id : NodeId) (behind : List NodeId) :
    ns.subtreeBefore depth id behind = ns.subtreeWithin depth id ++ behind := by
  induction depth generalizing id behind with
  | zero => rfl
  | succ depth ih =>
    rw [subtreeWithin, subtreeBefore, subtreeBefore, foldr_subtreeBefore ih,
      foldr_subtreeBefore ih, List.append_nil, List.cons_append]

theorem subtreeWithin_succ (ns : Nodes) (depth : Nat) (id : NodeId) :
    ns.subtreeWithin (depth + 1) id = id :: (ns.children id).flatMap (ns.subtreeWithin depth) := by
  rw [subtreeWithin, subtreeBefore, foldr_subtreeBefore (ns.subtreeBefore_eq depth),
    List.append_nil]

theorem inside_of_mem_subtreeWithin {ns : Nodes} (hns : ns.WellFormed) {depth : Nat}
    {id i : NodeId} (h : i ∈ ns.subtreeWithin depth id) : ns.Inside id i := by
  induction depth generalizing id with
  | zero => cases h
  | succ depth ih =>
    rw [subtreeWithin_succ] at h
    rcases List.mem_cons.1 h with rfl | h
    · exact .refl
    · obtain ⟨c, hc, h⟩ := List.mem_flatMap.1 h
      exact (Inside.of_parent (hns.parent_iff.2 hc)).trans (ih h)

theorem mem_subtreeWithin_of_parent {ns : Nodes} {depth : Nat} {id p c : NodeId}
    (hp : p ∈ ns.subtreeWithin depth id) (hc : c ∈ ns.children p) :
    c ∈ ns.subtreeWithin (depth + 1) id := by
  induction depth generalizing id with
  | zero => cases hp
  | succ depth ih =>
    rw [subtreeWithin_succ] at hp ⊢
    refine List.mem_cons_of_mem _ (List.mem_flatMap.2 ?_)
    rcases List.mem_cons.1 hp with rfl | hp
    · exact ⟨c, hc, by simp [subtreeWithin_succ]⟩
    · obtain ⟨d, hd, hp⟩ := List.mem_flatMap.1 hp
      exact ⟨d, hd, ih hp⟩

theorem mem_subtreeWithin_of_inside {ns : Nodes} (hns : ns.WellFormed) {depth : Nat}
    {id i : NodeId} (h : ns.Inside id i) (hlt : i < id + depth) : i ∈ ns.subtreeWithin depth id := by
  induction h generalizing depth with
  | refl =>
    cases depth with
    | zero => exact absurd hlt (Nat.lt_irrefl _)
    | succ depth =>
      rw [subtreeWithin_succ]
      exact List.mem_cons_self
  | @up i p hp h ih =>
    have hpi := hns.parent_lt hp
    have hidp := h.le hns
    cases depth with
    | zero => exact absurd (Nat.lt_of_le_of_lt hidp hpi) (Nat.not_lt_of_lt hlt)
    | succ depth =>
      exact mem_subtreeWithin_of_parent
        (ih (Nat.lt_of_lt_of_le hpi (Nat.le_of_lt_succ hlt))) (hns.parent_iff.1 hp)

/-- The subtree of a node holds what lies inside the node. -/
theorem mem_subtree_iff {ns : Nodes} (hns : ns.WellFormed) {id i : NodeId} (hi : i < ns.size) :
    i ∈ ns.subtree id ↔ ns.Inside id i :=
  ⟨inside_of_mem_subtreeWithin hns, fun h => mem_subtreeWithin_of_inside hns h
    (Nat.lt_of_lt_of_le hi (Nat.le_add_left _ _))⟩

end Syntax.Nodes

namespace Bound

variable {b b' b'' b₀ : Bound} {scope : ScopeId} {body : NodeId} {bodies : List NodeId}

/-! ## Declaring parameters -/

/-- Of the program only the declarations of one scope differ, uses, and what references resolve
to. -/
structure ChangesAt (scope : ScopeId) (b b' : Bound) : Prop where
  unit : b'.unit = b.unit
  nodeScopes : b'.nodeScopes = b.nodeScopes
  node? : ∀ id, b'.scopes.node? id = b.scopes.node? id
  kind? : ∀ id, b'.scopes.kind? id = b.scopes.kind? id
  declaration? : ∀ {x : ScopeId} (name : String), x ≠ scope →
    b'.scopes.declaration? x name = b.scopes.declaration? x name

namespace ChangesAt

theorem refl (b : Bound) : ChangesAt scope b b :=
  ⟨rfl, rfl, fun _ => rfl, fun _ => rfl, fun _ _ => rfl⟩

theorem trans (h : ChangesAt scope b b') (h' : ChangesAt scope b' b'') : ChangesAt scope b b'' where
  unit := h'.unit.trans h.unit
  nodeScopes := h'.nodeScopes.trans h.nodeScopes
  node? id := (h'.node? id).trans (h.node? id)
  kind? id := (h'.kind? id).trans (h.kind? id)
  declaration? name hx := (h'.declaration? name hx).trans (h.declaration? name hx)

theorem of_onlyUses (hu : b'.unit = b.unit) (hn : b'.nodeScopes = b.nodeScopes)
    (h : OnlyUses b.scopes b'.scopes) : ChangesAt scope b b' :=
  ⟨hu, hn, h.sameShape.node?, h.kind?, fun _ _ => h.declaration? _ _⟩

theorem declare (b : Bound) (scope : ScopeId) (name : String) (d : Declaration) :
    ChangesAt scope b (b.withScopes (b.scopes.update scope (·.append name d))) where
  unit := rfl
  nodeScopes := rfl
  node? id := bind_view_update (f := (·.append name d)) (·.node) (fun _ => rfl) _ id
  kind? id := view_update (f := (·.append name d)) (·.kind) (fun _ => rfl) _ id
  declaration? other hx := by
    rw [Scopes.declaration?, withScopes, get?_update_of_ne fun e => hx (Option.some.inj e).symm]
    rfl

end ChangesAt

theorem retargetUses_onlyUses (b : Bound) (header : Option ScopeId) (scope : ScopeId)
    (body : NodeId) (name : String) (idents : List NodeId) :
    let b' := idents.foldl
      (fun b ident =>
        if b.nodes.contains body ident then
          (b.retarget ident scope).withScopes (b.scopes.addReference scope name ident)
        else b.withScopes (b.scopes.addReference header name ident)) b
    b'.unit = b.unit ∧ b'.nodeScopes = b.nodeScopes ∧ OnlyUses b.scopes b'.scopes := by
  intro b'
  induction idents generalizing b with
  | nil => exact ⟨rfl, rfl, .refl _⟩
  | cons ident idents ih =>
    dsimp only [b']
    rw [List.foldl_cons]
    split
    · obtain ⟨hu, hn, hs⟩ := ih ((b.retarget ident scope).withScopes
        (b.scopes.addReference scope name ident))
      exact ⟨hu, hn, .trans (.addReference b.scopes scope name ident) hs⟩
    · obtain ⟨hu, hn, hs⟩ := ih (b.withScopes (b.scopes.addReference header name ident))
      exact ⟨hu, hn, .trans (.addReference b.scopes header name ident) hs⟩

theorem retargetHeader_onlyUses (b : Bound) (header : Option ScopeId) (scope : ScopeId)
    (body : NodeId) (name : String) :
    let b' := b.retargetHeader header scope body name
    b'.unit = b.unit ∧ b'.nodeScopes = b.nodeScopes ∧ OnlyUses b.scopes b'.scopes := by
  obtain ⟨hu, hn, hs⟩ := retargetUses_onlyUses
    (b.withScopes (b.scopes.takeReferences header name).1) header scope body name
    (b.scopes.usesOf header name)
  exact ⟨hu, hn, .trans (.takeReferences _ _ _) hs⟩

/-- Each name becomes a parameter, unless the scope has it already. -/
theorem addParams_changesAt {header : Option ScopeId} {names params : List String}
    (hk : b.scopes.kind? scope = some .hoist)
    (h : addParams header scope body b names = .ok (b', params)) : ChangesAt scope b b' ∧
      ∀ name ∈ names, name ∈ params ∨ (b.scopes.declaration? scope name).isSome = true := by
  induction names generalizing b b' params with
  | nil =>
    cases h
    exact ⟨.refl b, fun _ hn => by cases hn⟩
  | cons name names ih =>
    unfold addParams at h
    split at h
    · next hdeclared =>
      obtain ⟨hc, hnames⟩ := ih hk h
      refine ⟨hc, fun other hother => ?_⟩
      rcases List.mem_cons.1 hother with rfl | hother
      · exact .inr ((declares_eq _ _ _).symm.trans hdeclared)
      · exact hnames other hother
    · next hnot =>
      have hn := not_declares_iff.1 hnot
      rw [declare_param hk hn] at h
      obtain ⟨⟨b₁, params₁⟩, hrest, h⟩ := bind_eq_ok.1 h
      cases h
      let d : Declaration := { kind := .param, node := none, fromPos := none }
      let declared := b.withScopes (b.scopes.update scope (·.append name d))
      obtain ⟨hu, hs, huses⟩ := retargetHeader_onlyUses declared header scope body name
      have hdeclared : ChangesAt scope b (declared.retargetHeader header scope body name) :=
        .trans (.declare b scope name d) (.of_onlyUses hu hs huses)
      obtain ⟨hc, hnames⟩ := ih ((hdeclared.kind? _).trans hk) hrest
      refine ⟨hdeclared.trans hc, fun other hother => ?_⟩
      rcases List.mem_cons.1 hother with rfl | hother
      · exact .inl List.mem_cons_self
      rcases hnames other hother with hmem | hsome
      · exact .inl (List.mem_cons_of_mem _ hmem)
      · rw [huses.declaration?] at hsome
        obtain ⟨e, he⟩ := Option.isSome_iff_exists.1 hsome
        rcases declaration?_update_append he with hold | ⟨-, rfl, -⟩
        · exact .inr (Option.isSome_iff_exists.2 ⟨e, hold⟩)
        · exact .inl List.mem_cons_self

/-! ## What wraps leave -/

/-- A block with a scope of its own. -/
def BlockScope (b : Bound) (block : NodeId) (scope : ScopeId) : Prop :=
  (∃ statements, b.nodes.form? block = some (.block statements)) ∧
    b.nodeScope? block = some scope ∧ b.scopes.node? scope = some block

/-- `b` comes from `b₀` by wrapping `bodies`: nodes are in scopes around them, blocks keep their
scopes, and these their declarations, unless the blocks are wrapped bodies. -/
structure Leaves (b₀ b : Bound) (bodies : List NodeId) : Prop where
  unit : b.unit = b₀.unit
  around : ∀ {i n : NodeId} {x : ScopeId}, b.nodeScope? i = some x → b.scopes.node? x = some n →
    b.nodes.Inside n i
  block : ∀ {block : NodeId} {z : ScopeId}, b₀.BlockScope block z →
    b.nodeScope? block = some z ∧ b.scopes.node? z = some block
  declared : ∀ {block : NodeId} {z : ScopeId}, b₀.BlockScope block z → block ∉ bodies →
    ∀ name, b.scopes.declaration? z name = b₀.scopes.declaration? z name

namespace Leaves

theorem refl (hc : b.Charted) : Leaves b b [] :=
  ⟨rfl, fun hi hn => hc.mapped.regions.around hi hn, fun h => h.2, fun _ _ _ => rfl⟩

theorem nodes (h : Leaves b₀ b bodies) : b.nodes = b₀.nodes := congrArg CompilationUnit.nodes h.unit

/-- Declarations in a scope that is that of no other block. -/
theorem changesAt (h : Leaves b₀ b bodies) (hc : ChangesAt scope b b')
    (hscope : ∀ block, b₀.BlockScope block scope → block = body) :
    Leaves b₀ b' (bodies ++ [body]) where
  unit := hc.unit.trans h.unit
  around {i n x} hi hn := by
    rw [nodeScope?, hc.nodeScopes] at hi
    rw [Bound.nodes, hc.unit]
    exact h.around hi ((hc.node? _).symm.trans hn)
  block hb := by
    obtain ⟨hi, hn⟩ := h.block hb
    rw [nodeScope?, hc.nodeScopes, hc.node?]
    exact ⟨hi, hn⟩
  declared {block z} hb hnot name := by
    rw [List.mem_append, List.mem_singleton, not_or] at hnot
    have hz : z ≠ scope := by
      rintro rfl
      exact hnot.2 (hscope block hb)
    exact (hc.declaration? name hz).trans (h.declared hb hnot.1 name)

theorem openBlock (h : Leaves b₀ b bodies) (scope : ScopeId) : Leaves b₀ (b.withScopes
    ((b.scopes.setKind scope .hoist).addFlags scope { loopWrapper := true })) bodies := by
  have hshape := openBlock_sameShape b scope
  refine ⟨h.unit, fun hi hn => h.around hi ((hshape.node? _).symm.trans hn), fun hb => ?_,
    fun hb hnot name => ?_⟩
  · obtain ⟨hi, hn⟩ := h.block hb
    exact ⟨hi, (hshape.node? _).trans hn⟩
  · refine .trans ?_ (h.declared hb hnot name)
    refine (declaration?_addFlags _ _ _ _ _).trans ?_
    exact declaration?_update (f := fun c => { c with kind := .hoist }) (fun _ => rfl) _ _

/-- The new scope of a single statement comes between the scope around and what lies in the
statement, among which there is no block in the scope around. -/
theorem splitBody (hns : b₀.nodes.WellFormed) (hb : b.WellScoped) (h : Leaves b₀ b bodies)
    {outer : ScopeId} (houter : b.nodeScope? body = some outer)
    (hbody : ∀ statements, b₀.nodes.form? body ≠ some (.block statements)) :
    Leaves b₀ (b.splitBody body outer).1 bodies := by
  have hlt : outer < b.scopes.size := hb.nodeScope_lt houter
  have hnode (id : ScopeId) : (b.splitBody body outer).1.scopes.node? (some id) = _ :=
    node?_splitBody hlt id
  have hinside {i : NodeId} (hi : i ∈ b.nodes.subtree body) : b.nodes.Inside body i :=
    inside_of_mem_subtreeWithin (h.nodes ▸ hns) hi
  refine ⟨h.unit, fun {i n x} hi hn => ?_, fun {block z} hz => ?_, fun {block z} hz hnot name => ?_⟩
  · rw [hnode] at hn
    rw [nodeScope?_splitBody] at hi
    split at hi
    · next hmem =>
      obtain rfl := Option.some.inj hi
      rw [if_pos rfl, Option.some.injEq] at hn
      exact hn ▸ hinside hmem.1
    · rw [if_neg (Nat.ne_of_lt (hb.nodeScope_lt hi))] at hn
      exact h.around hi hn
  · obtain ⟨hi, hn⟩ := h.block hz
    refine ⟨?_, (hnode z).trans ((if_neg (Nat.ne_of_lt (hb.nodeScope_lt hi))).trans hn)⟩
    rw [nodeScope?_splitBody, if_neg, hi]
    rintro ⟨hmem, hold⟩
    obtain rfl := Option.some.inj (hi.symm.trans hold)
    have heq : block = body :=
      (h.around houter hn).antisymm (h.nodes ▸ hns) (hinside hmem)
    obtain ⟨⟨statements, hform⟩, -⟩ := hz
    exact hbody statements (heq ▸ hform)
  · exact (declaration?_splitBody hlt z name).trans (h.declared hz hnot name)

/-- Each name of the head becomes a parameter, unless the body is a block that declares it. -/
theorem wrap (hns : b₀.nodes.WellFormed) (hb : b.WellScoped) (h : Leaves b₀ b bodies)
    (hown : ∀ statements, b₀.nodes.form? body = some (.block statements) →
      ∃ z, b₀.BlockScope body z) (hnew : body ∉ bodies) {loop : NodeId} {w : Wrap}
    (hw : b.wrap loop body = .ok (b', w)) : Leaves b₀ b' (bodies ++ [body]) ∧
      ∀ name ∈ b₀.nodes.headerNames loop, name ∈ w.params ∨
        ∃ z, b₀.BlockScope body z ∧ (b₀.scopes.declaration? z name).isSome = true := by
  unfold Bound.wrap at hw
  split at hw
  · cases hw
  · next outer houter =>
    have hlt : outer < b.scopes.size := hb.nodeScope_lt houter
    dsimp only at hw
    generalize hblock : ((b.nodes.form? body).map (·.isBlock)).getD false = isBlock at hw
    obtain ⟨-, hext, hk, -⟩ := @openBody_spec b hb body outer isBlock hlt
    obtain ⟨⟨b₂, params⟩, hparams, hw⟩ := bind_eq_ok.1 hw
    cases hw
    obtain ⟨hchanges, hnames⟩ := addParams_changesAt hk hparams
    rw [hext.nodes, h.nodes] at hnames
    dsimp only
    cases isBlock with
    | true =>
      obtain ⟨statements, hform⟩ : ∃ statements, b₀.nodes.form? body = some (.block statements) :=
        h.nodes ▸ exists_block_of_isBlock hblock
      obtain ⟨z, hz⟩ := hown statements hform
      obtain ⟨hi, -⟩ := h.block hz
      obtain rfl := Option.some.inj (houter.symm.trans hi)
      refine ⟨(h.openBlock outer).changesAt hchanges fun block hother => ?_, fun name hname => ?_⟩
      · exact Option.some.inj (hother.2.2.symm.trans hz.2.2)
      · refine (hnames name hname).imp_right fun hsome => ⟨outer, hz, ?_⟩
        rwa [← (h.openBlock outer).declared hz hnew]
    | false =>
      have hbody (statements : List NodeId) : b₀.nodes.form? body ≠ some (.block statements) := by
        intro hform
        rw [← h.nodes] at hform
        simp [hform, Form.isBlock] at hblock
      refine ⟨(h.splitBody hns hb houter hbody).changesAt hchanges fun block hother => ?_,
        fun name hname => ?_⟩
      · have := hb.nodeScope_lt (h.block hother).1
        exact absurd this (Nat.lt_irrefl _)
      · refine .inl ((hnames name hname).resolve_right fun hsome => ?_)
        have hnone : (b.openBody body false outer).1.scopes.declaration?
          (some (b.openBody body false outer).2) name = none := declaration?_splitBody_new hlt name
        rw [hnone] at hsome
        cases hsome

end Leaves

end Bound

end LoopClosure
