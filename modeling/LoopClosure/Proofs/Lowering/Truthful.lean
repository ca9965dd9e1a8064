import LoopClosure.Proofs.Binding.Duplicates
import LoopClosure.Proofs.Lowering.Exposed
import LoopClosure.Proofs.Lowering.Faithful

/-!
# References after a lowering

In a lowered unit each reference finds the scope that it resolves to, and a reference in a wrapped
body to what the head of the loop binds resolves to the parameter of the function (`lower_resolves`).
This is so if the wrapped bodies with scopes of their own are blocks. The body of a loop may itself
be a loop whose head binds names. It gets the scope of the function below its own, and when it is
wrapped in turn the references to its names are looked for in the wrong scope
(`lookup?_loopWithoutBlock`).

Bound units are faithful to begin with (`bind_faithful`), wraps keep that, and what `finish` declares
comes on no way from a reference to its binding.
-/

namespace LoopClosure

open Syntax Syntax.Nodes Scopes Binding

/-! ## Bound units -/

section Binds

variable {u : CompilationUnit} {b : Bound}

theorem Binding.Layout.headsDeclared {globals : List String}
    (h : Layout u globals b.scopes b.nodeScopes (sites u)) (hu : b.unit = u)
    (hns : u.nodes.WellFormed) (ho : b.HeadersOpen) : b.HeadsDeclared := by
  subst hu
  intro loop name hname
  obtain ⟨each, left, right, body, keyword, ds, hloop, hleft, hk, d, hd, target, init, ht, ident,
    hident, hid⟩ := exists_of_mem_headerNames hname
  have hlexical : isLexical b.unit left = true := by
    rw [isLexical, show b.unit.nodes.form? left = _ from hleft]
    exact decide_eq_true hk
  have hopens : opens b.unit loop = true := by
    rw [opens, show b.unit.nodes.form? loop = _ from hloop]
    exact hlexical
  obtain ⟨head, -, hnode⟩ := ho hloop hlexical
  refine ⟨hopens, head, hnode, ?_⟩
  rw [h.isSome_declaration? hnode, List.find?_isSome]
  have hkind : (bindingKind keyword).isHoisted = false := by
    cases keyword <;> first | rfl | exact absurd rfl hk
  refine ⟨⟨bindingKind keyword, name, ident, loop⟩, mem_sites.2 ⟨left, _, hleft, .inl ?_⟩,
    Site.isAt_iff.2 ⟨rfl, ?_⟩⟩
  · refine List.mem_flatMap.2 ⟨d, hd, ?_⟩
    rw [declaratorSites, show b.unit.nodes.form? d = _ from ht,
      parent?_of_form? hns hloop (by simp [Form.children])]
    exact mem_sitesOf.2 ⟨rfl, rfl, hident, hid⟩
  · rw [Site.home?, hkind]
    exact opener?_of_opens hopens

/-- What stands in the scope of the globals has no parent. -/
theorem Binding.Layout.parent?_of_standing {globals : List String} {s : Scopes}
    {table : Array ScopeId} {done : List Site} (h : Layout u globals s table done)
    (hns : u.nodes.WellFormed) (hroot : u.nodes.Rooted) {x : ScopeId} {n : NodeId}
    (hn : s.node? (some x) = some n) (htop : standing u table n = topScope) :
    u.nodes.parent? n = none := by
  cases hp : u.nodes.parent? n with
  | none => rfl
  | some p =>
    have hp' := standing_of_parent hns (h.node hn).1 hp
    obtain ⟨form, hform⟩ := h.exists_form hp'
    obtain ⟨m, hm⟩ := exists_opener hns hroot hform
    have hnode := (h.opener hp').trans hm
    rw [htop, h.top.1] at hnode
    cases hnode

/-- The scope of the program is that of a node without parent. -/
theorem Binding.Layout.parent?_program {globals : List String} {s : Scopes} {table : Array ScopeId}
    {done : List Site} (h : Layout u globals s table done) (hns : u.nodes.WellFormed)
    (hroot : u.nodes.Rooted) {n : NodeId} (hn : s.node? (some programScope) = some n) :
    u.nodes.parent? n = none :=
  h.parent?_of_standing hns hroot hn (Nat.lt_one_iff.1 (h.grown.parent_lt (h.parent hn)))

theorem bind_faithful (hns : u.nodes.WellFormed) (hroot : u.nodes.Rooted) (hb : bind u = .ok b) :
    b.Faithful [] := by
  have hlayout := bind_layout hns hroot hb
  have hu : b.unit = u := bind_unit hb
  obtain ⟨hwell, hopen⟩ := bind_wellScoped hb
  refine ⟨hwell, ⟨(bind_charted hns hb).mapped.regions, hlayout.grown.listed, fun {i x} hi => ?_,
    fun hn => (hlayout.node hn).1, fun hn => .inl (hu ▸ (hlayout.node hn).2), fun {x} hx => ?_⟩,
    bind_traced hns hroot hb, hlayout.headsDeclared hu hns hopen⟩
  · obtain ⟨form, hform⟩ := hlayout.exists_form hi
    obtain ⟨m, hm⟩ := Layout.exists_opener hns hroot hform
    exact ⟨m, (hlayout.opener hi).trans hm⟩
  · rw [hlayout.grown.unwrapped] at hx
    cases hx

end Binds

/-! ## Lowerings -/

section Lowers

variable {b b₁ : Bound} {wraps : Array Wrap} {l : Lowering} {w : Wrap} {ident : NodeId}
  {r : Resolution} {name : String}

namespace Bound

theorem Charted.hands (hc : b.Charted) (hf : b.Faithful []) : b.Hands b #[] where
  tracks := .refl hf.wellScoped
  leaves := .refl hc
  made w hw := by simp at hw
  faithful := hf
  blocks w hw := by simp at hw
  scopes w hw := by simp at hw
  moved ident := .inl rfl

/-- References in a wrapped body to what the head of the loop binds resolve to the parameters. -/
theorem Hands.of_head (hi : b.Hands b₁ wraps) (hns : b.nodes.WellFormed) (hc : b.Charted)
    (hwraps : WrapsOf b.nodes wraps) (hw : w ∈ wraps) (hin : b.nodes.Inside w.body ident)
    (hr : b.resolution? ident = some r) (hloop : b.scopes.node? (some r.scope) = some w.loop)
    (hname : b.nodes.identifier? ident = some name) (hhead : name ∈ b.nodes.headerNames w.loop) :
    name ∈ w.params ∧ b₁.resolution? ident = some { r with scope := w.scope } := by
  have hmade := hi.made w hw
  obtain ⟨form, hf, hbody⟩ := hmade.loop
  have hout : ¬b.nodes.Inside w.body w.loop := fun h => Nat.not_le_of_lt
    (hns.parent_lt (parent?_of_form? hns hf (Form.mem_children_of_loopBody? hbody))) (h.le hns)
  obtain ⟨-, -, other, x, hother, hx, hfinds⟩ := hc.found hr
  obtain rfl : other = name := Option.some.inj (hother.symm.trans hname)
  have hparam : other ∈ w.params := by
    refine (hmade.params other hhead).resolve_right ?_
    rintro ⟨z, ⟨-, hz, hnode⟩, hsome⟩
    rw [hc.mapped.regions.isSome_eq_false hz hnode hin hx hfinds hloop hout] at hsome
    cases hsome
  refine ⟨hparam, ?_⟩
  rcases hi.moved ident with hsame | ⟨r', v, hr', hv, hvloop, hmoved⟩
  · -- A reference that still finds the head would find the parameter first.
    obtain ⟨hnode, hparams⟩ := hi.scopes w hw
    obtain ⟨d, hd, -⟩ := hparams other hparam
    have hext := hi.tracks.toExtends
    obtain ⟨name', y, hname', hy, -, hleads⟩ := hi.faithful.traced ident r (hsame.trans hr)
    rw [hext.nodes, hname, Option.some.injEq] at hname'
    subst hname'
    have hfollows := hi.faithful.follows
    have hnone := hfollows.regions.isSome_eq_false (hfollows.placed hnode) hnode
      (hext.unit ▸ hin) hy hleads.finds ((hext.scopes.node? hfinds.lt_size).trans hloop)
      (hext.unit ▸ hout)
    rw [hd] at hnone
    cases hnone
  · rw [hr, Option.some.injEq] at hr'
    subst hr'
    have hsame : v.loop = w.loop := Option.some.inj (hvloop.symm.trans hloop)
    obtain ⟨i, hvi⟩ := Array.mem_iff_getElem?.1 hv
    obtain ⟨j, hwj⟩ := Array.mem_iff_getElem?.1 hw
    obtain rfl := hwraps.unique hvi hwj hsame
    rw [hvi, Option.some.injEq] at hwj
    exact hwj ▸ hmoved

/-- The scope of the program stays that of a node without parent. -/
theorem Hands.parent?_program (hi : b.Hands b₁ wraps) (ht : b.Total) (hf : b.Faithful [])
    (hprogram : ∀ n, b.scopes.node? (some programScope) = some n → b.nodes.parent? n = none)
    (n : NodeId) (hn : b₁.scopes.node? (some programScope) = some n) :
    b₁.nodes.parent? n = none := by
  have hext := hi.tracks.toExtends
  rw [hext.nodes]
  cases hp : b.nodes.parent? n with
  | none => rfl
  | some p =>
    obtain ⟨m, hm⟩ := exists_get?_of_parent?_eq_some hp
    obtain ⟨y, hy⟩ := ht n (Array.getElem?_eq_some_iff.1 hm).1
    obtain ⟨o, ho⟩ := hf.follows.opened hy
    -- Some scope is that of a node, so there are more than the topmost one.
    have hpos : 0 < y := by
      refine Nat.pos_of_ne_zero fun hzero => ?_
      rw [hzero] at ho
      cases hf.follows.regions.top.symm.trans ho
    have hlt : programScope < b.scopes.size :=
      Nat.lt_of_le_of_lt hpos (hf.wellScoped.nodeScope_lt hy)
    rw [hext.scopes.node? hlt] at hn
    exact (hp.symm.trans (hprogram n hn))

end Bound

/-- After a lowering each reference finds the scope that it resolves to, and references in wrapped
bodies to what the head of the loop binds resolve to the parameters, if the wrapped bodies that open
a scope of their own are blocks. -/
theorem lower_resolves {u : CompilationUnit} {t : Tree} {out : Lowered}
    (hparse : Grammar.parse u.source = .ok t) (hnodes : u.nodes = .ofTree t)
    (hb : bind u = .ok b) (hwraps : b.wrapLoops = .ok (b₁, wraps)) (hout : lower b = .ok out)
    (hblocks : b.OpensBlocksOnly wraps) (hwalk : out.bound.Uncut) :
    (∀ ident r name, out.bound.resolution? ident = some r →
      out.bound.nodes.identifier? ident = some name →
      out.bound.scopes.lookup? (out.bound.nodeScope? ident) name = some r.scope) ∧
    ∀ w ∈ wraps, ∀ ident r name, b.nodes.Inside w.body ident → b.resolution? ident = some r →
      b.scopes.node? (some r.scope) = some w.loop → b.nodes.identifier? ident = some name →
      name ∈ b.nodes.headerNames w.loop →
      name ∈ w.params ∧ out.bound.resolution? ident = some { r with scope := w.scope } ∧
        ∃ d, out.bound.scopes.declaration? (some w.scope) name = some d ∧ d.kind = .param := by
  have hns : u.nodes.WellFormed :=
    hnodes ▸ Nodes.wellFormed_ofTree (Grammar.parse_wellFormed hparse)
  have hroot : u.nodes.Rooted := hnodes ▸ Grammar.parse_rooted hparse
  have hc := bind_charted hns hb
  have hf := bind_faithful hns hroot hb
  have ht := bind_total hb
  obtain ⟨-, hopen⟩ := bind_wellScoped hb
  have hprogram := fun n => (bind_layout hns hroot hb).parent?_program hns hroot (n := n)
  obtain rfl := bind_unit hb
  have hi := (hc.hands hf).wrapAll hns hc ht hopen hwraps hblocks
  have hnodes₁ : b₁.nodes = b.nodes := hi.tracks.toExtends.nodes
  have hwrapsOf := Bound.wrapAll_wrapsOf hf.wellScoped (.empty _) hwraps
  obtain ⟨l, hl, -, -, -, hbound⟩ := lower_eq_ok.1 hout
  obtain ⟨⟨b₂, wraps₂⟩, hwraps₂, hfinish⟩ := bind_eq_ok.1 hl
  cases hwraps.symm.trans hwraps₂
  have hnested := Lowering.nested_ofWraps (hnodes₁ ▸ hns) (hnodes₁ ▸ hwrapsOf)
  have hspares := Lowering.finish_spares (Lowering.open_ofWraps hi.faithful.follows hnested
    (hi.parent?_program ht hf hprogram)) hfinish
  rw [hbound] at hwalk ⊢
  have hresolution (ident : NodeId) : l.bound.resolution? ident = b₁.resolution? ident := by
    rw [hspares.bound]
    rfl
  refine ⟨fun ident r name hr hname => ?_, fun w hw ident r name hin hr hloop hname hhead => ?_⟩
  · rw [hresolution] at hr
    obtain ⟨name', x, hname', hx, -, hleads⟩ := hi.faithful.traced ident r hr
    have hx' : l.bound.nodeScope? ident = some x := by
      rw [hspares.bound]
      exact hx
    have hsame : l.bound.nodes = b₁.nodes := hspares.nodes
    rw [hsame, hname', Option.some.injEq] at hname
    subst hname
    rw [hx']
    exact lookup?_of_finds (hspares.leads hleads).finds (hwalk x (Array.mem_of_getElem? hx'))
  · obtain ⟨hparam, hmoved⟩ := hi.of_head hns hc hwrapsOf hw hin hr hloop hname hhead
    obtain ⟨d, hd, hk⟩ := (hi.scopes w hw).2 name hparam
    exact ⟨hparam, (hresolution ident).trans hmoved, d, hspares.scopes.kept hd, hk⟩

/-- Both bodies are blocks. -/
def loopWithBlock : List Char :=
  "for (const x of xs) \x7b for (const y of ys) \x7b f(() => x + y); \x7d \x7d".toList

theorem lower_resolves_loopWithBlock : ∃ t b b₁ wraps out, Grammar.parse loopWithBlock = .ok t ∧
    bind ⟨"", loopWithBlock, .ofTree t, {}⟩ = .ok b ∧ b.wrapLoops = .ok (b₁, wraps) ∧
    lower b = .ok out ∧ out.bound.scopes.lookup? (out.bound.nodeScope? 19) "y" = some 5 ∧
    ∃ w ∈ wraps, "x" ∈ w.params ∧ ∃ r, b.resolution? 18 = some r ∧ r.scope ≠ w.scope ∧
      out.bound.resolution? 18 = some { r with scope := w.scope } := by
  have hrun : okAnd (Grammar.parse loopWithBlock) (fun t =>
      okAnd (bind ⟨"", loopWithBlock, .ofTree t, {}⟩) fun b =>
        okAnd b.wrapLoops fun wrapped => okAnd (lower b) fun out =>
          decide (b.OpensBlocksOnly wrapped.2 ∧ out.bound.Uncut ∧
            (out.bound.resolution? 19).map (·.scope) = some 5 ∧
            out.bound.nodes.identifier? 19 = some "y" ∧ wrapped.2[0]? = some ⟨1, 6, true, ["x"], 3⟩ ∧
            18 < b.nodes.size ∧ 18 ∈ b.nodes.subtree 6 ∧
            b.resolution? 18 = some ⟨2, some 4, true⟩ ∧
            b.scopes.node? (some 2) = some 1 ∧ b.nodes.identifier? 18 = some "x" ∧
            "x" ∈ b.nodes.headerNames 1)) = true := by
    decide +kernel
  obtain ⟨t, hparse, hrun⟩ := okAnd_iff.1 hrun
  obtain ⟨b, hb, hrun⟩ := okAnd_iff.1 hrun
  obtain ⟨⟨b₁, wraps⟩, hwraps, hrun⟩ := okAnd_iff.1 hrun
  obtain ⟨out, hout, hrun⟩ := okAnd_iff.1 hrun
  obtain ⟨hblocks, hwalk, hy, hyname, hw, hlt, hin, hr, hloop, hname, hhead⟩ :=
    of_decide_eq_true hrun
  obtain ⟨ry, hry, hscope⟩ := Option.map_eq_some_iff.1 hy
  obtain ⟨hfinds, hmoves⟩ := lower_resolves (u := ⟨"", loopWithBlock, .ofTree t, {}⟩) hparse rfl hb
    hwraps hout hblocks hwalk
  have hmem := Array.mem_of_getElem? hw
  have hinside := (mem_subtree_iff (nodes_of_bind hparse hb).2 hlt).1 hin
  obtain ⟨hparam, hmoved, -⟩ := hmoves _ hmem 18 _ "x" hinside hr hloop hname hhead
  exact ⟨t, b, b₁, wraps, out, hparse, hb, hwraps, hout,
    (hfinds 19 ry "y" hry hyname).trans (congrArg some hscope), _, hmem, hparam, _, hr, by decide,
    hmoved⟩

/-- The body of the outer loop is a loop, which has a scope of its own. -/
def loopWithoutBlock : List Char :=
  "for (const x of xs) for (const y of ys) \x7b f(() => x + y); \x7d".toList

theorem lookup?_loopWithoutBlock : ∃ t b out r, Grammar.parse loopWithoutBlock = .ok t ∧
    bind ⟨"", loopWithoutBlock, .ofTree t, {}⟩ = .ok b ∧ lower b = .ok out ∧ out.bound.Uncut ∧
    out.bound.resolution? 18 = some r ∧ out.bound.nodes.identifier? 18 = some "y" ∧
    out.bound.scopes.lookup? (out.bound.nodeScope? 18) "y" ≠ some r.scope := by
  have hrun : okAnd (Grammar.parse loopWithoutBlock) (fun t =>
      okAnd (bind ⟨"", loopWithoutBlock, .ofTree t, {}⟩) fun b => okAnd (lower b) fun out =>
        decide (out.bound.Uncut ∧ out.bound.resolution? 18 = some ⟨3, some 9, true⟩ ∧
          out.bound.nodes.identifier? 18 = some "y" ∧
          out.bound.scopes.lookup? (out.bound.nodeScope? 18) "y" ≠ some 3)) = true := by
    decide +kernel
  obtain ⟨t, hparse, hrun⟩ := okAnd_iff.1 hrun
  obtain ⟨b, hb, hrun⟩ := okAnd_iff.1 hrun
  obtain ⟨out, hout, hrun⟩ := okAnd_iff.1 hrun
  obtain ⟨hwalk, hr, hname, hlookup⟩ := of_decide_eq_true hrun
  exact ⟨t, b, out, _, hparse, hb, hout, hwalk, hr, hname, hlookup⟩

end Lowers

end LoopClosure
