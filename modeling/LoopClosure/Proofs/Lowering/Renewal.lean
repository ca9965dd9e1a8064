import LoopClosure.Proofs.Lowering.Outcome
import LoopClosure.Proofs.Lowering.Diagnosed
import LoopClosure.Proofs.Lowering.Parameters

/-!
# What wraps renew

A loop is wrapped on account of a closure over a binding that the loop makes anew. Either the wrap
renews the binding on each turn, since it is made in the body or handed to the function of the body
as a parameter, or the binding is the name of a class expression in the head of the loop, which the
wrap does nothing for (`Bound.IsHazard.made_in`). A loop with such hazards only is wrapped all the
same, so wraps renew bindings exactly if their loops have others (`wraps_renew_iff`).

- `Bound.Renews b w`: the wrap renews a binding that a closure in the body captures.
- `Bound.MadeFor b w`: what is known of a wrap, whatever was wrapped before it.
-/

namespace LoopClosure

open Syntax Syntax.Nodes Scopes Binding

namespace Syntax.Nodes

theorem EnclosingLoop.directly {ns : Nodes} {loop id : NodeId} (h : ns.EnclosingLoop loop id) :
    ns.Directly loop id := by
  induction h with
  | here => exact .refl
  | @up id p hpass hp _ ih =>
    obtain ⟨n, hn⟩ := exists_get?_of_parent?_eq_some hp
    have hf : ns.form? id = some n.form := by rw [form?, hn]; rfl
    exact .up hf (hpass n.form hf).1 hp ih

theorem mem_headerNames {ns : Nodes} {loop left right body d target ident : NodeId}
    {each : Iteration} {keyword : VarKeyword} {ds : List NodeId} {init : Option NodeId}
    {name : String} (hloop : ns.form? loop = some (.forEach each left right body))
    (hleft : ns.form? left = some (.bindings keyword ds)) (hk : keyword ≠ .var) (hd : d ∈ ds)
    (ht : ns.form? d = some (.declarator target init)) (hi : ident ∈ ns.bindingIds target)
    (hname : ns.identifier? ident = some name) : name ∈ ns.headerNames loop := by
  have hnames : name ∈ ns.bindingNames target := List.mem_filterMap.2 ⟨ident, hi, hname⟩
  unfold headerNames
  rw [hloop]
  dsimp only
  rw [hleft]
  cases keyword with
  | var => exact absurd rfl hk
  | let_ | const =>
    refine List.mem_flatMap.2 ⟨d, hd, ?_⟩
    rw [ht]
    exact hnames

end Syntax.Nodes

namespace Bound

variable {b b' b₀ : Bound} {h : Hazard} {body : NodeId} {form : Form NodeId}

/-- The binding of the hazard is declared inside a node. -/
def DeclaredIn (b : Bound) (h : Hazard) (outer : NodeId) : Prop :=
  ∃ d ident, b.scopes.declaration? h.scope h.name = some d ∧ d.node = some ident ∧
    b.nodes.Inside outer ident

/-- The binding of the hazard is declared by the head of its loop, a loop over a collection. -/
def DeclaredByHead (b : Bound) (h : Hazard) : Prop :=
  b.scopes.node? h.scope = some h.loop ∧ ∃ each left right body,
    b.nodes.form? h.loop = some (.forEach each left right body) ∧ b.DeclaredIn h left

/-- The binding of the hazard is the name of a class expression outside of the body. -/
def NamesHeadClass (b : Bound) (h : Hazard) (body : NodeId) : Prop :=
  ∃ d c ident heritage members, b.scopes.declaration? h.scope h.name = some d ∧
    d.node = some ident ∧ b.scopes.node? h.scope = some c ∧
      b.nodes.form? c = some (.classBody .expression (some ident) heritage members) ∧
        ¬b.nodes.Inside body c

/-- A closure in the body captures a binding of which each turn of the wrapped loop has its own. -/
def Renews (b : Bound) (w : Wrap) : Prop :=
  ∃ h, b.IsHazard h ∧ h.loop = w.loop ∧ b.nodes.Inside w.body h.ident ∧
    (b.DeclaredIn h w.body ∨ b.DeclaredByHead h ∧ h.name ∈ w.params)

/-! ## Where the binding of a hazard is made -/

/-- The reference lies inside the node that opens the scope of its binding. -/
theorem IsHazard.inside (hc : b.Charted) (hh : b.IsHazard h) {n : NodeId}
    (hn : b.scopes.node? h.scope = some n) : b.nodes.Inside n h.ident := by
  obtain ⟨r, hr, hscope⟩ := hh.resolves
  obtain ⟨-, -, name, x, -, hx, hf⟩ := hc.found hr
  obtain ⟨o, ho, hin⟩ := hc.mapped.regions.finds_inside (hscope ▸ hf) hn
  exact hin.trans (hc.mapped.regions.around hx ho)

/-- A reference in the range of the body lies inside the body. -/
theorem IsHazard.inside_body (hns : b.nodes.WellFormed) (hc : b.Charted) (hh : b.IsHazard h)
    (hf : b.nodes.form? h.loop = some form) (hbody : form.loopBody? = some body)
    (hin : b.nodes.contains body h.ident = true) : b.nodes.Inside body h.ident := by
  obtain ⟨n, hn, hloop⟩ := hh.loop
  obtain ⟨r, hr, -⟩ := hh.resolves
  obtain ⟨-, href, -⟩ := hc.found hr
  have hparent : b.nodes.parent? body = some h.loop :=
    parent?_of_form? hns hf (Form.mem_children_of_loopBody? hbody)
  have hne : h.loop ≠ h.ident := by
    intro heq
    rw [heq, identifier?_eq_some_iff.1 hh.named, Option.some.injEq] at hf
    subst hf
    cases hbody
  obtain ⟨p, hp⟩ := (hloop.directly.inside.trans (hh.inside hc hn)).exists_parent? hne
  refine inside_of_contains hns hin href ⟨h.name, hh.named⟩ (fun q key value role traits hq => ?_) hp
  rw [hparent, Option.some.injEq] at hq
  rw [← hq, hf, Ne, Option.some.injEq]
  rintro rfl
  cases hbody

theorem IsHazard.made_in (hns : b.nodes.WellFormed) (hc : b.Charted) (hh : b.IsHazard h)
    (hf : b.nodes.form? h.loop = some form) (hbody : form.loopBody? = some body)
    (hhead : b.isHeaderCapture h body = false) :
    b.nodes.Inside body h.ident ∧
        (b.DeclaredIn h body ∨ b.DeclaredByHead h ∧ h.name ∈ b.nodes.headerNames h.loop) ∨
      b.NamesHeadClass h body := by
  have hregions := hc.mapped.regions
  obtain ⟨d, hd, hk⟩ := hh.declared
  obtain ⟨n, hn, hloop⟩ := hh.loop
  obtain htop | ⟨ident, hnode, hname, hlet⟩ := hc.mapped.lets h.scope h.name d hd hk
  · rw [htop, hregions.top] at hn
    cases hn
  have hparent : b.nodes.parent? body = some h.loop :=
    parent?_of_form? hns hf (Form.mem_children_of_loopBody? hbody)
  have hln : b.nodes.Inside h.loop n := hloop.directly.inside
  -- What is declared in the scope of the loop is used in the body.
  have hown (heq : n = h.loop) : (∀ init test step body',
      form ≠ .forLoop init test step body') ∧ b.nodes.Inside body h.ident := by
    rw [isHeaderCapture, hn, heq, decide_eq_true rfl, Bool.true_and, hf, Bool.or_eq_false_iff,
      Bool.not_eq_false'] at hhead
    refine ⟨fun init test step body' hform => ?_, hh.inside_body hns hc hf hbody hhead.2⟩
    rw [hform] at hhead
    cases hhead.1
  rcases hregions.lexical hns hlet hn with
    ⟨i, f, p, own, hfi, hs, hp, hpx, hdir, hne, hident, hlex⟩ | ⟨heritage, members, hclass⟩
  · have hil : i ≠ h.loop := by
      rintro rfl
      exact hne (hdir.inside.antisymm hns hln).symm
    rcases (hloop.directly.trans hdir).statement hns hf hbody hil hfi hs with hin | ⟨hstart, hb⟩
    · left
      refine ⟨?_, .inl ⟨d, ident, hd, hnode, hin.trans hident⟩⟩
      by_cases heq : n = h.loop
      · exact (hown heq).2
      · rcases hdir.inside.comparable hin with hnb | hbn
        · by_cases hnbody : n = body
          · exact hnbody ▸ hh.inside hc hn
          · exact absurd ((hnb.parent hnbody hparent).antisymm hns hln) heq
        · exact hbn.trans (hh.inside hc hn)
    · left
      have hpl : p = h.loop := by
        have := parent?_of_form? hns hf (Form.mem_children_of_loopStart? hstart)
        exact Option.some.inj (hp.symm.trans this)
      have heq : n = h.loop :=
        (hregions.around (hpl ▸ hpx) hn).antisymm hns hln
      obtain ⟨hfor, hin⟩ := hown heq
      refine ⟨hin, .inr ?_⟩
      cases form with
      | forLoop => exact absurd rfl (hfor _ _ _ _)
      | forEach each left right body' =>
        obtain rfl : left = i := Option.some.inj hstart
        refine ⟨⟨heq ▸ hn, each, left, right, body', hf, d, ident, hd, hnode, hident⟩, ?_⟩
        generalize d.fromPos = fromPos at hlex
        cases hlex with
        | bindings hk hd ht hi => exact mem_headerNames hf hfi hk hd ht hi hname
        | declaration => cases hb
        | expression => cases hb
      | _ => cases hstart
  · by_cases hin : b.nodes.Inside body n
    · left
      have hchild : b.nodes.parent? ident = some n :=
        parent?_of_form? hns hclass List.mem_cons_self
      exact ⟨hin.trans (hh.inside hc hn), .inl ⟨d, ident, hd, hnode, .up hchild hin⟩⟩
    · exact .inr ⟨d, n, ident, heritage, members, hd, hnode, hn, hclass, hin⟩

/-! ## What wraps are made for -/

/-- A wrap is one of a loop with a hazard. Each name of the head is a parameter, unless the body is a
block that declares it. -/
structure MadeFor (b : Bound) (w : Wrap) : Prop where
  loop : ∃ form, b.nodes.form? w.loop = some form ∧ form.loopBody? = some w.body
  hazard : ∃ h, b.IsHazard h ∧ h.loop = w.loop ∧ b.Admits h
  params : ∀ name ∈ b.nodes.headerNames w.loop, name ∈ w.params ∨
    ∃ z, b.BlockScope w.body z ∧ (b.scopes.declaration? z name).isSome = true

theorem opensScope_body (hns : b.nodes.WellFormed) {loop : NodeId}
    (hf : b.nodes.form? loop = some form) (hbody : form.loopBody? = some body)
    (statements : List NodeId) : opensScope b.unit body (.block statements) = true := by
  have hparent : b.unit.nodes.parent? body = some loop :=
    parent?_of_form? hns hf (Form.mem_children_of_loopBody? hbody)
  have hform : b.unit.nodes.form? loop = some form := hf
  rw [opensScope, isFunctionBody, hparent, Option.bind_some, hform]
  cases form <;> first | rfl | cases hbody

/-- A block that is the body of a loop has a scope of its own. -/
theorem exists_blockScope (hns : b.nodes.WellFormed) (hc : b.Charted) (ht : b.Total)
    {loop : NodeId} {statements : List NodeId} (hf : b.nodes.form? loop = some form)
    (hbody : form.loopBody? = some body) (hblock : b.nodes.form? body = some (.block statements)) :
    ∃ z, b.BlockScope body z := by
  obtain ⟨z, hz⟩ := ht body (lt_size_of_form? hblock)
  have ho := opensScope_body hns hf hbody statements
  exact ⟨z, ⟨statements, hblock⟩, hz, hc.mapped.regions.own hz hblock ho⟩

section WrapAll

variable {wraps wraps' : Array Wrap} {idents : List NodeId}

/-- The bodies that are wrapped. -/
def bodiesOf (wraps : Array Wrap) : List NodeId := wraps.toList.map (·.body)

/-- What is known while loops are wrapped. -/
structure Wrapping (b₀ b : Bound) (wraps : Array Wrap) : Prop where
  tracks : Tracks b₀ b (loopsOf wraps)
  leaves : Leaves b₀ b (bodiesOf wraps)
  made : ∀ w ∈ wraps, b₀.MadeFor w

/-- The body of a loop that is not wrapped is not, either. -/
theorem Wrapping.body_notMem (hns : b₀.nodes.WellFormed) (hi : Wrapping b₀ b wraps) {loop : NodeId}
    (hf : b₀.nodes.form? loop = some form) (hbody : form.loopBody? = some body)
    (hnew : loop ∉ loopsOf wraps) : body ∉ bodiesOf wraps := by
  intro hmem
  obtain ⟨v, hv, hvbody⟩ := List.mem_map.1 hmem
  obtain ⟨form', hf', hform'⟩ := (hi.made v (Array.mem_toList_iff.1 hv)).loop
  have hp := parent?_of_form? hns hf (Form.mem_children_of_loopBody? hbody)
  have hp' := parent?_of_form? hns hf' (Form.mem_children_of_loopBody? hform')
  rw [hvbody, hp, Option.some.injEq] at hp'
  exact hnew (hp' ▸ List.mem_map_of_mem hv)

theorem bodiesOf_push (wraps : Array Wrap) (w : Wrap) :
    bodiesOf (wraps.push w) = bodiesOf wraps ++ [w.body] := by
  rw [bodiesOf, Array.toList_push, List.map_append, List.map_singleton, bodiesOf]

theorem Wrapping.wrapHazard (hns : b₀.nodes.WellFormed) (hc : b₀.Charted) (ht : b₀.Total)
    (ho : b₀.HeadersOpen) (hi : Wrapping b₀ b wraps) (hh : b.IsHazard h)
    (hw : b.wrapHazard wraps h = .ok (b', wraps')) : Wrapping b₀ b' wraps' := by
  have htracks := hi.tracks.wrapHazard ho hw
  obtain ⟨-, hadmits, ⟨rfl, rfl, -⟩ | ⟨body, w, hbody, -, hnew, hwrap, rfl⟩⟩ := wrapHazard_cases hw
  · exact hi
  obtain ⟨hl, hwbody, -⟩ := wrap_spec hi.tracks.wellScoped hwrap
  rw [hi.leaves.nodes] at hbody
  obtain ⟨form, hf, hform⟩ := Option.bind_eq_some_iff.1 hbody
  obtain ⟨hleaves, hparams⟩ := hi.leaves.wrap hns hi.tracks.wellScoped
    (fun _ hblock => exists_blockScope hns hc ht hf hform hblock)
    (hi.body_notMem hns hf hform hnew) hwrap
  refine ⟨htracks, ?_, fun v hv => ?_⟩
  · rw [bodiesOf_push, hwbody]
    exact hleaves
  · rcases Array.mem_push.1 hv with hv | rfl
    · exact hi.made v hv
    · have hh₀ := hi.tracks.isHazard hh
      refine ⟨⟨form, hl.symm ▸ hf, hwbody.symm ▸ hform⟩, ⟨h, hh₀, hl.symm, ?_⟩, ?_⟩
      · exact (hi.tracks.toExtends.admits_iff hh₀.scope_lt).1 hadmits
      · rw [hl, hwbody]
        exact hparams

theorem Wrapping.wrapAll (hns : b₀.nodes.WellFormed) (hc : b₀.Charted) (ht : b₀.Total)
    (ho : b₀.HeadersOpen) (hi : Wrapping b₀ b wraps)
    (h : wrapAll b wraps idents = .ok (b', wraps')) : Wrapping b₀ b' wraps' := by
  induction idents generalizing b wraps with
  | nil =>
    cases h
    exact hi
  | cons ident idents ih =>
    unfold Bound.wrapAll at h
    split at h
    · exact ih hi h
    · next z hz =>
      obtain ⟨⟨b₁, wraps₁⟩, hw, h⟩ := bind_eq_ok.1 h
      exact ih (hi.wrapHazard hns hc ht ho (isHazard_of_hazard? hz).1 hw) h

end WrapAll

/-! ## What is renewed -/

variable {w : Wrap}

/-- A hazard of a wrapped loop, unless it is the name of a class in the head, is renewed. -/
theorem MadeFor.renews_or (hns : b.nodes.WellFormed) (hc : b.Charted) (hm : b.MadeFor w)
    (hh : b.IsHazard h) (hl : h.loop = w.loop) (hadmits : b.Admits h) :
    b.Renews w ∨ b.NamesHeadClass h w.body := by
  obtain ⟨form, hf, hbody⟩ := hm.loop
  rw [← hl] at hf
  have hhead : b.isHeaderCapture h w.body = false :=
    hadmits w.body (Option.bind_eq_some_iff.2 ⟨form, hf, hbody⟩)
  rcases hh.made_in hns hc hf hbody hhead with ⟨hin, hdecl | ⟨hdecl, hname⟩⟩ | hclass
  · exact .inl ⟨h, hh, hl, hin, .inl hdecl⟩
  · left
    refine ⟨h, hh, hl, hin, .inr ⟨hdecl, (hm.params h.name (hl ▸ hname)).resolve_right ?_⟩⟩
    rintro ⟨z, ⟨⟨statements, hblock⟩, hz, hnode⟩, hsome⟩
    obtain ⟨r, hr, hscope⟩ := hh.resolves
    obtain ⟨-, -, name, x, hname', hx, hfinds⟩ := hc.found hr
    obtain rfl : h.name = name := Option.some.inj (hh.named.symm.trans hname')
    have hout : ¬b.nodes.Inside w.body h.loop := fun hbl => by
      have hlb := hns.parent_lt (parent?_of_form? hns hf (Form.mem_children_of_loopBody? hbody))
      exact Nat.lt_irrefl _ (Nat.lt_of_lt_of_le hlb (hbl.le hns))
    rw [hc.mapped.regions.isSome_eq_false hz hnode hin hx (hscope ▸ hfinds) hdecl.1 hout] at hsome
    cases hsome
  · exact .inr hclass

/-- What is renewed is not the name of a class in the head. -/
theorem not_namesHeadClass (hns : b.nodes.WellFormed) (hf : b.nodes.form? h.loop = some form)
    (hbody : form.loopBody? = some body) (hdecl : b.DeclaredIn h body ∨ b.DeclaredByHead h) :
    ¬b.NamesHeadClass h body := by
  rintro ⟨d, c, ident, heritage, members, hd, hnode, hc, hclass, hout⟩
  rcases hdecl with ⟨d', ident', hd', hnode', hin⟩ | ⟨hloop, each, left, right, body', hform, -⟩
  · rw [hd, Option.some.injEq] at hd'
    rw [← hd', hnode, Option.some.injEq] at hnode'
    subst hnode'
    have hp : b.nodes.parent? ident = some c := parent?_of_form? hns hclass List.mem_cons_self
    refine hout (hin.parent ?_ hp)
    rintro rfl
    rw [parent?_of_form? hns hf (Form.mem_children_of_loopBody? hbody), Option.some.injEq] at hp
    rw [← hp, hf, Option.some.injEq] at hclass
    subst hclass
    cases hbody
  · rw [hloop, Option.some.injEq] at hc
    rw [← hc, hform] at hclass
    cases hclass

/-- A wrap of which all hazards are admitted renews a binding exactly if one of them is not the name
of a class in the head. -/
theorem MadeFor.renews_iff (hns : b.nodes.WellFormed) (hc : b.Charted) (hm : b.MadeFor w)
    (hall : ∀ h, b.IsHazard h → b.Admits h) : b.Renews w ↔
      ∃ h, b.IsHazard h ∧ h.loop = w.loop ∧ ¬b.NamesHeadClass h w.body := by
  constructor
  · rintro ⟨h, hh, hl, -, hdecl⟩
    obtain ⟨form, hf, hbody⟩ := hm.loop
    rw [← hl] at hf
    exact ⟨h, hh, hl, not_namesHeadClass hns hf hbody (hdecl.imp_right And.left)⟩
  · rintro ⟨h, hh, hl, hclass⟩
    exact (hm.renews_or hns hc hh hl (hall h hh)).resolve_right hclass

end Bound

/-- What the wraps of a lowering are made for; within the limits no hazard is refused. -/
theorem lowering_madeFor {b : Bound} {l : Lowering} (hns : b.nodes.WellFormed) (hc : b.Charted)
    (ht : b.Total) (hb : b.WellScoped) (ho : b.HeadersOpen) (h : lowering b = .ok l) :
    (∀ w ∈ l.wraps, b.MadeFor w) ∧
      (l.bound.WithinLimits → ∀ z, b.IsHazard z → b.Admits z) := by
  obtain ⟨⟨b', wraps⟩, hwraps, hfinish⟩ := bind_eq_ok.1 h
  have hkeeps := Lowering.finish_keeps Array.size_replicate hfinish
  have hw : l.wraps = wraps := hkeeps.wraps
  have hinit : b.Wrapping b #[] := ⟨.refl hb, .refl hc, fun w hw => by simp at hw⟩
  refine ⟨fun w hmem => (hinit.wrapAll hns hc ht ho hwraps).made w (hw ▸ hmem), fun hlim z hz => ?_⟩
  have hlim' : b'.WithinLimits := hkeeps.withinLimits hlim
  obtain ⟨r, hr, -⟩ := hz.resolves
  exact Bound.wrapAll_admits ho (Bound.seesAll_of_withinLimits hb hwraps hlim') hinit.tracks hwraps z
    hz (hc.found hr).1

/-- Each wrap renews a binding, or its loop has a hazard that is the name of a class expression in
the head. Within the limits of the searches it renews one exactly if the loop has another hazard. -/
theorem wraps_renew_iff {file : String} {source : List Char} {options : Options} {out : Lowered}
    (h : compile file source options = .ok out) : ∃ t b l, Grammar.parse source = .ok t ∧
      bind { file, source, nodes := .ofTree t, options } = .ok b ∧
      Compiles file source options l out ∧ ∀ w ∈ l.wraps,
        (b.Renews w ∨ ∃ z, b.IsHazard z ∧ z.loop = w.loop ∧ b.NamesHeadClass z w.body) ∧
        (l.bound.WithinLimits → (b.Renews w ↔
          ∃ z, b.IsHazard z ∧ z.loop = w.loop ∧ ¬b.NamesHeadClass z w.body)) := by
  obtain ⟨l, hl, -⟩ := compile_outcome h
  obtain ⟨t, b, hparse, hb, hlowering⟩ := lowerSource_eq_ok.1 hl.lowered
  obtain ⟨htree, hns⟩ := nodes_of_bind hparse hb
  have hc := bind_charted (htree ▸ hns) hb
  obtain ⟨hwell, hopen⟩ := bind_wellScoped hb
  obtain ⟨hmade, hall⟩ := lowering_madeFor hns hc (bind_total hb) hwell hopen hlowering
  refine ⟨t, b, l, hparse, hb, hl, fun w hw => ⟨?_, fun hlim => ?_⟩⟩
  · obtain ⟨z, hz, hloop, hadmits⟩ := (hmade w hw).hazard
    exact ((hmade w hw).renews_or hns hc hz hloop hadmits).imp_right fun hclass =>
      ⟨z, hz, hloop, hclass⟩
  · exact (hmade w hw).renews_iff hns hc (hall hlim)

/-! ## A class in the head -/

section Runs

variable {b : Bound} {l : Lowering} {w : Wrap}

/-- A test of a binding and of the lowering of what is bound. -/
theorem exists_lowered {file : String} {source : List Char} {options : Options}
    {p : Bound → Lowering → Bool} (h : okAnd (Grammar.parse source) (fun t =>
      okAnd (bind { file, source, nodes := .ofTree t, options }) fun b =>
        okAnd (lowering b) fun l => okAnd l.draft.apply (fun _ => true) && p b l) = true) :
    ∃ t b l out, Grammar.parse source = .ok t ∧
      bind { file, source, nodes := .ofTree t, options } = .ok b ∧
      lowerSource file source options = .ok l ∧ compile file source options = .ok out ∧
        p b l = true := by
  obtain ⟨t, hparse, h⟩ := okAnd_iff.1 h
  obtain ⟨b, hb, h⟩ := okAnd_iff.1 h
  obtain ⟨l, hl, h⟩ := okAnd_iff.1 h
  rw [Bool.and_eq_true] at h
  obtain ⟨code, hcode, -⟩ := okAnd_iff.1 h.1
  have hlower : lowerSource file source options = .ok l := lowerSource_eq_ok.2 ⟨t, b, hparse, hb, hl⟩
  obtain ⟨out, hout⟩ := exists_compile_of_apply hlower hcode
  exact ⟨t, b, l, out, hparse, hb, hlower, hout, h.2⟩

/-- A reference to what the head of the first wrapped loop declares is a hazard of it. -/
def Bound.capturesHead (b : Bound) (l : Lowering) (ident : NodeId) : Bool :=
  match l.wraps[0]?, b.hazard? ident with
  | some w, some z => z.loop = w.loop && b.scopes.node? z.scope = some w.loop
  | _, _ => false

theorem exists_hazard_of_capturesHead {ident : NodeId} (h : b.capturesHead l ident = true) :
    ∃ w z, w ∈ l.wraps ∧ b.IsHazard z ∧ z.loop = w.loop ∧ ¬b.NamesHeadClass z w.body := by
  unfold Bound.capturesHead at h
  split at h
  · next w z hw hz =>
    rw [Bool.and_eq_true, decide_eq_true_eq, decide_eq_true_eq] at h
    have hhazard := (Bound.isHazard_of_hazard? hz).1
    refine ⟨w, z, Array.mem_of_getElem? hw, hhazard, h.1, ?_⟩
    rintro ⟨-, c, ident, heritage, members, -, -, hc, hclass, -⟩
    obtain ⟨n, hn, hloop⟩ := hhazard.loop
    obtain ⟨form, hf, hl⟩ := hloop.isLoop
    rw [h.1, ← Option.some.inj (hc.symm.trans h.2), hclass, Option.some.injEq] at hf
    subst hf
    cases hl
  · cases h

/-- The head of a loop is captured in its body. -/
def headInBody : List Char := "for (const x of xs) { f(() => x); }".toList

theorem wraps_renew_headInBody : ∃ t b l out w, compile "" headInBody {} = .ok out ∧
    Grammar.parse headInBody = .ok t ∧
    bind { file := "", source := headInBody, nodes := .ofTree t, options := {} } = .ok b ∧
    Compiles "" headInBody {} l out ∧ w ∈ l.wraps ∧ b.Renews w := by
  have hrun : okAnd (Grammar.parse headInBody) (fun t =>
      okAnd (bind { file := "", source := headInBody, nodes := .ofTree t, options := {} }) fun b =>
        okAnd (lowering b) fun l => okAnd l.draft.apply (fun _ => true) &&
          (decide l.bound.WithinLimits && (List.range b.nodes.size).any (b.capturesHead l))) =
        true := by
    decide +kernel
  obtain ⟨t', b', l', out, hparse', hb', hl', hout, hcheck⟩ := exists_lowered hrun
  obtain ⟨t, b, l, hparse, hb, hl, hiff⟩ := wraps_renew_iff hout
  obtain rfl : t = t' := Except.ok.inj (hparse.symm.trans hparse')
  obtain rfl : b = b' := Except.ok.inj (hb.symm.trans hb')
  obtain rfl : l = l' := Except.ok.inj (hl.lowered.symm.trans hl')
  rw [Bool.and_eq_true, decide_eq_true_eq] at hcheck
  obtain ⟨ident, -, hcaptures⟩ := List.any_eq_true.1 hcheck.2
  obtain ⟨w, z, hw, hz⟩ := exists_hazard_of_capturesHead hcaptures
  exact ⟨t, b, l, out, w, hout, hparse, hb, hl, hw, ((hiff w hw).2 hcheck.1).2 ⟨z, hz⟩⟩

/-- All hazards stand in front of the first wrapped body. -/
def Bound.hazardsBefore (b : Bound) (l : Lowering) : Bool :=
  match l.wraps[0]? with
  | some w => (List.range b.nodes.size).all fun ident => (b.hazard? ident).isNone || ident < w.body
  | none => false

theorem exists_not_renews (hns : b.nodes.WellFormed) (hlim : b.WithinLimits)
    (h : b.hazardsBefore l = true) : ∃ w ∈ l.wraps, ¬b.Renews w := by
  unfold Bound.hazardsBefore at h
  split at h
  · next w hw =>
    refine ⟨w, Array.mem_of_getElem? hw, ?_⟩
    rintro ⟨z, hz, -, hin, -⟩
    have hlt := lt_size_of_identifier? hz.named
    have hbefore := List.all_eq_true.1 h z.ident (List.mem_range.2 hlt)
    rw [(Bound.hazard?_eq_some_iff (hlim.sees _)).2 ⟨hz, rfl⟩] at hbefore
    have hless : z.ident < w.body := by simpa using hbefore
    exact Nat.lt_irrefl _ (Nat.lt_of_lt_of_le hless (hin.le hns))
  · cases h

/-- The test of a loop holds a class that captures its own name. -/
def classInTest : List Char := "while (g(class X { m() { return X; } })) { h(); }".toList

theorem not_renews_classInTest : ∃ t b l out w, compile "" classInTest {} = .ok out ∧
    Grammar.parse classInTest = .ok t ∧
    bind { file := "", source := classInTest, nodes := .ofTree t, options := {} } = .ok b ∧
    Compiles "" classInTest {} l out ∧ w ∈ l.wraps ∧ ¬b.Renews w := by
  have hrun : okAnd (Grammar.parse classInTest) (fun t =>
      okAnd (bind { file := "", source := classInTest, nodes := .ofTree t, options := {} }) fun b =>
        okAnd (lowering b) fun l => okAnd l.draft.apply (fun _ => true) &&
          (decide b.WithinLimits && b.hazardsBefore l)) = true := by
    decide +kernel
  obtain ⟨t, b, l', out, hparse, hb, hl', hout, hcheck⟩ := exists_lowered hrun
  obtain ⟨l, hl, -⟩ := compile_outcome hout
  obtain rfl : l = l' := Except.ok.inj (hl.lowered.symm.trans hl')
  rw [Bool.and_eq_true, decide_eq_true_eq] at hcheck
  obtain ⟨w, hw, hnot⟩ := exists_not_renews (nodes_of_bind hparse hb).2 hcheck.1 hcheck.2
  exact ⟨t, b, l, out, w, hout, hparse, hb, hl, hw, hnot⟩

end Runs

end LoopClosure
