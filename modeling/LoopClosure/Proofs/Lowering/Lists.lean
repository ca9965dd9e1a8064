import LoopClosure.Proofs.Binding.Lists
import LoopClosure.Proofs.Lowering.Cuts
import LoopClosure.Proofs.Lowering.Declared
import LoopClosure.Proofs.Lowering.Parameters
import LoopClosure.Proofs.Lowering.Retargeted

/-!
# What scopes list after a lowering

A wrap takes apart the list that the head of its loop has of a name: the references in the body are
listed at the parameter from then on, and all others at the head again. No list had been there for the
parameter, since a scope lists only what it declares. So each scope still lists the references that
resolve to it, and none is lost (`Bound.Relists`, `retargetHeader_relists`).

`Bound.ListsAgree b`: for each scope and name, the list holds the identifiers of that name that
resolve to the scope, in source order. Bound units and lowered ones are so (`lists_agree`).
-/

namespace LoopClosure

open Syntax Scopes Binding

namespace Bound

variable {b b' b'' : Bound} {header : Option ScopeId} {scope h : ScopeId} {body : NodeId}
  {name : String} {idents : List NodeId}

/-- Each scope of `b'` lists what resolves to it, and `b'` lists and resolves as many references as
`b`. -/
structure Relists (b b' : Bound) : Prop where
  nodes : b'.nodes = b.nodes
  references : b'.references = b.references
  lists : b'.Lists
  isSome_place? : ∀ i, (b'.place? i).isSome = (b.place? i).isSome
  useCount : b'.scopes.useCount = b.scopes.useCount

namespace Relists

theorem refl (hl : b.Lists) : Relists b b := ⟨rfl, rfl, hl, fun _ => rfl, rfl⟩

theorem trans (h : Relists b b') (h' : Relists b' b'') : Relists b b'' where
  nodes := h'.nodes.trans h.nodes
  references := h'.references.trans h.references
  lists := h'.lists
  isSome_place? i := (h'.isSome_place? i).trans (h.isSome_place? i)
  useCount := h'.useCount.trans h.useCount

/-- Other scopes with the same lists. -/
theorem of_sameLists (hl : b.Lists) (hn : b'.nodes = b.nodes) (hr : b'.references = b.references)
    (hres : b'.resolved = b.resolved) (hs : b.scopes.SameLists b'.scopes)
    (hd : ∀ (x : ScopeId) (name : String), (b.scopes.declaration? x name).isSome = true →
      (b'.scopes.declaration? x name).isSome = true) : Relists b b' := by
  have hplace : b'.place? = b.place? := funext fun i => by
    rw [place?, place?, resolution?, resolution?, hres]
  refine ⟨hn, hr, ?_, fun i => by rw [hplace], hs.useCount⟩
  rw [Lists, hn, hr, hplace]
  exact Scopes.Lists.congr hl hs hd

end Relists

/-! ## Parameters -/

/-- Where a use at the head goes. -/
def paramPlace (b : Bound) (h scope : ScopeId) (body i : NodeId) : ScopeId :=
  if b.nodes.contains body i then scope else h

theorem scopes_retargetUses (b : Bound) :
    (idents.foldl (retargetUse (some h) scope body name) b).scopes =
      idents.foldl (fun s i => s.addReference (some (b.paramPlace h scope body i)) name i)
        b.scopes := by
  induction idents generalizing b with
  | nil => rfl
  | cons ident idents ih =>
    have hplace : (retargetUse (some h) scope body name b ident).paramPlace h scope body =
        b.paramPlace h scope body := by
      funext i
      rw [paramPlace, nodes_retargetUse, paramPlace]
    have hscope : (if b.nodes.contains body ident then some scope else some h) =
        some (b.paramPlace h scope body ident) := (apply_ite some _ _ _).symm
    rw [List.foldl_cons, List.foldl_cons, ih, hplace, scopes_retargetUse, hscope]

theorem references_retargetUses (b : Bound) :
    (idents.foldl (retargetUse header scope body name) b).references = b.references := by
  induction idents generalizing b with
  | nil => rfl
  | cons ident idents ih =>
    rw [List.foldl_cons, ih, retargetUse]
    split <;> rfl

theorem place?_retargetHeader (hl : b.Lists) (i : NodeId) :
    (b.retargetHeader (some h) scope body name).place? i =
      if i ∈ b.scopes.usesOf h name then some (b.paramPlace h scope body i) else b.place? i := by
  rw [place?, resolution?_retargetHeader, paramPlace]
  by_cases hi : i ∈ b.scopes.usesOf h name
  · obtain ⟨r, hr, hscope⟩ := Option.map_eq_some_iff.1 (hl.mem_usesOf_iff.1 hi).2
    by_cases hc : b.nodes.contains body i = true
    · rw [if_pos ⟨hi, hc⟩, if_pos hi, if_pos hc, hr]
      rfl
    · rw [if_neg fun e => hc e.2, if_pos hi, if_neg hc, hr, Option.map_some, hscope]
  · rw [if_neg fun e => hi e.1, if_neg hi, place?]

theorem scopes_retargetHeader (b : Bound) (h scope : ScopeId) (body : NodeId) (name : String) :
    (b.retargetHeader (some h) scope body name).scopes =
      (b.scopes.usesOf h name).foldl
        (fun s i => s.addReference (some (b.paramPlace h scope body i)) name i)
        (b.scopes.takeReferences h name).1 := by
  rw [retargetHeader_eq, scopes_retargetUses]
  rfl

section Header

variable (hl : b.Lists) (hd : (b.scopes.declaration? scope name).isSome = true)
  (hempty : b.scopes.usesOf scope name = [])
include hl hd

/-- A use at the head goes to a scope with the name. -/
theorem isSome_paramPlace {i : NodeId} (hi : i ∈ b.scopes.usesOf h name) :
    (b.scopes.declaration? (some (b.paramPlace h scope body i)) name).isSome = true := by
  unfold paramPlace
  split
  · exact hd
  · exact hl.declared (List.ne_nil_of_mem hi)

theorem paramPlace_lt {i : NodeId} (hi : i ∈ b.scopes.usesOf h name) :
    b.paramPlace h scope body i < (b.scopes.takeReferences h name).1.size := by
  have hplace : (b.scopes.declaration? (some (b.paramPlace h scope body i)) name).isSome = true :=
    isSome_paramPlace hl hd hi
  obtain ⟨d, hd⟩ := Option.isSome_iff_exists.1 hplace
  rw [takeReferences, size_update]
  exact lt_size_of_declaration? hd

include hempty

/-- The list of the name at the head, and that at the parameter, are made anew. -/
theorem usesOf_retargetHeader_self {x : ScopeId} (hx : x = h ∨ x = scope) :
    (b.retargetHeader (some h) scope body name).scopes.usesOf x name =
      (b.scopes.usesOf h name).filter fun i => b.paramPlace h scope body i = x := by
  have hold : (if some h = some x ∧ name = name then [] else b.scopes.usesOf x name) = [] := by
    rcases hx with rfl | rfl
    · rw [if_pos ⟨rfl, rfl⟩]
    · rw [hempty, ite_self]
  rw [scopes_retargetHeader, usesOf_addReferences fun i hi => paramPlace_lt hl hd hi,
    usesOf_takeReferences, hold, List.nil_append]
  simp

omit hempty in
theorem usesOf_retargetHeader_of_ne {x : ScopeId} {other : String}
    (hne : ¬(other = name ∧ (x = h ∨ x = scope))) :
    (b.retargetHeader (some h) scope body name).scopes.usesOf x other =
      b.scopes.usesOf x other := by
  have hnone : (b.scopes.usesOf h name).filter
      (fun i => other = name ∧ b.paramPlace h scope body i = x) = [] := by
    refine List.filter_eq_nil_iff.2 fun i _ hi => hne ?_
    obtain ⟨hname, hplace⟩ := of_decide_eq_true hi
    refine ⟨hname, ?_⟩
    unfold paramPlace at hplace
    split at hplace
    · exact .inr hplace.symm
    · exact .inl hplace.symm
  rw [scopes_retargetHeader, usesOf_addReferences fun i hi => paramPlace_lt hl hd hi,
    usesOf_takeReferences, hnone, List.append_nil,
    if_neg fun e => hne ⟨e.2, .inl (Option.some.inj e.1).symm⟩]

theorem usesOf_retargetHeader (x : ScopeId) (other : String) :
    (b.retargetHeader (some h) scope body name).scopes.usesOf x other =
      b.references.filter fun i => b.nodes.identifier? i = some other ∧
        (b.retargetHeader (some h) scope body name).place? i = some x := by
  have hmem {i : NodeId} : i ∈ b.scopes.usesOf h name ↔
      b.nodes.identifier? i = some name ∧ b.place? i = some h := hl.mem_usesOf_iff
  by_cases hx : other = name ∧ (x = h ∨ x = scope)
  · obtain ⟨rfl, hx⟩ := hx
    -- Of the name nothing is there but what was at the head.
    have hhead {i : NodeId} (hname : b.nodes.identifier? i = some other)
        (hplace : b.place? i = some x) : i ∈ b.scopes.usesOf h other := by
      rcases hx with rfl | rfl
      · exact hmem.2 ⟨hname, hplace⟩
      · have hi : i ∈ b.scopes.usesOf x other := hl.mem_usesOf_iff.2 ⟨hname, hplace⟩
        rw [hempty] at hi
        cases hi
    rw [usesOf_retargetHeader_self hl hd hempty hx, hl.usesOf h other, List.filter_filter]
    refine List.filter_congr fun i _ => ?_
    rw [← Bool.decide_and, decide_eq_decide, place?_retargetHeader hl]
    by_cases hi : i ∈ b.scopes.usesOf h other
    · rw [if_pos hi, and_iff_left (hmem.1 hi), and_iff_right (hmem.1 hi).1, Option.some.injEq]
    · rw [if_neg hi]
      exact ⟨fun e => absurd (hmem.2 e.2) hi, fun e => absurd (hhead e.1 e.2) hi⟩
  · rw [usesOf_retargetHeader_of_ne hl hd hx, hl.usesOf]
    refine List.filter_congr fun i _ => decide_eq_decide.2 (and_congr_right fun hother => ?_)
    rw [place?_retargetHeader hl]
    split
    · next hi =>
      -- The use is of the name, so neither the head nor the parameter is the scope.
      obtain ⟨hname, hplace⟩ := hmem.1 hi
      have hsame : other = name := Option.some.inj (hother.symm.trans hname)
      rw [hplace, Option.some.injEq, Option.some.injEq]
      refine ⟨fun e => absurd ⟨hsame, .inl e.symm⟩ hx, fun e => absurd ⟨hsame, ?_⟩ hx⟩
      unfold paramPlace at e
      split at e
      · exact .inr e.symm
      · exact .inl e.symm
    · rfl

theorem retargetHeader_relists : Relists b (b.retargetHeader header scope body name) := by
  cases header with
  | none => exact .refl hl
  | some h =>
    obtain ⟨hunit, -, huses⟩ := retargetHeader_onlyUses b (some h) scope body name
    have hnodes : (b.retargetHeader (some h) scope body name).nodes = b.nodes :=
      congrArg CompilationUnit.nodes hunit
    have hsome (i : NodeId) : ((b.retargetHeader (some h) scope body name).place? i).isSome =
        (b.place? i).isSome := by
      rw [place?_retargetHeader hl]
      split
      · next hi => rw [(hl.mem_usesOf_iff.1 hi).2, Option.isSome_some, Option.isSome_some]
      · rfl
    have hrefs : (b.retargetHeader (some h) scope body name).references = b.references := by
      rw [retargetHeader_eq, references_retargetUses]
      rfl
    have hkeyed := hl.keyed.takeReferences h name
    refine ⟨hnodes, hrefs, ⟨fun x other => ?_, fun {i x} hi => ?_, fun {x other} hx => ?_, ?_⟩, hsome,
      ?_⟩
    · rw [usesOf_retargetHeader hl hd hempty, hnodes, hrefs]
    · obtain ⟨y, hy⟩ := Option.isSome_iff_exists.1 ((hsome i).symm.trans (by rw [hi, Option.isSome_some]))
      rw [hnodes, hrefs]
      exact hl.known hy
    · obtain ⟨i, hi⟩ := List.exists_mem_of_ne_nil _ hx
      rw [usesOf_retargetHeader hl hd hempty, List.mem_filter, decide_eq_true_eq,
        place?_retargetHeader hl] at hi
      obtain ⟨-, hname, hplace⟩ := hi
      rw [huses.declaration?]
      split at hplace
      · next hi =>
        obtain rfl := Option.some.inj hplace
        obtain rfl := Option.some.inj (hname.symm.trans (hl.mem_usesOf_iff.1 hi).1)
        exact isSome_paramPlace hl hd hi
      · exact hl.declared (List.ne_nil_of_mem (hl.mem_usesOf_iff.2 ⟨hname, hplace⟩))
    · rw [scopes_retargetHeader]
      exact hkeyed.addReferences _ _ _
    · rw [scopes_retargetHeader, useCount_addReferences hkeyed fun i hi => paramPlace_lt hl hd hi]
      exact useCount_takeReferences hl.keyed _ _

end Header

/-- A new parameter has no uses, so those at the head can go there. -/
theorem declareParam_relists (hl : b.Lists) (hk : b.scopes.kind? scope = some .hoist)
    (hn : b.scopes.declaration? scope name = none) (header : Option ScopeId) (body : NodeId) :
    Relists b ((b.withScopes (b.scopes.update scope
      (·.append name { kind := .param, node := none, fromPos := none }))).retargetHeader header scope
        body name) := by
  have hlt : scope < b.scopes.size := by
    obtain ⟨c, hc, -⟩ := Option.map_eq_some_iff.1 hk
    exact lt_size_of_get? hc
  have hempty : b.scopes.usesOf scope name = [] := by
    by_contra hne
    have hsome := hl.declared hne
    rw [hn] at hsome
    cases hsome
  let f : Scope → Scope := (·.append name { kind := .param, node := none, fromPos := none })
  have hlists : b.scopes.SameLists (b.scopes.update scope f) := .update _ _ fun _ => rfl
  have hsome (x : ScopeId) (other : String) :
      ((b.scopes.update scope f).declaration? x other).isSome =
        (decide (x = scope ∧ other = name) || (b.scopes.declaration? x other).isSome) :=
    isSome_declaration?_append hlt
  have hdeclared : Relists b (b.withScopes (b.scopes.update scope f)) :=
    .of_sameLists hl rfl rfl rfl hlists fun x other hx =>
      (hsome x other).trans (by rw [hx, Bool.or_true])
  refine hdeclared.trans (retargetHeader_relists hdeclared.lists ?_ ?_)
  · exact (hsome scope name).trans (by rw [decide_eq_true ⟨rfl, rfl⟩, Bool.true_or])
  · exact (hlists.usesOf _ _).trans hempty

/-- The names of the head become parameters. -/
theorem addParams_relists {names params : List String} (hl : b.Lists)
    (hk : b.scopes.kind? scope = some .hoist)
    (h : addParams header scope body b names = .ok (b', params)) : Relists b b' := by
  induction names generalizing b b' params with
  | nil =>
    cases h
    exact .refl hl
  | cons name names ih =>
    unfold addParams at h
    split at h
    · exact ih hl hk h
    · next hnot =>
      have hn := not_declares_iff.1 hnot
      rw [declare_param hk hn] at h
      obtain ⟨⟨b₁, params₁⟩, hrest, h⟩ := bind_eq_ok.1 h
      cases h
      have hparam := declareParam_relists hl hk hn header body
      refine hparam.trans (ih hparam.lists ?_ hrest)
      obtain ⟨-, -, huses⟩ := retargetHeader_onlyUses (b.withScopes (b.scopes.update scope
        (·.append name { kind := .param, node := none, fromPos := none }))) header scope body name
      exact (huses.kind? _).trans
        ((ChangesAt.declare b scope name { kind := .param, node := none, fromPos := none }).kind? _
          |>.trans hk)

/-! ## Wraps -/

theorem openBody_relists (hl : b.Lists) {outer : ScopeId} (hlt : outer < b.scopes.size)
    (body : NodeId) (blockBody : Bool) : Relists b (b.openBody body blockBody outer).1 := by
  cases blockBody with
  | true =>
    have hkind : b.scopes.SameLists (b.scopes.setKind outer .hoist) :=
      .update (f := fun c => { c with kind := .hoist }) _ _ fun _ => rfl
    have hflags (s : Scopes) : s.SameLists (s.addFlags outer { loopWrapper := true }) :=
      .update (f := fun c => { c with flags := c.flags.union { loopWrapper := true } }) _ _
        fun _ => rfl
    refine .of_sameLists hl rfl rfl rfl (hkind.trans (hflags _)) fun x name hx => ?_
    refine (congrArg Option.isSome ((declaration?_addFlags _ _ _ _ _).trans ?_)).trans hx
    exact declaration?_update (f := fun c => { c with kind := .hoist }) (fun _ => rfl) _ _
  | false =>
    have hsplit : b.scopes.SameLists (b.splitBody body outer).1.scopes :=
      scopes_splitBody b body outer ▸ (SameLists.alloc _ _ _ _ _).trans (.reparents _ _ _)
    exact .of_sameLists hl rfl rfl rfl hsplit fun x name hx =>
      (congrArg Option.isSome (declaration?_splitBody hlt x name)).trans hx

theorem wrap_relists {loop : NodeId} {w : Wrap} (hb : b.WellScoped) (hl : b.Lists)
    (h : b.wrap loop body = .ok (b', w)) : Relists b b' := by
  unfold wrap at h
  split at h
  · cases h
  · next outer houter =>
    dsimp only at h
    obtain ⟨⟨b₂, params⟩, hparams, h⟩ := bind_eq_ok.1 h
    cases h
    have hlt := hb.nodeScope_lt houter
    generalize ((b.nodes.form? body).map (·.isBlock)).getD false = isBlock at hparams
    obtain ⟨-, -, hk, -⟩ := @openBody_spec b hb body outer isBlock hlt
    have hopen := openBody_relists hl hlt body isBlock
    exact hopen.trans (addParams_relists hopen.lists hk hparams)

theorem wrapAll_relists {wraps wraps' : Array Wrap} (hb : b.WellScoped) (hl : b.Lists)
    (h : wrapAll b wraps idents = .ok (b', wraps')) : Relists b b' := by
  induction idents generalizing b wraps with
  | nil =>
    cases h
    exact .refl hl
  | cons ident idents ih =>
    unfold wrapAll at h
    split at h
    · exact ih hb hl h
    · obtain ⟨⟨b₁, wraps₁⟩, hstep, hrest⟩ := bind_eq_ok.1 h
      have hb₁ := (wrapHazard_extends hb hstep).1
      have hfirst : Relists b b₁ := by
        obtain ⟨-, -, ⟨rfl, -, -⟩ | ⟨body, w, -, -, -, hwrap, -⟩⟩ := wrapHazard_cases hstep
        · exact .refl hl
        · exact wrap_relists hb hl hwrap
      exact hfirst.trans (ih hb₁ hfirst.lists hrest)

/-! ## Agreement -/

/-- The lists of uses and what references resolve to agree. -/
structure ListsAgree (b : Bound) : Prop where
  mem_usesOf_iff : ∀ (x : ScopeId) (name : String) (i : NodeId), i ∈ b.scopes.usesOf x name ↔
    b.nodes.identifier? i = some name ∧ ∃ r, b.resolution? i = some r ∧ r.scope = x
  ordered : ∀ (x : ScopeId) (name : String),
    (b.scopes.usesOf x name).Pairwise fun i j => b.nodes.start i < b.nodes.start j

theorem ListsAgree.withScopes (h : b.ListsAgree) {s : Scopes} (hs : b.scopes.SameLists s) :
    (b.withScopes s).ListsAgree where
  mem_usesOf_iff x name i := by
    rw [show (b.withScopes s).scopes.usesOf x name = _ from hs.usesOf x name]
    exact h.mem_usesOf_iff x name i
  ordered x name := by
    rw [show (b.withScopes s).scopes.usesOf x name = _ from hs.usesOf x name]
    exact h.ordered x name

theorem Lists.agree (hl : b.Lists)
    (ho : b.references.Pairwise fun i j => b.nodes.start i < b.nodes.start j) : b.ListsAgree where
  mem_usesOf_iff x name i := by
    rw [Scopes.Lists.mem_usesOf_iff hl, place?, Option.map_eq_some_iff]
  ordered x name := by
    rw [Scopes.Lists.usesOf hl]
    exact ho.filter _

end Bound

/-! ## The order of the source -/

namespace Syntax.Nodes

variable {t : Tree} {i j : NodeId} {m n : Node}

/-- A use is not the root, so its range is not empty. -/
theorem IsUse.lt {ns : Nodes} (hns : ns.WellFormed) (hroot : ns.Rooted) (hi : ns.IsUse i n) :
    n.start < n.stop := by
  cases hp : ns.parent? i with
  | none =>
    obtain ⟨statements, comments, hprogram⟩ := hroot (form?_of_get? hi.get) hp
    rcases hi.form with hf | ⟨⟨name, hf⟩, -⟩ <;> cases hprogram.symm.trans hf
  | some p =>
    obtain ⟨m, hm⟩ := exists_get?_of_parent? hns hp
    exact (hns.within hp hi.get hm).2.1

/-- Uses begin in the order of their numbers. -/
theorem IsUse.start_lt (ht : t.WellFormed) (hroot : (ofTree t).Rooted)
    (hi : (ofTree t).IsUse i m) (hj : (ofTree t).IsUse j n) (hlt : i < j) :
    (ofTree t).start i < (ofTree t).start j := by
  have hns := wellFormed_ofTree ht
  have hle := start_le_ofTree ht hi.get hj.get hj.children_eq (Nat.le_of_lt hlt)
  have hm := hi.lt hns hroot
  have hn := hj.lt hns hroot
  rw [start, start, hi.get, hj.get]
  simp only [Option.map_some, Option.getD_some]
  rcases hns.leaf hi.get hi.children_eq hj.get with hin | h | h | ⟨s, htwin⟩ | htwin
  · exact absurd (hin.le hns) (Nat.not_le_of_lt hlt)
  · omega
  · omega
  · exact absurd htwin ((hi.isPart hns).notKey s)
  · exact absurd htwin ((hj.isPart hns).notKey i)

end Syntax.Nodes

/-! ## Bound units and lowered ones -/

section Agree

variable {u : CompilationUnit} {t : Tree} {b : Bound}

theorem references_ordered (ht : t.WellFormed) (hroot : (Nodes.ofTree t).Rooted)
    (hnodes : u.nodes = .ofTree t) (hb : bind u = .ok b) :
    b.references.Pairwise fun i j => b.nodes.start i < b.nodes.start j := by
  have hbnodes : b.nodes = .ofTree t := (congrArg CompilationUnit.nodes (bind_unit hb)).trans hnodes
  obtain ⟨hsorted, hmem⟩ := bind_references hb
  have huse {i : NodeId} (hi : i ∈ b.references) : ∃ n, (Nodes.ofTree t).IsUse i n := by
    obtain ⟨⟨name, hname⟩, href⟩ := (hmem i).1 hi
    rw [hnodes] at hname href
    obtain ⟨n, hn, hform⟩ := Option.map_eq_some_iff.1 (Nodes.identifier?_eq_some_iff.1 hname)
    exact ⟨n, hn, .inr ⟨⟨name, hform⟩, href⟩⟩
  refine hsorted.imp_of_mem fun hi hj hlt => ?_
  obtain ⟨m, hm⟩ := huse hi
  obtain ⟨n, hn⟩ := huse hj
  rw [hbnodes]
  exact hm.start_lt ht hroot hn hlt

/-- Of a bound unit, and of a lowered one, each scope lists the identifiers that resolve to it, in
source order. Lowering keeps which references are resolved, and how many are listed. -/
theorem lists_agree (hparse : Grammar.parse u.source = .ok t) (hnodes : u.nodes = .ofTree t)
    (hb : bind u = .ok b) : b.ListsAgree ∧ ∀ out, lower b = .ok out →
      out.bound.ListsAgree ∧
        (∀ i, (out.bound.resolution? i).isSome = (b.resolution? i).isSome) ∧
        out.bound.scopes.useCount = b.scopes.useCount := by
  have ht := Grammar.parse_wellFormed hparse
  have hroot : (Nodes.ofTree t).Rooted := Grammar.parse_rooted hparse
  have hbnodes : b.nodes = .ofTree t := (congrArg CompilationUnit.nodes (bind_unit hb)).trans hnodes
  have hwell := (bind_wellScoped hb).1
  have hordered := references_ordered ht hroot hnodes hb
  refine ⟨(bind_lists hb).agree hordered, fun out hout => ?_⟩
  obtain ⟨l, hl, -, -, -, hbound⟩ := lower_eq_ok.1 hout
  obtain ⟨⟨b₁, wraps⟩, hwraps, hfinish⟩ := bind_eq_ok.1 hl
  have hrelists := Bound.wrapAll_relists hwell (bind_lists hb) hwraps
  have hnested := Lowering.nested_ofWraps (hrelists.nodes ▸ hbnodes ▸ Nodes.wellFormed_ofTree ht)
    (hrelists.nodes ▸ Bound.wrapAll_wrapsOf hwell (.empty _) hwraps)
  have hrecords := Lowering.finish_records hnested Array.size_replicate (fun k => by
    rw [Lowering.exit, Lowering.ofWraps, Array.getElem?_replicate]
    split <;> rfl) hfinish
  have hlists : b₁.scopes.SameLists l.bound.scopes := hrecords.vars.lists
  have hsame : l.bound = b₁.withScopes l.bound.scopes := hrecords.bound
  refine ⟨?_, fun i => ?_, ?_⟩
  · rw [hbound, hsame]
    refine Bound.ListsAgree.withScopes (hrelists.lists.agree ?_) hlists
    rw [hrelists.references, hrelists.nodes]
    exact hordered
  · have hsome := hrelists.isSome_place? i
    rw [Bound.place?, Bound.place?, Option.isSome_map, Option.isSome_map] at hsome
    rw [hbound, hsame]
    exact hsome
  · rw [hbound, hlists.useCount, hrelists.useCount]

/-- Two wraps, one in the body of the other. -/
def nestedCaptures : List Char :=
  "for (const x of xs) \x7b g(x); for (const y of ys) \x7b f(() => x + y); \x7d \x7d".toList

theorem lists_agree_nestedCaptures : ∃ t b out, Grammar.parse nestedCaptures = .ok t ∧
    bind ⟨"", nestedCaptures, .ofTree t, {}⟩ = .ok b ∧ lower b = .ok out ∧
    b.ListsAgree ∧ b.scopes.usesOf (some 2) "x" = [10, 22] ∧ out.bound.ListsAgree ∧
    out.bound.scopes.usesOf (some 2) "x" = [] ∧ out.bound.scopes.usesOf (some 3) "x" = [10, 22] ∧
    out.bound.scopes.useCount = b.scopes.useCount := by
  have hrun : okAnd (Grammar.parse nestedCaptures) (fun t =>
      okAnd (bind ⟨"", nestedCaptures, .ofTree t, {}⟩) fun b => okAnd (lower b) fun out =>
        decide (b.scopes.usesOf (some 2) "x" = [10, 22] ∧
          out.bound.scopes.usesOf (some 2) "x" = [] ∧
          out.bound.scopes.usesOf (some 3) "x" = [10, 22])) = true := by
    decide +kernel
  obtain ⟨t, hparse, hrun⟩ := okAnd_iff.1 hrun
  obtain ⟨b, hb, hrun⟩ := okAnd_iff.1 hrun
  obtain ⟨out, hout, hrun⟩ := okAnd_iff.1 hrun
  obtain ⟨hhead, hempty, hparam⟩ := of_decide_eq_true hrun
  obtain ⟨hagree, hlowered⟩ :=
    lists_agree (u := ⟨"", nestedCaptures, .ofTree t, {}⟩) hparse rfl hb
  obtain ⟨hagree', -, hcount⟩ := hlowered out hout
  exact ⟨t, b, out, hparse, hb, hout, hagree, hhead, hagree', hempty, hparam, hcount⟩

end Agree

end LoopClosure
