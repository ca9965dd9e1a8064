import LoopClosure.Proofs.Binding.Duplicates
import LoopClosure.Proofs.Lowering.Hosts

/-!
# Room for wraps

A body that is no block gets a scope of its own when its loop is wrapped, so that the ways up from
what lies in it get longer, and a search that is cut off after `maxWalk` scopes may miss a hazard that
it would have found in the tree as it was bound.

- `Nodes.bareBodies`: the bodies around a node that may get a scope of their own.
- `Bound.Deepens b b' loops`: `b'` comes from `b` by wrapping `loops`, and no way up has more scopes
  more than there are bare bodies of these loops around where it begins.
- `Bound.HasRoom`: with one scope more for each bare body, the ways up still end before the bound.
- `lower_wraps_hazards`: the wrapped loops are always loops of hazards; if there is room, they are
  all of them.
-/

namespace LoopClosure

open Syntax Syntax.Nodes Scopes

/-! ## A scope in between -/

namespace Scopes

variable {s t : Scopes} {outer x z : ScopeId}

theorem Under.lt_size (h : s.Under z x) (hs : WellFormed s) (hx : x < s.size) : z < s.size := by
  induction h with
  | refl => exact hx
  | up hp _ ih => exact ih (hs.parent_lt hp)

/-- A way up on which all parents are kept stays as it is. -/
theorem walkUp_eq_of_under (hs : WellFormed s) (hx : x < s.size)
    (hkept : ∀ z, s.Under z x → t.parent? z = s.parent? z) (n : Nat) :
    t.walkUp n (some x) = s.walkUp n (some x) := by
  induction n generalizing x with
  | zero => rfl
  | succ n ih =>
    rw [walkUp_succ, walkUp_succ, hkept x .refl]
    cases hp : s.parent? (some x) with
    | none => rw [walkUp_none, walkUp_none]
    | some p => rw [ih (hs.parent_lt hp) fun z hz => hkept z (hz.trans (.up hp .refl))]

namespace Inserted

variable (h : Inserted s t outer) (hs : WellFormed s) (hr : s.Rooted)
include h hs hr

/-- The new scope comes in below `outer`, so the way up from there stays as it is. -/
theorem walkUp_outer (n : Nat) : t.walkUp n (some outer) = s.walkUp n (some outer) := by
  refine walkUp_eq_of_under hs h.outer_lt (fun z hz => ?_) n
  refine (h.parent_old (hz.lt_size hs h.outer_lt)).resolve_right fun ⟨_, hp⟩ => ?_
  exact hr.not_under_parent hp hz

theorem length_walkUp_new_le (n : Nat) :
    (t.walkUp n (some s.size)).length ≤ (s.walkUp n (some outer)).length + 1 := by
  cases n with
  | zero => exact Nat.zero_le _
  | succ n =>
    rw [walkUp_succ, h.parent_new, List.length_cons, h.walkUp_outer hs hr]
    exact Nat.succ_le_succ (length_walkUp_mono s n _)

/-- Other ways up get longer by one scope at most. -/
theorem length_walkUp_le_add_one (hx : x < s.size) (n : Nat) :
    (t.walkUp n (some x)).length ≤ (s.walkUp n (some x)).length + 1 := by
  induction n generalizing x with
  | zero => exact Nat.zero_le _
  | succ n ih =>
    rw [walkUp_succ, walkUp_succ, List.length_cons, List.length_cons]
    refine Nat.succ_le_succ ?_
    rcases h.parent_old hx with hsame | ⟨hnew, hold⟩
    · rw [hsame]
      cases hp : s.parent? (some x) with
      | none =>
        rw [walkUp_none, walkUp_none]
        exact Nat.zero_le _
      | some p => exact ih (hs.parent_lt hp)
    · rw [hnew, hold]
      exact h.length_walkUp_new_le hs hr n

end Inserted

end Scopes

/-! ## Bodies around a node -/

namespace Syntax.Nodes

variable {ns : Nodes} {a c : NodeId}

/-- Whether a node is the body of a loop and no block. -/
def isBareBody (ns : Nodes) (id : NodeId) : Bool :=
  match ns.parent? id with
  | some loop => (ns.form? loop).bind (·.loopBody?) = some id &&
      !((ns.form? id).map (·.isBlock)).getD false
  | none => false

/-- The bare bodies around a node, from the inside out. -/
def bareBodies (ns : Nodes) (id : NodeId) : List NodeId :=
  (id :: ns.ancestors id).filter ns.isBareBody

/-- A climb that is not cut off comes to all nodes around. -/
theorem Inside.mem_climb (h : ns.Inside a c) {n : Nat} (hlen : (ns.climb n c).length < n) :
    a ∈ c :: ns.climb n c := by
  induction h generalizing n with
  | refl => exact List.mem_cons_self
  | @up c p hp _ ih =>
    obtain ⟨n, rfl⟩ := Nat.exists_eq_add_one.2 (Nat.zero_lt_of_lt hlen)
    simp only [climb, hp, List.length_cons] at hlen ⊢
    exact List.mem_cons_of_mem _ (ih (Nat.lt_of_succ_lt_succ hlen))

theorem mem_bareBodies (h : ns.Inside a c) (hlen : (ns.ancestors c).length < maxClimb)
    (ha : ns.isBareBody a = true) : a ∈ ns.bareBodies c :=
  List.mem_filter.2 ⟨h.mem_climb hlen, ha⟩

theorem isBareBody_of_loopBody? {loop body : NodeId} {form : Form NodeId} (hns : ns.WellFormed)
    (hf : ns.form? loop = some form) (hbody : form.loopBody? = some body)
    (hblock : ((ns.form? body).map (·.isBlock)).getD false = false) :
    ns.isBareBody body = true := by
  rw [isBareBody, parent?_body hns hf hbody]
  simp [hf, hbody, hblock]

end Syntax.Nodes

/-! ## Longer ways up -/

namespace Bound

variable {b b' b₁ : Bound} {wraps wraps' : Array Wrap} {loop body i : NodeId} {form : Form NodeId}
  {x y outer : ScopeId} {loops idents : List NodeId}

/-- The way up from a node gets a scope more if it lies in the body. -/
theorem Grounded.length_splitBody_le (h : b.Grounded) (hw : b.WellScoped) (hns : b.nodes.WellFormed)
    (hf : b.nodes.form? loop = some form) (hbody : form.loopBody? = some body)
    (houter : b.nodeScope? body = some outer) (hx : b.nodeScope? i = some x)
    (hy : (b.splitBody body outer).1.nodeScope? i = some y) :
    (∀ n, ((b.splitBody body outer).1.scopes.walkUp n (some y)).length ≤
        (b.scopes.walkUp n (some x)).length) ∨
      b.nodes.Inside body i ∧ ∀ n, ((b.splitBody body outer).1.scopes.walkUp n (some y)).length ≤
        (b.scopes.walkUp n (some x)).length + 1 := by
  have hlt := hw.nodeScope_lt houter
  have hins := (split_splitBody hw.wellFormed hlt body).inserted
  rcases nodeScope?_split_cases hns hf hbody hy with ⟨hold, -⟩ | ⟨hold, hin, rfl⟩
  · obtain rfl := Option.some.inj (hx.symm.trans hold)
    by_cases hin : b.nodes.Inside body i
    · exact .inr ⟨hin, hins.length_walkUp_le_add_one hw.wellFormed h.tree.rooted (hw.nodeScope_lt hx)⟩
    · -- No scope above the node is of what lies in the body.
      refine .inl fun n => Nat.le_of_eq ?_
      rw [walkUp_eq_of_under hw.wellFormed (hw.nodeScope_lt hx) fun z hz => ?_]
      have hzlt := hz.lt_size hw.wellFormed (hw.nodeScope_lt hx)
      rw [parent?_splitBody hlt hw.wellFormed h.listed, if_neg, if_neg (Nat.ne_of_lt hzlt)]
      intro hmoved
      obtain ⟨-, m, hm, -⟩ := (mem_moved_iff hlt hw.wellFormed h.listed).1 hmoved
      have hbm := ((h.mem_moved_iff_inside hw hns hf hbody houter hm).1 hmoved).2
      obtain ⟨k, hk, hmk⟩ := h.toNests.inside_of_under hz hm
      exact hin ((hbm.trans hmk).trans (h.around hx hk))
  · obtain rfl := Option.some.inj (hx.symm.trans hold)
    exact .inr ⟨hin, hins.length_walkUp_new_le hw.wellFormed h.tree.rooted⟩

/-- The way up from a node gets a scope more if it lies in a bare body that is wrapped. -/
theorem Grounded.length_wrap_le (h : b.Grounded) (hw : b.WellScoped) (hns : b.nodes.WellFormed)
    (hf : b.nodes.form? loop = some form) (hbody : form.loopBody? = some body) {w : Wrap}
    (hwrap : b.wrap loop body = .ok (b', w)) (hx : b.nodeScope? i = some x)
    (hy : b'.nodeScope? i = some y) :
    (∀ n, (b'.scopes.walkUp n (some y)).length ≤ (b.scopes.walkUp n (some x)).length) ∨
      b.nodes.isBareBody body = true ∧ b.nodes.Inside body i ∧
        ∀ n, (b'.scopes.walkUp n (some y)).length ≤ (b.scopes.walkUp n (some x)).length + 1 := by
  obtain ⟨outer, b₁, houter, hsame, -, -, hcases⟩ := wrap_cases hwrap
  have hwalk (n : Nat) : b'.scopes.walkUp n (some y) = b₁.scopes.walkUp n (some y) :=
    walkUp_congr (fun _ => hsame.shape.parent? _) n _
  simp only [hwalk]
  rw [nodeScope?, hsame.nodeScopes] at hy
  rcases hcases with ⟨-, -, rfl⟩ | ⟨-, hblock, rfl⟩
  · obtain rfl := Option.some.inj (hx.symm.trans hy)
    have hshape := openBlock_sameShape b outer
    exact .inl fun n => Nat.le_of_eq (congrArg _ (walkUp_congr (fun _ => hshape.parent? _) n _))
  · exact (h.length_splitBody_le hw hns hf hbody houter hx hy).imp_right fun hlonger =>
      ⟨isBareBody_of_loopBody? hns hf hbody hblock, hlonger⟩

/-- `b'` comes from `b` by wrapping `loops`: no way up has more scopes more than there are bare bodies
of these loops around where it begins. -/
structure Deepens (b b' : Bound) (loops : List NodeId) : Prop where
  length_le : ∀ {i : NodeId} {x y : ScopeId}, b.nodeScope? i = some x → b'.nodeScope? i = some y →
    ∃ bodies : List NodeId, bodies.Nodup ∧
      (∀ body ∈ bodies, b.nodes.isBareBody body = true ∧ b.nodes.Inside body i ∧
        ∃ loop ∈ loops, b.nodes.parent? body = some loop) ∧
      ∀ n, (b'.scopes.walkUp n (some y)).length ≤
        (b.scopes.walkUp n (some x)).length + bodies.length

theorem Deepens.refl (b : Bound) : Deepens b b [] := by
  constructor
  intro i x y hx hy
  obtain rfl := Option.some.inj (hx.symm.trans hy)
  exact ⟨[], .nil, fun _ hmem => absurd hmem List.not_mem_nil, fun _ => Nat.le_refl _⟩

/-- Another loop adds its body. -/
theorem Deepens.wrap (hd : Deepens b b₁ loops) (hext : b.Extends b₁) (hg : b₁.Grounded)
    (hw : b₁.WellScoped) (hns : b₁.nodes.WellFormed) (hf : b₁.nodes.form? loop = some form)
    (hbody : form.loopBody? = some body) (hnew : loop ∉ loops) {w : Wrap}
    (hwrap : b₁.wrap loop body = .ok (b', w)) : Deepens b b' (loops ++ [loop]) := by
  constructor
  intro i x y hx hy
  obtain ⟨x₁, hx₁, -⟩ := hext.nodeScope hx
  obtain ⟨bodies, hnodup, hbodies, hlen⟩ := hd.length_le hx hx₁
  have hkept (c : NodeId) (hc : c ∈ bodies) : b.nodes.isBareBody c = true ∧ b.nodes.Inside c i ∧
      ∃ l ∈ loops ++ [loop], b.nodes.parent? c = some l := by
    obtain ⟨hbare, hin, l, hl, hp⟩ := hbodies c hc
    exact ⟨hbare, hin, l, List.mem_append_left _ hl, hp⟩
  rcases hg.length_wrap_le hw hns hf hbody hwrap hx₁ hy with hsame | ⟨hbare, hin, hlonger⟩
  · exact ⟨bodies, hnodup, hkept, fun n => Nat.le_trans (hsame n) (hlen n)⟩
  have hp := parent?_body hns hf hbody
  rw [hext.nodes] at hbare hin hp
  refine ⟨body :: bodies, List.nodup_cons.2 ⟨fun hmem => ?_, hnodup⟩,
    List.forall_mem_cons.2 ⟨⟨hbare, hin, loop, List.mem_append_right _ List.mem_cons_self, hp⟩,
      hkept⟩, fun n => ?_⟩
  · obtain ⟨-, -, l, hl, hp'⟩ := hbodies body hmem
    exact hnew (Option.some.inj (hp.symm.trans hp') ▸ hl)
  · rw [List.length_cons]
    have hn := hlonger n
    have hlen := hlen n
    omega

/-! ## Room -/

/-- With one scope more for each bare body around a reference, the way up from it ends before the bound
of the searches. -/
def HasRoom (b : Bound) : Prop :=
  ∀ ident ∈ b.references,
    (b.scopes.walk (b.nodeScope? ident)).length + (b.nodes.bareBodies ident).length < maxWalk

instance : Decidable b.HasRoom :=
  inferInstanceAs (Decidable (∀ ident ∈ b.references, _))

/-- Where there is room, references are looked up without being cut off, whatever was wrapped. -/
theorem Deepens.sees (hd : Deepens b b' loops) (hext : b.Extends b') (hlim : b.WithinLimits)
    (hroom : b.HasRoom) {ident : NodeId} (hident : ident ∈ b.references) : b'.Sees ident where
  scopes y hy := by
    obtain ⟨x, hx⟩ : ∃ x, b.nodeScope? ident = some x := by
      refine Option.ne_none_iff_exists'.1 fun hnone => ?_
      rw [hext.nodeScope_eq_none hnone] at hy
      cases hy
    obtain ⟨bodies, hnodup, hbodies, hlen⟩ := hd.length_le hx hy
    have hle : bodies.length ≤ (b.nodes.bareBodies ident).length := by
      refine (List.subperm_of_subset hnodup fun body hmem => ?_).length_le
      obtain ⟨hbare, hin, -⟩ := hbodies body hmem
      exact mem_bareBodies hin (hlim.nodes ident) hbare
    have hroom := hroom ident hident
    rw [hx] at hroom
    exact Nat.lt_of_le_of_lt (Nat.le_trans (hlen maxWalk) (Nat.add_le_add_left hle _)) hroom
  nodes id := hext.nodes ▸ hlim.nodes id

/-- Where there is room, no search is cut off. -/
theorem HasRoom.seesAll (hroom : b.HasRoom) (hlim : b.WithinLimits) (hns : b.nodes.WellFormed)
    (hd : Deepens b b₁ (loopsOf wraps)) (hext : b.Extends b₁) (hg : b₁.Grounded)
    (hw : b₁.WellScoped) (hidents : ∀ ident ∈ idents, ident ∈ b.references) :
    b₁.SeesAll wraps idents := by
  induction idents generalizing b₁ wraps with
  | nil => trivial
  | cons ident idents ih =>
    obtain ⟨hident, hidents⟩ := List.forall_mem_cons.1 hidents
    have hsees : b₁.Sees ident := hd.sees hext hlim hroom hident
    cases hz : b₁.hazard? ident with
    | none => exact (seesAll_cons_of_none hz).2 ⟨hsees, ih hd hext hg hw hidents⟩
    | some z =>
      refine (seesAll_cons_of_some hz).2 ⟨hsees, fun b' wraps' hstep => ?_⟩
      obtain ⟨hw', hext'⟩ := wrapHazard_extends hw hstep
      obtain ⟨-, -, ⟨rfl, rfl, -⟩ | ⟨body, w, hbody, -, hnew, hwrap, rfl⟩⟩ := wrapHazard_cases hstep
      · exact ih hd hext hg hw hidents
      obtain ⟨form, hf, hform⟩ := Option.bind_eq_some_iff.1 hbody
      have hns₁ : b₁.nodes.WellFormed := hext.nodes ▸ hns
      have hd' := hd.wrap hext hg hw hns₁ hf hform hnew hwrap
      have hl : w.loop = z.loop := (wrap_spec hw hwrap).1
      rw [← hl, ← loopsOf_push] at hd'
      exact ih hd' (hext.trans hext') (hg.wrap hw hns₁ hf hform hwrap).1 hw' hidents

end Bound

/-! ## Lowering -/

variable {file : String} {source : List Char} {options : Options} {t : Tree} {b : Bound}

/-- The wrapped loops are loops of hazards in the tree as it was bound, each once and in the order of
such hazards; and if there is room for wraps, they are exactly the loops of hazards, in the order of
their first ones. Where closures over loop variables are errors, the first hazard is reported; without
a hazard nothing is changed. -/
theorem lower_wraps_hazards (hparse : Grammar.parse source = .ok t)
    (hb : bind { file, source, nodes := .ofTree t, options } = .ok b) (hlim : b.WithinLimits) :
    (options.loopClosures = .iife → ∀ l, lower b = .ok l → ∃ loops,
      List.Forall₂ (WrappedLoop.IsAt b.nodes) l.wrappedLoops loops ∧ b.Picks b.references loops ∧
        (b.HasRoom → b.Collects b.references loops)) ∧
    (options.loopClosures = .error → ∀ pre (h : Hazard) post,
      b.references = pre ++ h.ident :: post → (∀ ident ∈ pre, ∀ loop, ¬b.HazardFor ident loop) →
      b.IsHazard h → lower b =
        .error (b.unit.defectAt .loopClosureNotTransformable h.ident h.name)) ∧
    ((∀ ident ∈ b.references, ∀ loop, ¬b.HazardFor ident loop) → ∃ l, lower b = .ok l ∧
      l.code = b.unit.source ∧ l.edits = [] ∧ l.wrappedLoops = []) := by
  obtain ⟨hwell, hopen⟩ := bind_wellScoped hb
  obtain ⟨hnodes, hns⟩ := nodes_of_bind hparse hb
  have hunit : b.unit = _ := bind_unit hb
  refine ⟨fun _ l hl => ?_, fun herror pre h post hrefs hpre hh => ?_,
    fun hnone => lower_of_wrapLoops_empty ?_⟩
  · obtain ⟨b', wraps, hwraps, hat, hpicks⟩ := lower_picks hwell hopen hl
    refine ⟨_, hat, hpicks, fun hroom => ?_⟩
    have hg := Bound.bind_grounded (hnodes ▸ hns) (Grammar.parse_rooted hparse) hb
    exact Bound.wrapLoops_collects hwell hopen hlim
      (hroom.seesAll hlim hns (.refl b) (.refl b) hg hwell fun _ h => h) hwraps
  · have herror : b.unit.options.loopClosures = .error := hunit ▸ herror
    rw [lower, Bound.wrapLoops_eq_error hlim herror hrefs hpre hh]
    rfl
  · rw [Bound.wrapLoops, ← List.append_nil b.references, Bound.wrapAll_append hnone]
    rfl

/-- The head of a loop is captured, and the body is no block. -/
def capturedHead : List Char := "for (const x of xs) f(() => x);".toList

theorem lower_wraps_capturedHead : ∃ t b l loops, Grammar.parse capturedHead = .ok t ∧
    bind { file := "", source := capturedHead, nodes := .ofTree t, options := {} } = .ok b ∧
      b.WithinLimits ∧ b.HasRoom ∧ lower b = .ok l ∧ l.wrappedLoops.length = 1 ∧
        List.Forall₂ (WrappedLoop.IsAt b.nodes) l.wrappedLoops loops ∧
          b.Collects b.references loops := by
  have hrun : okAnd (Grammar.parse capturedHead) (fun t =>
      okAnd (bind { file := "", source := capturedHead, nodes := .ofTree t, options := {} }) fun b =>
        decide b.WithinLimits && decide b.HasRoom &&
          okAnd (lower b) fun l => l.wrappedLoops.length == 1) = true := by
    decide +kernel
  obtain ⟨t, hparse, hrun⟩ := okAnd_iff.1 hrun
  obtain ⟨b, hb, hrun⟩ := okAnd_iff.1 hrun
  rw [Bool.and_eq_true, Bool.and_eq_true, decide_eq_true_eq, decide_eq_true_eq] at hrun
  obtain ⟨⟨hlim, hroom⟩, hrun⟩ := hrun
  obtain ⟨l, hl, hone⟩ := okAnd_iff.1 hrun
  obtain ⟨loops, hat, -, hcollects⟩ := (lower_wraps_hazards hparse hb hlim).1 rfl l hl
  exact ⟨t, b, l, loops, hparse, hb, hlim, hroom, hl, beq_iff_eq.1 hone, hat, hcollects hroom⟩

end LoopClosure
