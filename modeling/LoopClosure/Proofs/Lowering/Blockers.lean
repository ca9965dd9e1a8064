import LoopClosure.Proofs.Grammar.Suspension
import LoopClosure.Proofs.Lowering.Diagnosed
import LoopClosure.Proofs.Lowering.Sites
import LoopClosure.Proofs.Syntax.Provider

/-!
# Bodies that cannot move

The body of a loop cannot become that of a function if this changes what it means.

- `Nodes.FunctionAround ns f s`: `f` is the nearest function around `s`, arrows included.
- `Nodes.Changes ns body`: the body holds a `yield` or `await` of a function around it, or a `super`
  whose home is around it. The home is the provider (`Nodes.Provider`): the function of a method,
  or a field for its initial value.
- `Nodes.HoldsFieldSuper ns body`: a field of a class in the body, in no function there but arrows,
  is the home of a `super`. Nothing about that changes, and still it is a reason not to wrap.
- `blockers_exact`: those are exactly the bodies that the search refuses.
-/

namespace LoopClosure

open Syntax

namespace Syntax

/-- `yield` and `await`. -/
def Form.suspends {α : Type} : Form α → Bool
  | .yield .. | .await .. => true
  | _ => false

namespace Nodes

open LoopClosure.Bound (ArrowTo NoFunctionTo not_arrowTo_refl arrowTo_iff)

variable {ns : Nodes} {a b c f g p q s x body : NodeId} {form : Form NodeId} {inArrow : Bool}

/-- The nearest function around a node. -/
structure FunctionAround (ns : Nodes) (f s : NodeId) : Prop where
  function : ∃ form, ns.form? f = some form ∧ form.isFunction = true
  directly : ∃ q, ns.parent? s = some q ∧ ns.Directly f q

/-- The node gives a `super` in the initial value of a field its home. -/
def IsField (ns : Nodes) (p : NodeId) : Prop :=
  ∃ key value isStatic computed, ns.form? p = some (.field key value isStatic computed)

/-- All functions on the way from one node down to another are arrows. -/
def OnlyArrowsTo (ns : Nodes) (a s : NodeId) : Prop :=
  ∀ x form, ns.Inside a x → ns.Inside x s → x ≠ s → ns.form? x = some form →
    form.isFunction = true → form.isArrow = true

/-- What the body means depends on what it is a part of. -/
inductive Changes (ns : Nodes) (body : NodeId) : Prop
  | suspension {s f : NodeId} {form : Form NodeId} (hin : ns.Inside body s)
    (hs : ns.form? s = some form) (hsuspends : form.suspends = true)
    (hf : ns.FunctionAround f s) (hout : ¬ns.Inside body f)
  | super {s p : NodeId} (hin : ns.Inside body s) (hs : ns.form? s = some .super)
    (hp : ns.Provider p s) (hout : ¬ns.Inside body p)

/-- The body holds a `super` of a field that is in the body too. -/
def HoldsFieldSuper (ns : Nodes) (body : NodeId) : Prop :=
  ∃ s p, ns.form? s = some .super ∧ ns.Provider p s ∧ ns.IsField p ∧ ns.Inside body p ∧
    ns.OnlyArrowsTo body p

/-! ## The search -/

theorem isBlocker_iff : isBlocker inArrow form = true ↔
    form = .super ∨ form.suspends = true ∧ inArrow = false := by
  cases form <;> simp [isBlocker, Form.suspends]

theorem onlyArrowsTo_refl (h : ns.WellFormed) : ns.OnlyArrowsTo s s :=
  fun _ _ hx hxs hne _ _ => absurd (hxs.antisymm h hx) hne

theorem onlyArrowsTo_iff (h : ns.WellFormed) (hp : ns.parent? c = some a)
    (hf : ns.form? a = some form) (hc : ns.Inside c s) :
    ns.OnlyArrowsTo a s ↔ (form.isFunction = true → form.isArrow = true) ∧
      ns.OnlyArrowsTo c s := by
  have hne : a ≠ s := Nat.ne_of_lt (Nat.lt_of_lt_of_le (h.parent_lt hp) (hc.le h))
  refine ⟨fun hw => ⟨hw a form .refl ((Inside.of_parent hp).trans hc) hne hf, fun x fx hx =>
    hw x fx ((Inside.of_parent hp).trans hx)⟩, fun ⟨ha, hw⟩ x fx hx hxs hxne hfx => ?_⟩
  rcases hc.eq_or_inside_child h hp hx hxs with rfl | hx
  · exact Option.some.inj (hfx.symm.trans hf) ▸ ha
  · exact hw x fx hx hxs hxne hfx

theorem exists_of_blockedWithin (h : ns.WellFormed) {depth : Nat}
    (hb : ns.blockedWithin depth inArrow a = true) :
    ∃ s form inArrow', ns.Inside a s ∧ ns.form? s = some form ∧ ns.OnlyArrowsTo a s ∧
      isBlocker inArrow' form = true ∧ (inArrow' = true ↔ inArrow = true ∨ ArrowTo ns a s) := by
  induction depth generalizing inArrow a with
  | zero => cases hb
  | succ depth ih =>
    unfold blockedWithin at hb
    split at hb
    · cases hb
    · next form hf =>
      rcases Bool.or_eq_true_iff.1 hb with hb | hb
      · exact ⟨a, form, inArrow, .refl, hf, onlyArrowsTo_refl h, hb,
          (or_iff_left (not_arrowTo_refl h)).symm⟩
      · obtain ⟨hpass, hb⟩ := Bool.and_eq_true_iff.1 hb
        obtain ⟨c, hc, hb⟩ := List.any_eq_true.1 hb
        have hp := parent?_of_form? h hf hc
        obtain ⟨s, form', inArrow', hin, hf', hway, hblocker, harrow⟩ := ih hb
        refine ⟨s, form', inArrow', (Inside.of_parent hp).trans hin, hf',
          (onlyArrowsTo_iff h hp hf hin).2 ⟨fun hfun => ?_, hway⟩, hblocker, ?_⟩
        · simpa [hfun] using hpass
        · rw [harrow, arrowTo_iff h hp hf hin, Bool.or_eq_true, or_assoc]

theorem blockedWithin_of (h : ns.WellFormed) (hin : ns.Inside a s) {depth : Nat}
    (hdepth : s < a + depth) (hf : ns.form? s = some form) (hway : ns.OnlyArrowsTo a s)
    (inArrow' : Bool) (harrow : inArrow' = true ↔ inArrow = true ∨ ArrowTo ns a s)
    (hb : isBlocker inArrow' form = true) : ns.blockedWithin depth inArrow a = true := by
  induction depth generalizing inArrow a with
  | zero => exact absurd (hin.le h) (Nat.not_le_of_lt hdepth)
  | succ depth ih =>
    unfold blockedWithin
    rcases hin.eq_or_child with rfl | ⟨c, hp, hc⟩
    · obtain rfl : inArrow' = inArrow := Bool.eq_iff_iff.2
        (harrow.trans (or_iff_left (not_arrowTo_refl h)))
      rw [hf]
      exact Bool.or_eq_true_iff.2 (.inl hb)
    · obtain ⟨form', hf', hmem⟩ := exists_form?_of_parent? h hp
      obtain ⟨hpass, hway⟩ := (onlyArrowsTo_iff h hp hf' hc).1 hway
      rw [hf']
      refine Bool.or_eq_true_iff.2 (.inr (Bool.and_eq_true_iff.2 ⟨?_, List.any_eq_true.2
        ⟨c, hmem, ih hc ?_ hway ?_⟩⟩))
      · cases hfun : form'.isFunction with
        | false => rfl
        | true => exact hpass hfun
      · refine Nat.lt_of_lt_of_le hdepth ?_
        rw [Nat.add_comm depth 1, ← Nat.add_assoc]
        exact Nat.add_le_add_right (h.parent_lt hp) depth
      · rw [harrow, arrowTo_iff h hp hf' hc, Bool.or_eq_true, or_assoc]

theorem noFunctionTo_iff : NoFunctionTo ns a s ↔ ns.OnlyArrowsTo a s ∧ ¬ArrowTo ns a s := by
  constructor
  · intro hn
    refine ⟨fun x form hx hxs hne hf hfun => ?_, fun ⟨x, form, hx, hxs, hne, hf, harrow⟩ => ?_⟩
    · rw [hn x form hx hxs hne hf] at hfun
      cases hfun
    · have hfun := hn x form hx hxs hne hf
      cases form with
      | function => cases hfun
      | _ => cases harrow
  · rintro ⟨hway, harrow⟩ x form hx hxs hne hf
    refine Bool.eq_false_iff.2 fun hfun => harrow ⟨x, form, hx, hxs, hne, hf, ?_⟩
    exact hway x form hx hxs hne hf hfun

/-- The search finds a `super` behind arrows alone, and a `yield` or `await` behind no function. -/
theorem isBlocked_iff (h : ns.WellFormed) : ns.isBlocked body = true ↔
    ∃ s form, ns.Inside body s ∧ ns.form? s = some form ∧
      (form = .super ∧ ns.OnlyArrowsTo body s ∨
        form.suspends = true ∧ NoFunctionTo ns body s) := by
  constructor
  · intro hb
    obtain ⟨s, form, inArrow, hin, hf, hway, hblocker, harrow⟩ := exists_of_blockedWithin h hb
    refine ⟨s, form, hin, hf, ?_⟩
    rcases isBlocker_iff.1 hblocker with hsuper | ⟨hsuspends, rfl⟩
    · exact .inl ⟨hsuper, hway⟩
    · exact .inr ⟨hsuspends, noFunctionTo_iff.2 ⟨hway, fun ha => Bool.noConfusion
        (harrow.2 (.inr ha))⟩⟩
  · rintro ⟨s, form, hin, hf, hs⟩
    have hdepth : s < body + ns.size :=
      Nat.lt_of_lt_of_le (lt_size_of_form? hf) (Nat.le_add_left _ _)
    rcases hs with ⟨rfl, hway⟩ | ⟨hsuspends, hnone⟩
    · by_cases ha : ArrowTo ns body s
      · exact blockedWithin_of h hin hdepth hf hway true (by simp [ha]) rfl
      · exact blockedWithin_of h hin hdepth hf hway false (by simp [ha]) rfl
    · obtain ⟨hway, ha⟩ := noFunctionTo_iff.1 hnone
      exact blockedWithin_of h hin hdepth hf hway false (by simp [ha])
        (isBlocker_iff.2 (.inr ⟨hsuspends, rfl⟩))

/-! ## Owners and homes -/

theorem Directly.eq_of_isFunction (h : ns.WellFormed) (hd : ns.Directly f q) (hf : ns.Inside f g)
    (hg : ns.Inside g q) (hform : ns.form? g = some form) (hfun : form.isFunction = true) :
    g = f := by
  induction hd with
  | refl => exact hg.antisymm h hf
  | @up q p form' hq hfun' hp _ ih =>
    refine ih (hg.parent (fun heq => ?_) hp)
    rw [heq, hq, Option.some.injEq] at hform
    rw [hform, hfun] at hfun'
    cases hfun'

/-- The nearest function around a node lies in `a` or `a` in it; in the first case the way down from
`a` has a function on it. -/
theorem FunctionAround.noFunctionTo_iff (h : ns.WellFormed) (hf : ns.FunctionAround f s) :
    NoFunctionTo ns a s ↔ ¬ns.Inside a f := by
  obtain ⟨⟨form, hform, hfun⟩, q, hq, hd⟩ := hf
  constructor
  · intro hn ha
    have hlt : f < s := Nat.lt_of_le_of_lt (hd.inside.le h) (h.parent_lt hq)
    rw [hn f form ha (.up hq hd.inside) (Nat.ne_of_lt hlt) hform] at hfun
    cases hfun
  · intro ha x fx hx hxs hne hfx
    refine Bool.eq_false_iff.2 fun hfunx => ?_
    have hxq := hxs.parent hne hq
    rcases hd.inside.comparable hxq with hfx' | hxf
    · exact ha (hd.eq_of_isFunction h hfx' hxq hfx hfunx ▸ hx)
    · exact ha (hx.trans hxf)

/-- A function that is no arrow lies around the home of what it holds, or is the home. -/
theorem Provider.inside_of_function (h : ns.WellFormed) (hp : ns.Provider p s)
    (hf : ns.form? f = some form) (hfun : form.isFunction = true) (harrow : form.isArrow = false)
    (hin : ns.Inside f s) (hne : f ≠ s) : ns.Inside f p := by
  obtain ⟨c, hc, -, hcs, hpasses⟩ := (provider_iff h).1 hp
  rcases hin.eq_or_child with rfl | ⟨y, hy, hys⟩
  · exact absurd rfl hne
  · have hprovides : ns.Provides f y := by
      cases form with
      | function place name params body traits =>
        exact .function hf fun hplace => by subst hplace; cases harrow
      | _ => cases hfun
    rcases hcs.comparable hin with hcf | hfc
    · exact absurd hprovides (hpasses f y hcf hy hys)
    · by_cases hfc' : f = c
      · exact absurd hprovides (hpasses f y (hfc' ▸ .refl) hy hys)
      · exact hfc.parent hfc' hc

/-- What a body holds behind arrows alone has its home around the body or in a field there. -/
theorem Provider.onlyArrowsTo_iff (h : ns.WellFormed) (hp : ns.Provider p s)
    (hbody : body ≠ root) : ns.OnlyArrowsTo body s ↔
      ¬ns.Inside body p ∨ ns.IsField p ∧ ns.Inside body p ∧ ns.OnlyArrowsTo body p := by
  obtain ⟨c, hc, hprovides, hcs, -⟩ := (provider_iff h).1 hp
  have hps : ns.Inside p s := (Inside.of_parent hc).trans hcs
  have hne : p ≠ s := Nat.ne_of_lt (Nat.lt_of_lt_of_le (h.parent_lt hc) (hcs.le h))
  constructor
  · intro hway
    by_cases hin' : ns.Inside body p
    · refine .inr ⟨?_, hin', fun x form hx hxp hxne hf hfun => ?_⟩
      · cases hprovides with
        | @function place name params body' traits hf hplace =>
          have harrow := hway p _ hin' hps hne hf rfl
          cases place with
          | arrow => exact absurd rfl hplace
          | _ => cases harrow
        | program hroot =>
          subst hroot
          exact absurd (Nat.le_zero.1 (hin'.le h)) hbody
        | field hf => exact ⟨_, _, _, _, hf⟩
      · refine hway x form hx (hxp.trans hps) (fun heq => ?_) hf hfun
        exact hne (hps.antisymm h (heq ▸ hxp))
    · exact .inl hin'
  · intro hcase x form hx hxs hxne hf hfun
    by_contra harrow
    have hxp := hp.inside_of_function h hf hfun (Bool.eq_false_iff.2 harrow) hxs hxne
    rcases hcase with hout | ⟨⟨key, value, isStatic, computed, hfield⟩, -, hway⟩
    · exact hout (hx.trans hxp)
    · refine harrow (hway x form hx hxp (fun heq => ?_) hf hfun)
      rw [← heq, hf, Option.some.injEq] at hfield
      rw [hfield] at hfun
      cases hfun

theorem exists_functionAround (hs : ns.Suspends) (hf : ns.form? s = some form)
    (hsuspends : form.suspends = true) : ∃ f, ns.FunctionAround f s := by
  have hnearest : ∃ traits, ns.Nearest traits s := by
    cases form with
    | yield argument delegate =>
      obtain ⟨traits, hnearest, -⟩ := hs.yields s _ _ hf
      exact ⟨traits, hnearest⟩
    | await argument =>
      obtain ⟨traits, hnearest, -⟩ := hs.awaits s _ hf
      exact ⟨traits, hnearest⟩
    | _ => cases hsuspends
  obtain ⟨traits, f, q, place, ident, params, body, hfun, hq, hd⟩ := hnearest
  exact ⟨f, ⟨_, hfun, rfl⟩, q, hq, hd⟩

/-- The search refuses a body that changes, and one that holds the `super` of a field. -/
theorem isBlocked_iff_changes (h : ns.WellFormed) (hs : ns.Suspends) (hroot : ns.Inside root body)
    (hbody : body ≠ root) : ns.isBlocked body = true ↔
      ns.Changes body ∨ ns.HoldsFieldSuper body := by
  rw [isBlocked_iff h]
  constructor
  · rintro ⟨s, form, hin, hf, ⟨rfl, hway⟩ | ⟨hsuspends, hnone⟩⟩
    · have hne : s ≠ root := fun heq => by
        subst heq
        exact hbody (Nat.le_zero.1 (hin.le h))
      obtain ⟨p, hp⟩ := exists_provider (hroot.trans hin) hne
      rcases (hp.onlyArrowsTo_iff h hbody).1 hway with hout | ⟨hfield, hin', hway'⟩
      · exact .inl (.super hin hf hp hout)
      · exact .inr ⟨s, p, hf, hp, hfield, hin', hway'⟩
    · obtain ⟨f, hfun⟩ := exists_functionAround hs hf hsuspends
      exact .inl (.suspension hin hf hsuspends hfun ((hfun.noFunctionTo_iff h).1 hnone))
  · rintro ((⟨hin, hf, hsuspends, hfun, hout⟩ | ⟨hin, hf, hp, hout⟩) |
      ⟨s, p, hf, hp, hfield, hin', hway⟩)
    · exact ⟨_, _, hin, hf, .inr ⟨hsuspends, (hfun.noFunctionTo_iff h).2 hout⟩⟩
    · exact ⟨_, _, hin, hf, .inl ⟨rfl, (hp.onlyArrowsTo_iff h hbody).2 (.inl hout)⟩⟩
    · obtain ⟨c, hc, -, hcs, -⟩ := (provider_iff h).1 hp
      have hin : ns.Inside body s := hin'.trans ((Inside.of_parent hc).trans hcs)
      exact ⟨_, _, hin, hf, .inl ⟨rfl,
        (hp.onlyArrowsTo_iff h hbody).2 (.inr ⟨hfield, hin', hway⟩)⟩⟩

end Nodes

end Syntax

/-! ## Hazards -/

namespace Bound

variable {b b₀ : Bound} {h : Hazard} {body : NodeId} {wraps : Array Wrap}

/-- A hazard that the head of the loop does not rule out is refused exactly if the body is blocked,
and else its loop is wrapped, if it is not already. -/
theorem wrapHazard_spec (hb : b.WellScoped) (ht : b.Total) (hbody : body < b.nodes.size)
    (hiife : b.unit.options.loopClosures = .iife)
    (hloop : (b.nodes.form? h.loop).bind (·.loopBody?) = some body)
    (hhead : b.isHeaderCapture h body = false) :
    if b.nodes.isBlocked body then b.wrapHazard wraps h =
      .error (b.unit.defectAt .loopClosureNotTransformable h.ident h.name)
    else ∃ r, b.wrapHazard wraps h = .ok r := by
  unfold wrapHazard
  extract_lets untransformable
  simp only [hiife, hloop, hhead, Bool.false_eq_true, if_false]
  split
  · rfl
  · split
    · exact ⟨_, rfl⟩
    · obtain ⟨⟨b', w⟩, hw⟩ : ∃ r, b.wrap h.loop body = .ok r := exists_wrap hb ht hbody
      exact ⟨_, bind_eq_ok.2 ⟨_, hw, rfl⟩⟩

end Bound

variable {source : List Char} {t : Tree} {loop body : NodeId} {form : Form NodeId}

/-- The search for what cannot move finds something exactly in the bodies that change, and in those
that hold the `super` of a field. So each hazard that lowering comes to is refused for such a body,
and is not refused for any other one. -/
theorem blockers_exact (hparse : Grammar.parse source = .ok t)
    (hf : (Nodes.ofTree t).form? loop = some form) (hbody : form.loopBody? = some body) :
    ((Nodes.ofTree t).isBlocked body = true ↔
      (Nodes.ofTree t).Changes body ∨ (Nodes.ofTree t).HoldsFieldSuper body) ∧
    ∀ u b₀ idents b wraps (h : Hazard), u.nodes = .ofTree t → bind u = .ok b₀ →
      Bound.wrapAll b₀ #[] idents = .ok (b, wraps) → u.options.loopClosures = .iife →
      h.loop = loop → b.isHeaderCapture h body = false →
        (b.wrapHazard wraps h =
            .error (b.unit.defectAt .loopClosureNotTransformable h.ident h.name) ↔
          (Nodes.ofTree t).Changes body ∨ (Nodes.ofTree t).HoldsFieldSuper body) ∧
        ((∃ r, b.wrapHazard wraps h = .ok r) ↔
          ¬((Nodes.ofTree t).Changes body ∨ (Nodes.ofTree t).HoldsFieldSuper body)) := by
  have hns := Nodes.wellFormed_ofTree (Grammar.parse_wellFormed hparse)
  have hp := Nodes.parent?_of_form? hns hf (Form.mem_children_of_loopBody? hbody)
  obtain ⟨n, hn⟩ := Nodes.exists_get?_of_parent?_eq_some hp
  obtain ⟨p, v, hu, -⟩ := Nodes.located_of_get? hn
  have hroot := Nat.ne_of_gt (Nat.zero_lt_of_lt (hns.parent_lt hp))
  have hexact := Nodes.isBlocked_iff_changes hns (Grammar.parse_suspends hparse)
    (Nodes.inside_of_located (.here _ _ _) hu) hroot
  refine ⟨hexact, fun u b₀ idents b wraps h hu hb hw hiife hl hhead => ?_⟩
  obtain ⟨hwell, hext⟩ := Bound.wrapAll_extends (bind_wellScoped hb).1 hw
  have hunit : b.unit = u := hext.unit.trans (bind_unit hb)
  have hnodes : b.nodes = .ofTree t := (congrArg CompilationUnit.nodes hunit).trans hu
  have hspec := @Bound.wrapHazard_spec b h body wraps hwell (hext.total (bind_total hb))
    (hnodes ▸ (Array.getElem?_eq_some_iff.1 hn).1) (hunit ▸ hiife)
    (by rw [hnodes, hl, hf, Option.bind_some, hbody]) hhead
  rw [← hexact]
  rw [hnodes] at hspec
  split at hspec
  · next hblocked => simp [hspec, hblocked]
  · next hblocked =>
    obtain ⟨r, hr⟩ := hspec
    simp [hr, hblocked]

/-- A loop in a method, with another method in its body that has a `super` of its own. -/
def superInMethod : List Char :=
  "class A extends B \x7b m() \x7b for (const x of xs) \x7b f(() => x); g(\x7b n() \x7b super.y; \x7d \x7d); \x7d \x7d \x7d".toList

theorem blockers_exact_superInMethod : ∃ t b h r, Grammar.parse superInMethod = .ok t ∧
    bind { file := "", source := superInMethod, nodes := .ofTree t, options := {} } = .ok b ∧
    (Nodes.ofTree t).form? 29 = some .super ∧ (Nodes.ofTree t).Inside 13 29 ∧
    ¬((Nodes.ofTree t).Changes 13 ∨ (Nodes.ofTree t).HoldsFieldSuper 13) ∧
    b.hazard? 18 = some h ∧ h.loop = 8 ∧ b.wrapHazard #[] h = .ok r := by
  have hrun : okAnd (Grammar.parse superInMethod) (fun t =>
      okAnd (bind { file := "", source := superInMethod, nodes := .ofTree t, options := {} })
        (fun b => (b.hazard? 18).any fun h => decide (
          (Nodes.ofTree t).form? 8 = some (.forEach .values 9 12 13) ∧
          (Nodes.ofTree t).form? 29 = some .super ∧ 13 ∈ (Nodes.ofTree t).ancestors 29 ∧
          (Nodes.ofTree t).isBlocked 13 = false ∧ h.loop = 8 ∧
          b.isHeaderCapture h 13 = false))) = true := by
    decide +kernel
  obtain ⟨t, hparse, hrun⟩ := okAnd_iff.1 hrun
  obtain ⟨b, hb, hrun⟩ := okAnd_iff.1 hrun
  obtain ⟨h, hh, hrun⟩ := (Option.any_eq_true _ _).1 hrun
  obtain ⟨hf, hsuper, hin, hblocked, hloop, hhead⟩ := of_decide_eq_true hrun
  obtain ⟨hexact, hwrap⟩ := @blockers_exact _ _ _ 13 _ hparse hf rfl
  have hnot := mt hexact.2 (Bool.eq_false_iff.1 hblocked)
  obtain ⟨r, hr⟩ := (hwrap _ b [] b #[] h rfl hb rfl rfl hloop hhead).2.2 hnot
  exact ⟨t, b, h, r, hparse, hb, hsuper, .of_mem_ancestors (List.mem_cons_of_mem _ hin), hnot, hh,
    hloop, hr⟩

/-- A class in the body, with a field that has a `super` of its own. -/
def superInField : List Char :=
  "for (const x of xs) \x7b f(() => x); class A extends B \x7b y = super.z; \x7d \x7d".toList

theorem isBlocked_superInField : ∃ t form, Grammar.parse superInField = .ok t ∧
    (Nodes.ofTree t).form? 1 = some form ∧ form.loopBody? = some 6 ∧
    (Nodes.ofTree t).isBlocked 6 = true ∧ ¬(Nodes.ofTree t).Changes 6 := by
  have hrun : okAnd (Grammar.parse superInField) (fun t => decide (
      (Nodes.ofTree t).form? 1 = some (.forEach .values 2 5 6) ∧
      (Nodes.ofTree t).isBlocked 6 = true ∧
      (Nodes.ofTree t).form? 12 = some (.classBody .declaration (some 13) (some 14) [15]) ∧
      (Nodes.ofTree t).form? 15 = some (.field 16 (some 17) false false) ∧
      (Nodes.ofTree t).form? 17 = some (.member 18 19 false false) ∧
      (Nodes.ofTree t).parent? 18 = some 17 ∧ (Nodes.ofTree t).parent? 17 = some 15 ∧
      (Nodes.ofTree t).parent? 15 = some 12 ∧ 6 ∈ (Nodes.ofTree t).ancestors 15 ∧
      ∀ i < (Nodes.ofTree t).size, ∀ form ∈ (Nodes.ofTree t).form? i,
        form.suspends = false ∧ (form = .super → i = 18))) = true := by
    decide +kernel
  obtain ⟨t, hparse, hrun⟩ := okAnd_iff.1 hrun
  obtain ⟨hf, hblocked, hclass, hfield, hmember, hp, hp', hp'', hin, hall⟩ :=
    of_decide_eq_true hrun
  refine ⟨t, _, hparse, hf, rfl, hblocked, ?_⟩
  rintro (⟨-, hs, hsuspends, -, -⟩ | ⟨-, hs, hprovider, hout⟩)
  · rw [(hall _ (Nodes.lt_size_of_form? hs) _ hs).1] at hsuspends
    cases hsuspends
  · obtain rfl := (hall _ (Nodes.lt_size_of_form? hs) _ hs).2 rfl
    have hhome : (Nodes.ofTree t).Provider 15 18 := by
      refine .up hp (fun hprovides => ?_) (.here hp' (.field hfield hp'' hclass (by decide)))
      cases hprovides with
      | function hf => cases hmember.symm.trans hf
      | program h => cases h
      | field hf => cases hmember.symm.trans hf
    exact hout (hprovider.unique hhome ▸ .of_mem_ancestors (List.mem_cons_of_mem _ hin))

end LoopClosure
