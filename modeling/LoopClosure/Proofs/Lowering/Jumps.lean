import LoopClosure.Proofs.Lowering.Crossing
import LoopClosure.Proofs.Lowering.Target
import Mathlib.Data.List.Nodup

/-!
# Jumps keep their targets

A jump whose target lies outside of its innermost wrapped body is rewritten, and made again behind
the call of the last wrap on the way to its target, where it ends at the same statement
(`keeps_targets_iff`). The one exception is a jump that is itself a wrapped body, which stays
as it is.
-/

namespace LoopClosure

open Syntax Syntax.Nodes

/-- The statement of a jump, without its semicolon. -/
def Syntax.JumpKind.text (kind : JumpKind) (label : Option String) : String :=
  (match kind with
    | .toEnd => "break"
    | .toNext => "continue") ++ (label.map (" " ++ ·)).getD ""

namespace Relay

/-- The label of a `break`, if there is one, is a name. -/
def Named (r : Relay) : Prop := r ≠ .break_ (some "")

theorem flagKey_injective {r r' : Relay} (hr : r.Named) (hr' : r'.Named)
    (h : r.flagKey = r'.flagKey) : r = r' := by
  have hl := congrArg String.toList h
  cases r with
  | break_ label =>
    cases r' with
    | break_ label' =>
      cases label with
      | none =>
        cases label' with
        | none => rfl
        | some name =>
          simp only [flagKey, String.toList_append] at hl
          have hname : name = "" := String.toList_eq_nil_iff.1 (by simpa using hl)
          exact absurd (by rw [hname]) hr'
      | some name =>
        cases label' with
        | none =>
          simp only [flagKey, String.toList_append] at hl
          have hname : name = "" := String.toList_eq_nil_iff.1 (by simpa using hl)
          exact absurd (by rw [hname]) hr
        | some name' =>
          simp only [flagKey, String.toList_append, List.append_cancel_left_eq,
            String.toList_inj] at hl
          rw [hl]
    | _ => cases label <;> simp [flagKey] at hl
  | continue_ label =>
    cases r' with
    | break_ label' => cases label' <;> simp [flagKey] at hl
    | continue_ label' =>
      simp only [flagKey, String.toList_append, List.append_cancel_left_eq,
        String.toList_inj] at hl
      rw [hl]
    | _ => simp [flagKey] at hl
  | _ =>
    cases r' with
    | break_ label' => cases label' <;> simp [flagKey] at hl
    | continue_ label' => simp [flagKey] at hl
    | _ => first | rfl | simp [flagKey] at hl

variable {n : Names} {r : Relay} {kind : JumpKind} {label : Option String} {flag : String}

/-- Every check tests the flag of its relay. -/
theorem exists_checkText {handsOn : Bool} {c : String} (h : r.check? n handsOn = some c) :
    ∃ flag action, n.permanent? r.flagKey = some flag ∧ c = checkText flag action := by
  obtain ⟨flag, hflag, h⟩ := Option.bind_eq_some_iff.1 h
  refine ⟨flag, ?_⟩
  cases handsOn with
  | true =>
    rw [if_pos rfl] at h
    split at h
    · obtain ⟨value, -, h⟩ := Option.bind_eq_some_iff.1 h
      exact ⟨_, hflag, (Option.some.inj h).symm⟩
    · exact ⟨_, hflag, (Option.some.inj h).symm⟩
  | false =>
    rw [if_neg Bool.false_ne_true] at h
    cases r with
    | break_ label => cases label <;> exact ⟨_, hflag, (Option.some.inj h).symm⟩
    | returnPrimitive =>
      obtain ⟨value, -, h⟩ := Option.bind_eq_some_iff.1 h
      exact ⟨_, hflag, (Option.some.inj h).symm⟩
    | returnValue =>
      obtain ⟨value, -, h⟩ := Option.bind_eq_some_iff.1 h
      obtain ⟨caught, -, h⟩ := Option.bind_eq_some_iff.1 h
      exact ⟨_, hflag, (Option.some.inj h).symm⟩
    | _ => exact ⟨_, hflag, (Option.some.inj h).symm⟩

/-- A jump is handed on by a check that only returns. -/
theorem check?_true_of_ofJump? (hr : ofJump? kind label = some r)
    (hflag : n.permanent? r.flagKey = some flag) :
    r.check? n true = some (forwardText flag none) := by
  refine check?_handsOn hflag ?_ ?_ <;>
    · cases kind <;> cases label <;> cases hr <;> simp [isValued]

/-- A jump is made by a check that takes the flag back. -/
theorem check?_false_of_ofJump? (hr : ofJump? kind label = some r)
    (hflag : n.permanent? r.flagKey = some flag) :
    r.check? n false = some (jumpText flag (kind.text label)) := by
  cases kind with
  | toEnd =>
    cases hr
    cases label with
    | none =>
      rw [check?, hflag]
      rfl
    | some name =>
      rw [check?, hflag]
      simp [JumpKind.text, ← String.append_assoc]
  | toNext =>
    cases label with
    | none => cases hr
    | some name =>
      cases hr
      rw [check?, hflag]
      simp [JumpKind.text, ← String.append_assoc]

end Relay

theorem split_of_forall₂ {α β : Type} {R : α → β → Prop} {pre post : List α} {a : α} {bs : List β}
    (h : List.Forall₂ R (pre ++ a :: post) bs) : ∃ front b back, bs = front ++ b :: back ∧ R a b ∧
      ∀ c ∈ front ++ back, ∃ a' ∈ pre ++ post, R a' c := by
  induction pre generalizing bs with
  | nil =>
    cases h with
    | @cons _ b _ bs hab hrest =>
      refine ⟨[], b, bs, rfl, hab, fun c hc => ?_⟩
      obtain ⟨a', ha', hR⟩ := Lowering.exists_of_forall₂ hrest.flip hc
      exact ⟨a', ha', hR⟩
  | cons x pre ih =>
    cases h with
    | @cons _ y _ bs hxy hrest =>
      obtain ⟨front, b, back, rfl, hab, hall⟩ := ih hrest
      refine ⟨y :: front, b, back, rfl, hab, fun c hc => ?_⟩
      rcases List.mem_cons.1 hc with rfl | hc
      · exact ⟨x, List.mem_cons_self, hxy⟩
      · obtain ⟨a', ha', hR⟩ := hall c hc
        exact ⟨a', List.mem_cons_of_mem _ ha', hR⟩

namespace Lowering

variable {l : Lowering} {i k p : Nat} {r : Relay} {s jump target : NodeId} {flag text : String}
  {kind : JumpKind} {label : Option String}

/-- Of the checks behind the call of wrap `k`, `text` is the only one of its flag. -/
def OnlyCheck (l : Lowering) (k : Nat) (flag text : String) : Prop :=
  ∃ front back, (l.exit k).checks = front ++ text :: back ∧
    ∀ c ∈ front ++ back, ∃ other action, other ≠ flag ∧ c = checkText other action

/-- The label of a relay is a label of the source. -/
theorem exists_label_of_cameFrom (h : l.CameFrom r s k) {label : String}
    (hl : r.label? = some label) : ∃ ident, l.nodes.identifier? ident = some label := by
  induction h with
  | jump _ hr =>
    unfold Nodes.jumpRelay? at hr
    split at hr
    · next kind ident _ =>
      have hname : ident.bind l.nodes.identifier? = some label := by
        generalize ident.bind l.nodes.identifier? = name at hr
        cases kind <;> cases name <;> cases hr <;> exact hl
      obtain ⟨x, -, hx⟩ := Option.bind_eq_some_iff.1 hname
      exact ⟨x, hx⟩
    · cases hr
  | returns _ hr =>
    unfold Nodes.returnRelay? at hr
    split at hr
    · split at hr
      · cases hr
        cases hl
      · cases hr
        unfold Relay.ofArgument at hl
        split at hl <;> cases hl
    · cases hr
  | handedOn _ _ ih => exact ih

theorem named_of_cameFrom (hns : l.nodes.WellFormed) (h : l.CameFrom r s k) : r.Named := by
  rintro rfl
  obtain ⟨x, hx⟩ := exists_label_of_cameFrom h rfl
  exact hns.name_ne hx rfl

theorem Outcome.onlyCheck (ho : l.Outcome) (hk : k < l.wraps.size) (hr : r ∈ (l.exit k).relays)
    (hflag : l.draft.names.permanent? r.flagKey = some flag)
    (htext : r.check? l.draft.names (l.forwardTo? k r).isSome = some text) :
    l.OnlyCheck k flag text := by
  have hnamed {r : Relay} (hr : r ∈ (l.exit k).relays) : r.Named := by
    obtain ⟨s, hs⟩ := (ho.mem_relays_iff hk).1 hr
    exact named_of_cameFrom ho.nested.nodes hs
  obtain ⟨pre, post, hrelays⟩ := List.append_of_mem hr
  have hchecked := ho.checked k hk
  have hnodup := ho.nodup k
  unfold Checked at hchecked
  rw [hrelays] at hchecked hnodup
  obtain ⟨front, b, back, hchecks, hb, hall⟩ := split_of_forall₂ hchecked
  obtain rfl : b = text := Option.some.inj (hb.symm.trans htext)
  refine ⟨front, back, hchecks, fun c hc => ?_⟩
  obtain ⟨r', hr', hc⟩ := hall c hc
  obtain ⟨other, action, hother, rfl⟩ := Relay.exists_checkText hc
  refine ⟨other, action, ?_, rfl⟩
  rintro rfl
  have hmem : r' ∈ (l.exit k).relays := by
    rw [hrelays]
    simp only [List.mem_append, List.mem_cons] at hr' ⊢
    tauto
  obtain rfl := Relay.flagKey_injective (hnamed hmem) (hnamed hr)
    (ho.names.injective hother hflag)
  rw [List.nodup_middle] at hnodup
  exact (List.nodup_cons.1 hnodup).1 hr'

/-! ## On the way to the target -/

/-- From wrap to wrap, the relay of a jump to `target` is handed on up to the first wrap whose
parent has the target in its body, or that has no parent. There the jump is made, and ends at
`target`. -/
inductive Replayed (l : Lowering) (kind : JumpKind) (label : Option String) (target : NodeId)
    (flag : String) : Nat → Prop where
  | here {k : Nat} {w : Wrap} (hw : l.wraps[k]? = some w)
    (hlast : ∀ p o, l.parent? k = some p → l.wraps[p]? = some o → l.nodes.Inside o.body target)
    (hcheck : l.OnlyCheck k flag (jumpText flag (kind.text label)))
    (htarget : l.nodes.TargetFrom kind label target w.loop) : Replayed l kind label target flag k
  | handedOn {k p : Nat} {o : Wrap} (hp : l.parent? k = some p) (ho : l.wraps[p]? = some o)
    (hout : ¬l.nodes.Inside o.body target) (hcheck : l.OnlyCheck k flag (forwardText flag none))
    (h : Replayed l kind label target flag p) : Replayed l kind label target flag k

/-- Above a body that does not hold the target, the target is the same. -/
theorem Nested.targetFrom_loop (hn : l.Nested) {w : Wrap} (hw : l.wraps[k]? = some w)
    (hin : l.nodes.Inside w.body s) (hnot : ¬l.nodes.Inside w.body target)
    (ht : l.nodes.TargetFrom kind label target s) :
    l.nodes.TargetFrom kind label target w.loop ∧ l.nodes.Inside target w.loop := by
  have hbody := hn.wraps.parent?_body hn.nodes hw
  have htl : l.nodes.Inside target w.loop := hn.inside_loop hw hin ht.inside hnot
  refine ⟨ht.above ((Inside.of_parent hbody).trans hin) fun hlt => ?_, htl⟩
  exact hlt.antisymm hn.nodes htl

/-- The relay of a jump is handed on exactly if the target lies outside of the next body, too. -/
theorem Nested.crosses_iff (hn : l.Nested) {depth : NodeId → Nat} (hd : l.nodes.IsDepth depth)
    {w o : Wrap} (hw : l.wraps[k]? = some w) (ho : l.wraps[p]? = some o)
    (hin : l.nodes.Inside o.body w.loop) (hr : Relay.ofJump? kind label = some r)
    (ht : l.nodes.TargetFrom kind label target w.loop) (hpos : 0 < depth w.loop) :
    crosses l.nodes w.loop o.body r = true ↔ ¬l.nodes.Inside o.body target := by
  obtain ⟨lform, hlf, hlbody⟩ := hn.wraps.loop hw
  obtain ⟨oform, hof, hobody⟩ := hn.wraps.loop ho
  have hisLoop : lform.isLoop = true := by rw [Form.isLoop, hlbody]; rfl
  have hisLoop' : oform.isLoop = true := by rw [Form.isLoop, hobody]; rfl
  have hlabeled (name : String) (hlabel : label = some name)
      (hr : r = .break_ (some name) ∨ r = .continue_ name) :
      crosses l.nodes w.loop o.body r = true ↔ ¬l.nodes.Inside o.body target :=
    Nodes.crosses_iff hn.nodes hr (hlabel ▸ ht) hlf hisLoop hd hpos hin
      (hn.wraps.parent?_body hn.nodes ho) hof hisLoop'
  cases label with
  | some name =>
    cases kind <;>
      · cases hr
        exact hlabeled name rfl (by simp)
  | none =>
    cases kind with
    | toNext => cases hr
    | toEnd =>
      cases hr
      -- A `break` without label ends the loop itself.
      obtain rfl : target = w.loop := ht.unique (.here hlf (by
        cases lform <;> first | rfl | cases hisLoop))
      simp [crosses, hin]

theorem Outcome.replayed (ho : l.Outcome) {depth : NodeId → Nat} (hd : l.nodes.IsDepth depth)
    (hr : Relay.ofJump? kind label = some r)
    (hflag : l.draft.names.permanent? r.flagKey = some flag) {w : Wrap}
    (hw : l.wraps[k]? = some w) (hc : l.Carried k r)
    (ht : l.nodes.TargetFrom kind label target w.loop) (hpos : 0 < depth w.loop) :
    l.Replayed kind label target flag k := by
  -- Induction on the loop: that of the parent comes earlier in the table.
  induction hloop : w.loop using Nat.strongRecOn generalizing k w with
  | ind _ ih =>
    subst hloop
    have hk : k < l.wraps.size := (Array.getElem?_eq_some_iff.1 hw).1
    have hmem := (ho.relays k hk r).2 hc
    have hhere (hnone : l.forwardTo? k r = none) :
        l.OnlyCheck k flag (jumpText flag (kind.text label)) :=
      ho.onlyCheck hk hmem hflag (by
        rw [hnone]
        exact Relay.check?_false_of_ofJump? hr hflag)
    cases hp : l.parent? k with
    | none =>
      refine .here hw (fun p o hp' => ?_) (hhere ?_) ht
      · rw [hp] at hp'
        cases hp'
      · simp [forwardTo?, hw, hp]
    | some p =>
      obtain ⟨-, o, hpo, hin, -⟩ := ho.nested.parent hw hp
      have hcross := ho.nested.crosses_iff hd hw hpo hin hr ht hpos
      by_cases hout : l.nodes.Inside o.body target
      · refine .here hw (fun p' o' hp' ho' => ?_) (hhere ?_) ht
        · obtain rfl : p = p' := Option.some.inj (hp.symm.trans hp')
          obtain rfl : o = o' := Option.some.inj (hpo.symm.trans ho')
          exact hout
        · simp only [forwardTo?, hw, hp, hpo, Option.bind_eq_bind, Option.bind_some]
          rw [if_neg fun h => hcross.1 h hout]
      · have hf : l.forwardTo? k r = some p := by
          simp only [forwardTo?, hw, hp, hpo, Option.bind_eq_bind, Option.bind_some]
          rw [if_pos (hcross.2 hout)]
        obtain ⟨ht', htl⟩ := ho.nested.targetFrom_loop hpo hin hout ht
        have hbody := ho.nested.wraps.parent?_body ho.nested.nodes hpo
        have hpos' := ht.depth_pos hd ho.nested.nodes hpos ((Inside.of_parent hbody).trans hin) htl
        have hlt : o.loop < w.loop := Nat.lt_of_lt_of_le
          (ho.nested.wraps.loop_lt_body ho.nested.nodes hpo) (hin.le ho.nested.nodes)
        refine .handedOn hp hpo hout (ho.onlyCheck hk hmem hflag ?_)
          (ih o.loop hlt hpo (.handedOn hc hf) ht' hpos' rfl)
        rw [hf]
        exact Relay.check?_true_of_ofJump? hr hflag

/-! ## Which jumps are rewritten -/

/-- The body of a wrap is the innermost wrapped body around a node. -/
structure Innermost (l : Lowering) (w : Wrap) (s : NodeId) : Prop where
  inside : l.nodes.Inside w.body s
  least : ∀ (k : Nat) (v : Wrap), l.wraps[k]? = some v → l.nodes.Inside v.body s →
    l.nodes.Inside v.body w.body

theorem isWrappedBody_iff {id : NodeId} :
    l.isWrappedBody id = true ↔ ∃ (k : Nat) (v : Wrap), l.wraps[k]? = some v ∧ v.body = id := by
  rw [isWrappedBody, Array.any_eq_true]
  constructor
  · rintro ⟨k, hk, hbody⟩
    exact ⟨k, l.wraps[k], Array.getElem?_eq_getElem hk, of_decide_eq_true hbody⟩
  · rintro ⟨k, v, hv, hbody⟩
    obtain ⟨hk, rfl⟩ := Array.getElem?_eq_some_iff.1 hv
    exact ⟨k, hk, decide_eq_true hbody⟩

theorem mem_sitesOf_of_mem {kind : SiteKind} {w : Wrap} (hw : l.wraps[i]? = some w)
    (h : (kind, s) ∈ l.bound.sites l.isWrappedBody w.body) : s ∈ l.sitesOf i kind := by
  refine List.mem_map.2 ⟨(kind, s), List.mem_filter.2 ⟨?_, decide_eq_true rfl⟩, rfl⟩
  unfold sites
  rw [hw]
  exact h

theorem Innermost.unwrapped {w : Wrap} (hi : l.Innermost w s) (hn : l.Nested) :
    Bound.Unwrapped l.nodes l.isWrappedBody w.body w.body s := by
  intro x hx hxs hxb
  refine Bool.eq_false_iff.2 fun hwrapped => ?_
  obtain ⟨k, v, hv, rfl⟩ := isWrappedBody_iff.1 hwrapped
  exact hxb ((hi.least k v hv hxs).antisymm hn.nodes hx)

/-- A jump out of its innermost wrapped body is a site, unless it is the body. -/
theorem Nested.mem_sitesOf_jump (hn : l.Nested) {w : Wrap} (hw : l.wraps[i]? = some w)
    (hi : l.Innermost w jump) {label : Option NodeId}
    (hf : l.nodes.form? jump = some (.jump kind label))
    (ht : l.nodes.TargetFrom kind (label.bind l.nodes.identifier?) target jump)
    (hne : w.body ≠ jump) (hout : ¬l.nodes.Inside w.body target) : jump ∈ l.sitesOf i .jump := by
  obtain ⟨depth, hd⟩ := hn.nodes.shallow
  obtain ⟨n, hget, -⟩ := Option.map_eq_some_iff.1 hf
  have hsize : jump < l.nodes.size := (Array.getElem?_eq_some_iff.1 hget).1
  -- On the way from the jump to its target there is no function, and no class.
  have hway (x : NodeId) (form : Form NodeId) (hx : l.nodes.Inside w.body x)
      (hxj : l.nodes.Inside x jump) (hxne : x ≠ jump) (hxf : l.nodes.form? x = some form) :
      form.isFunction = false ∧ form.isClass = false := by
    have htx : l.nodes.Inside target x := by
      rcases ht.inside.comparable hxj with htx | hxt
      · exact htx
      · exact absurd (hx.trans hxt) hout
    obtain ⟨form', hf', hfun⟩ := (ht.above hxj fun hyt => hyt.antisymm hn.nodes htx).exists_form
    obtain rfl : form = form' := Option.some.inj (hxf.symm.trans hf')
    refine ⟨hfun, ?_⟩
    rcases hxj.eq_or_child with rfl | ⟨c, hp, hc⟩
    · exact absurd rfl hxne
    · have hpos := ht.depth_pos hd hn.nodes (hd.jump hf) hc (htx.trans (.of_parent hp))
      exact Form.isClass_of_isSealed (hd.step hp hxf hfun hpos).1
  have harrow : ¬Bound.ArrowTo l.nodes w.body jump := by
    rintro ⟨x, form, hx, hxj, hne, hxf, harrow⟩
    have hfun := (hway x form hx hxj hne hxf).1
    cases form <;> first | cases harrow | cases hfun
  have hout' : false = true ↔ false = true ∨ Bound.ArrowTo l.bound.nodes w.body jump :=
    ⟨.inl, fun h => h.elim id fun h => absurd h harrow⟩
  refine mem_sitesOf_of_mem hw (Bound.mem_sitesWithin_of hn.nodes hi.inside
    (Nat.lt_of_lt_of_le hsize (Nat.le_add_left _ _)) (hi.unwrapped hn) (Bound.leads_of hn.nodes hway)
    hout' hf ?_)
  · have hleaves := (leavesBody_iff hn.nodes hf ht).2 ⟨hne, hi.inside, hout⟩
    show (if !false && Bound.leavesBody l.nodes jump kind label w.body then some SiteKind.jump
      else none) = some .jump
    rw [hleaves]
    rfl

theorem mem_allSites (hs : s ∈ l.allSites) : ∃ (k : Nat) (v : Wrap) (kind : SiteKind),
    l.wraps[k]? = some v ∧ (kind, s) ∈ l.bound.sites l.isWrappedBody v.body := by
  obtain ⟨k, -, hs⟩ := List.mem_flatMap.1 hs
  obtain ⟨⟨kind, s'⟩, hsite, rfl⟩ := List.mem_map.1 hs
  unfold sites at hsite
  split at hsite
  · cases hsite
  · next v hv => exact ⟨k, v, kind, hv, hsite⟩

theorem exists_parent?_of_inside {ns : Nodes} {a p : NodeId} (hp : ns.parent? a = some p)
    (hi : ns.Inside a s) : ∃ q, ns.parent? s = some q := by
  cases hi with
  | refl => exact ⟨p, hp⟩
  | up hq _ => exact ⟨_, hq⟩

/-- What is replaced where a jump begins is the jump, which is then out of a body and not the body
itself. -/
theorem Outcome.of_replaced (ho : l.Outcome) {w : Wrap} (hw : l.wraps[i]? = some w)
    (hi : l.Innermost w jump) {n : Node} {label : Option NodeId}
    (hn : l.nodes.get? jump = some n) (hform : n.form = .jump kind label)
    (ht : l.nodes.TargetFrom kind (label.bind l.nodes.identifier?) target jump) {e : Edit}
    (he : e ∈ l.draft.edits.edits.toList) (hr : e.isReplacement = true)
    (hstart : e.start = n.start) : w.body ≠ jump ∧ ¬l.nodes.Inside w.body target := by
  have hf : l.nodes.form? jump = some (.jump kind label) := by
    rw [form?, hn, Option.map_some, hform]
  have hns := ho.nested.nodes
  obtain ⟨s', hall, m, hm, hse⟩ := (ho.edits e he).site hr
  obtain ⟨k, v, site, hv, hs⟩ := mem_allSites hall
  obtain ⟨hin, hwrapped, -, inArrow, form, hsf, hsite, -⟩ := Bound.mem_sitesWithin hns hs
  obtain ⟨q, hq⟩ := exists_parent?_of_inside (ho.nested.wraps.parent?_body hns hv) hin
  have hmform : m.form = form := by
    have hmf : l.nodes.form? s' = some m.form := by rw [form?, hm, Option.map_some]
    exact Option.some.inj (hmf.symm.trans hsf)
  obtain rfl : s' = jump := Bound.eq_of_start_eq hns hm hn (by rw [hform]; rfl) hq
    (hmform ▸ Bound.form_of_siteKind? hsite) (hse.symm.trans hstart)
  obtain rfl : form = .jump kind label := Option.some.inj (hsf.symm.trans hf)
  have hleaves : Bound.leavesBody l.nodes s' kind label v.body = true := by
    by_contra hno
    have hnone : (if !inArrow && Bound.leavesBody l.nodes s' kind label v.body then
        some SiteKind.jump else none) = some site := hsite
    rw [Bool.eq_false_iff.2 hno, Bool.and_false] at hnone
    cases hnone
  obtain ⟨hne, -, hout⟩ := (leavesBody_iff hns hf ht).1 hleaves
  have hbody : v.body = w.body := by
    have hvw := hi.least k v hv hin
    by_contra hvne
    have := hwrapped w.body hvw hi.inside (Ne.symm hvne)
    rw [isWrappedBody_iff.2 ⟨i, w, hw, rfl⟩] at this
    cases this
  exact hbody ▸ ⟨hne, hout⟩

/-- Something else stands for a node. -/
def IsReplaced (l : Lowering) (n : Node) : Prop :=
  ∃ text, ⟨.replace, n.start, n.stop, text, true⟩ ∈ l.draft.edits.edits

/-- The jump `n` in the body of wrap `i` keeps its target: it is rewritten exactly if the target
lies outside of the body. A `continue` of the loop becomes a `return`; any other jump raises a flag,
and is made again on the way to the target. -/
structure KeepsTarget (l : Lowering) (i : Nat) (w : Wrap) (n : Node) (kind : JumpKind)
    (label : Option String) (target : NodeId) : Prop where
  replaced : l.IsReplaced n ↔ ¬l.nodes.Inside w.body target
  returns : ¬l.nodes.Inside w.body target → kind = .toNext → label = none →
    ⟨.replace, n.start, n.stop, "return;", true⟩ ∈ l.draft.edits.edits
  raises : ¬l.nodes.Inside w.body target → ∀ r, Relay.ofJump? kind label = some r →
    ∃ flag, l.draft.names.permanent? r.flagKey = some flag ∧
      ⟨.replace, n.start, n.stop, raiseText flag, true⟩ ∈ l.draft.edits.edits ∧
      l.Replayed kind label target flag i

/-- A jump keeps its target exactly if it is not itself a wrapped body. -/
theorem Outcome.keepsTarget_iff (ho : l.Outcome) {w : Wrap} (hw : l.wraps[i]? = some w)
    (hi : l.Innermost w jump) {n : Node} {label : Option NodeId}
    (hn : l.nodes.get? jump = some n) (hform : n.form = .jump kind label)
    (ht : l.nodes.TargetFrom kind (label.bind l.nodes.identifier?) target jump) :
    l.KeepsTarget i w n kind (label.bind l.nodes.identifier?) target ↔ w.body ≠ jump := by
  have hf : l.nodes.form? jump = some (.jump kind label) := by
    rw [form?, hn, Option.map_some, hform]
  have hns := ho.nested.nodes
  constructor
  · rintro h rfl
    have hout : ¬l.nodes.Inside w.body target := by
      intro hin
      have heq := hin.antisymm hns ht.inside
      obtain ⟨form, hf', htarget⟩ := ht.exists_target_form
      rw [← heq, hf, Option.some.injEq] at hf'
      rw [← hf', isTarget_jump] at htarget
      cases htarget
    obtain ⟨text, he⟩ := h.replaced.2 hout
    exact (ho.of_replaced hw hi hn hform ht (Array.mem_toList_iff.2 he) rfl rfl).1 rfl
  · intro hne
    have hi' : i < l.wraps.size := (Array.getElem?_eq_some_iff.1 hw).1
    have hrewrites (hout : ¬l.nodes.Inside w.body target) :
        l.Rewrites n (Relay.ofJump? kind (label.bind l.nodes.identifier?)) :=
      ho.rewrites i hi' jump (ho.nested.mem_sitesOf_jump hw hi hf ht hne hout) n kind label hn hform
    refine ⟨⟨?_, fun hout => ?_⟩, fun hout hkind hlabel => ?_, fun hout r hr => ?_⟩
    · rintro ⟨text, he⟩
      exact (ho.of_replaced hw hi hn hform ht (Array.mem_toList_iff.2 he) rfl rfl).2
    · have h := hrewrites hout
      cases hr : Relay.ofJump? kind (label.bind l.nodes.identifier?) with
      | none =>
        rw [hr] at h
        exact ⟨_, h⟩
      | some r =>
        rw [hr] at h
        obtain ⟨flag, -, he⟩ := h
        exact ⟨_, he⟩
    · have h := hrewrites hout
      rw [hkind, hlabel] at h
      exact h
    · have h := hrewrites hout
      rw [hr] at h
      obtain ⟨flag, hflag, he⟩ := h
      obtain ⟨depth, hd⟩ := hns.shallow
      obtain ⟨ht', htl⟩ := ho.nested.targetFrom_loop hw hi.inside hout ht
      have hbody := ho.nested.wraps.parent?_body hns hw
      have hpos := ht.depth_pos hd hns (hd.jump hf) ((Inside.of_parent hbody).trans hi.inside) htl
      have hsite := ho.nested.mem_sitesOf_jump hw hi hf ht hne hout
      have hrelay : l.nodes.jumpRelay? jump = some r := by
        rw [jumpRelay?, hf]
        exact hr
      exact ⟨flag, hflag, he,
        ho.replayed hd hr hflag hw (carried_iff_cameFrom.2 ⟨jump, .jump hsite hrelay⟩) ht' hpos⟩

/-- The jump lies in the body of wrap `i`, in no wrapped body inside, and has a target. -/
def jumpsFrom (l : Lowering) (i : Nat) (jump : NodeId) : Bool :=
  match l.wraps[i]?, l.nodes.get? jump with
  | some w, some n =>
    match n.form with
    | .jump kind label =>
      (jump :: l.nodes.ancestors jump).elem w.body &&
        l.wraps.all (fun v => (w.body :: l.nodes.ancestors w.body).elem v.body) &&
        (l.nodes.targetWithin kind (label.bind l.nodes.identifier?) l.nodes.size jump).isSome
    | _ => false
  | _, _ => false

theorem exists_target_of_jumpsFrom (h : l.jumpsFrom i jump = true) :
    ∃ w n kind label target, l.wraps[i]? = some w ∧ l.Innermost w jump ∧
      l.nodes.get? jump = some n ∧ n.form = .jump kind label ∧
        l.nodes.TargetFrom kind (label.bind l.nodes.identifier?) target jump := by
  unfold jumpsFrom at h
  split at h
  · next w n hw hn =>
    split at h
    · next kind label hform =>
      rw [Bool.and_eq_true, Bool.and_eq_true, List.elem_iff, Array.all_eq_true] at h
      obtain ⟨⟨hin, hall⟩, htarget⟩ := h
      obtain ⟨target, htarget⟩ := Option.isSome_iff_exists.1 htarget
      refine ⟨w, n, kind, label, target, hw, ⟨?_, fun k v hv _ => ?_⟩, hn, hform,
        targetFrom_of_targetWithin htarget⟩
      · exact .of_mem_ancestors hin
      · obtain ⟨hk, rfl⟩ := Array.getElem?_eq_some_iff.1 hv
        exact .of_mem_ancestors (List.elem_iff.1 (hall k hk))
    · cases h
  · cases h

end Lowering

/-- Jumps keep their targets exactly if none of them is itself a wrapped body. -/
theorem keeps_targets_iff {file : String} {source : List Char} {options : Options} {out : Lowered}
    (h : compile file source options = .ok out) : ∃ l, Compiles file source options l out ∧
      ∀ i w jump n kind label target, l.wraps[i]? = some w → l.Innermost w jump →
        l.nodes.get? jump = some n → n.form = .jump kind label →
        l.nodes.TargetFrom kind (label.bind l.nodes.identifier?) target jump →
        (l.KeepsTarget i w n kind (label.bind l.nodes.identifier?) target ↔ w.body ≠ jump) := by
  obtain ⟨l, hl, ho⟩ := compile_outcome h
  exact ⟨l, hl, fun i w jump n kind label target hw hi hn hform ht =>
    ho.keepsTarget_iff hw hi hn hform ht⟩

/-- A jump out of two wrapped bodies. -/
def breakOuter : List Char :=
  "a: for (const x of xs) { for (const y of ys) { f(() => x + y); break a; } }".toList

theorem keeps_targets_breakOuter : ∃ l out, compile "" breakOuter {} = .ok out ∧
    Compiles "" breakOuter {} l out ∧ ∃ w jump n kind label target, l.wraps[1]? = some w ∧
      l.Innermost w jump ∧ l.nodes.get? jump = some n ∧ n.form = .jump kind label ∧
      l.nodes.TargetFrom kind (label.bind l.nodes.identifier?) target jump ∧
      l.KeepsTarget 1 w n kind (label.bind l.nodes.identifier?) target := by
  have hrun : okAnd (lowerSource "" breakOuter {}) (fun l => okAnd l.draft.apply (fun _ => true) &&
      (List.range l.nodes.size).any fun jump =>
        l.jumpsFrom 1 jump && (l.wraps[1]?.map (·.body) != some jump)) = true := by
    decide +kernel
  obtain ⟨l', out, hout, hl', hcheck⟩ := exists_compile hrun
  obtain ⟨l, hl, hiff⟩ := keeps_targets_iff hout
  obtain rfl : l = l' := Except.ok.inj (hl.lowered.symm.trans hl')
  obtain ⟨jump, -, hcheck⟩ := List.any_eq_true.1 hcheck
  rw [Bool.and_eq_true, bne_iff_ne] at hcheck
  obtain ⟨hjump, hbody⟩ := hcheck
  obtain ⟨w, n, kind, label, target, hw, hi, hn, hform, ht⟩ :=
    Lowering.exists_target_of_jumpsFrom hjump
  rw [hw, Option.map_some, Ne, Option.some.injEq] at hbody
  exact ⟨l, out, hout, hl, w, jump, n, kind, label, target, hw, hi, hn, hform, ht,
    (hiff 1 w jump n kind label target hw hi hn hform ht).2 hbody⟩

/-- The body of a wrapped loop is a jump. -/
def breakBody : List Char := "while (g(class X { m() { return X; } })) break;".toList

theorem not_keepsTarget_breakBody : ∃ l out, compile "" breakBody {} = .ok out ∧
    Compiles "" breakBody {} l out ∧ ∃ w jump n kind label target, l.wraps[0]? = some w ∧
      l.Innermost w jump ∧ l.nodes.get? jump = some n ∧ n.form = .jump kind label ∧
      l.nodes.TargetFrom kind (label.bind l.nodes.identifier?) target jump ∧
      ¬l.KeepsTarget 0 w n kind (label.bind l.nodes.identifier?) target := by
  have hrun : okAnd (lowerSource "" breakBody {}) (fun l => okAnd l.draft.apply (fun _ => true) &&
      (List.range l.nodes.size).any fun jump =>
        l.jumpsFrom 0 jump && (l.wraps[0]?.map (·.body) == some jump)) = true := by
    decide +kernel
  obtain ⟨l', out, hout, hl', hcheck⟩ := exists_compile hrun
  obtain ⟨l, hl, ho⟩ := compile_outcome hout
  obtain rfl : l = l' := Except.ok.inj (hl.lowered.symm.trans hl')
  obtain ⟨jump, -, hcheck⟩ := List.any_eq_true.1 hcheck
  rw [Bool.and_eq_true, beq_iff_eq] at hcheck
  obtain ⟨hjump, hbody⟩ := hcheck
  obtain ⟨w, n, kind, label, target, hw, hi, hn, hform, ht⟩ :=
    Lowering.exists_target_of_jumpsFrom hjump
  rw [hw, Option.map_some, Option.some.injEq] at hbody
  exact ⟨l, out, hout, hl, w, jump, n, kind, label, target, hw, hi, hn, hform, ht,
    fun h => (ho.keepsTarget_iff hw hi hn hform ht).1 h hbody⟩

end LoopClosure
