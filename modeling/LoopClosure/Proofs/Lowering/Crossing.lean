import LoopClosure.Proofs.Lowering.Outcome
import LoopClosure.Proofs.Lowering.Sites

/-!
# Relays and the functions around them

A wrap may lie in a function that lies in the body of another wrap. What it relays is then declared,
and a `return` replayed, by a wrap outside of that function, since parents are found by ranges
alone: relays stay in their functions exactly if no such wrap relays anything (`relays_stay_iff`).
-/

namespace LoopClosure

open Syntax Syntax.Nodes

def Relay.isReturn : Relay → Bool
  | .returnVoid | .returnPrimitive | .returnValue => true
  | _ => false

/-- The same functions lie around both nodes. -/
def Syntax.Nodes.SameFunction (ns : Nodes) (a b : NodeId) : Prop :=
  ∀ f form, ns.form? f = some form → form.isFunction = true → (ns.Inside f a ↔ ns.Inside f b)

namespace Lowering

variable {l : Lowering} {i j k : Nat} {f s : NodeId} {r : Relay}

/-- The loop of wrap `k` lies in a node. -/
def LiesIn (l : Lowering) (k : Nat) (f : NodeId) : Prop :=
  ∃ w, l.wraps[k]? = some w ∧ l.nodes.Inside f w.loop

/-- The loop of wrap `i` lies in the body of wrap `j`, and the function `f` between them. -/
structure Separated (l : Lowering) (i j : Nat) (f : NodeId) : Prop where
  isFunction : ∃ form, l.nodes.form? f = some form ∧ form.isFunction = true
  outer : ∃ w, l.wraps[j]? = some w ∧ l.nodes.Inside w.body f
  inner : l.LiesIn i f

/-- The relay `r` of wrap `k` comes from the jump or `return` `s`. -/
inductive CameFrom (l : Lowering) (r : Relay) (s : NodeId) : Nat → Prop where
  | jump {k : Nat} (hs : s ∈ l.sitesOf k .jump) (hr : l.nodes.jumpRelay? s = some r) :
    CameFrom l r s k
  | returns {k : Nat} (hs : s ∈ l.sitesOf k .returns) (hr : l.nodes.returnRelay? s = some r) :
    CameFrom l r s k
  | handedOn {i k : Nat} (h : CameFrom l r s i) (hf : l.forwardTo? i r = some k) : CameFrom l r s k

/-- The relay `r` of wrap `i` is met behind the call of wrap `k`: the flag is taken back there and
the jump made. -/
inductive ReplayedBy (l : Lowering) (r : Relay) (k : Nat) : Nat → Prop where
  | here (hf : l.forwardTo? k r = none) {text : String}
    (htext : r.check? l.draft.names false = some text) (hmem : text ∈ (l.exit k).checks) :
    ReplayedBy l r k k
  | handedOn {i p : Nat} (hf : l.forwardTo? i r = some p) (h : ReplayedBy l r k p) :
    ReplayedBy l r k i

/-- A variable is declared in a node: in front of the call of a wrap in the node. -/
def DeclaredIn (l : Lowering) (name : String) (f : NodeId) : Prop :=
  ∃ k, name ∈ l.declaredNames k ∧ l.LiesIn k f

/-- The relays of wrap `i` stay in the function `f`, out of wrap `j`. -/
structure StaysIn (l : Lowering) (i j : Nat) (f : NodeId) : Prop where
  kept : ∀ r ∈ (l.exit i).relays, l.forwardTo? i r ≠ some j
  replayed : ∀ r ∈ (l.exit i).relays, r.isReturn = true → ∃ k, l.ReplayedBy r k i ∧ l.LiesIn k f
  flags : ∀ r ∈ (l.exit i).relays, ∀ flag, l.draft.names.permanent? r.flagKey = some flag →
    l.DeclaredIn flag f
  values : ∀ r ∈ (l.exit i).relays, r.isValued = true → ∀ value,
    l.draft.names.permanent? "value" = some value → l.DeclaredIn value f

theorem carried_iff_cameFrom : l.Carried k r ↔ ∃ s, l.CameFrom r s k := by
  constructor
  · intro h
    induction h with
    | site hr =>
      rcases List.mem_append.1 hr with hr | hr
      · obtain ⟨s, hs, hr⟩ := List.mem_filterMap.1 hr
        exact ⟨s, .jump hs hr⟩
      · obtain ⟨s, hs, hr⟩ := List.mem_filterMap.1 hr
        exact ⟨s, .returns hs hr⟩
    | handedOn _ hf ih =>
      obtain ⟨s, hs⟩ := ih
      exact ⟨s, .handedOn hs hf⟩
  · rintro ⟨s, h⟩
    induction h with
    | jump hs hr => exact .site (List.mem_append_left _ (List.mem_filterMap.2 ⟨s, hs, hr⟩))
    | returns hs hr => exact .site (List.mem_append_right _ (List.mem_filterMap.2 ⟨s, hs, hr⟩))
    | handedOn _ hf ih => exact .handedOn ih hf

/-! ## Sites -/

theorem mem_sitesOf {kind : SiteKind} (hs : s ∈ l.sitesOf i kind) : ∃ w, l.wraps[i]? = some w ∧
    (kind, s) ∈ l.bound.sites l.isWrappedBody w.body := by
  obtain ⟨⟨kind', s'⟩, hfilter, rfl⟩ := List.mem_map.1 hs
  obtain ⟨hsite, hkind⟩ := List.mem_filter.1 hfilter
  obtain rfl : kind' = kind := of_decide_eq_true hkind
  unfold sites at hsite
  split at hsite
  · cases hsite
  · next w hw => exact ⟨w, hw, hsite⟩

theorem siteKind?_jump_or_returns {b : Bound} {body id : NodeId} {inArrow : Bool}
    {form : Form NodeId} {kind : SiteKind} (hkind : kind = .jump ∨ kind = .returns)
    (h : b.siteKind? body inArrow id form = some kind) :
    inArrow = false ∧ form.isFunction = false := by
  have hdec : kind ≠ .this ∧ kind ≠ .arguments ∧ kind ≠ .var := by
    rcases hkind with rfl | rfl <;> decide
  unfold Bound.siteKind? at h
  split at h
  · exact absurd (Option.some.inj h).symm hdec.1
  · split at h
    · exact absurd (Option.some.inj h).symm hdec.2.1
    · cases h
  · split at h
    · next hleaves =>
      rw [Bool.and_eq_true, Bool.not_eq_true'] at hleaves
      exact ⟨hleaves.1, rfl⟩
    · cases h
  · split at h
    · cases h
    · next harrow => exact ⟨Bool.eq_false_iff.2 harrow, rfl⟩
  · split at h
    · cases h
    · exact absurd (Option.some.inj h).symm hdec.2.2
  · cases h

/-- What lies around a node in a wrapped body, but not in the body, lies around the loop. -/
theorem Nested.inside_loop (hn : l.Nested) {w : Wrap} (hw : l.wraps[k]? = some w)
    (hs : l.nodes.Inside w.body s) (hf : l.nodes.Inside f s) (hnot : ¬l.nodes.Inside w.body f) :
    l.nodes.Inside f w.loop := by
  rcases hf.comparable hs with hfb | hbf
  · refine hfb.parent ?_ (hn.wraps.parent?_body hn.nodes hw)
    rintro rfl
    exact hnot .refl
  · exact absurd hbf hnot

/-- A jump or `return` that a body relays lies in the function of the loop. -/
theorem sameFunction_of_mem_sitesOf (hn : l.Nested) {kind : SiteKind}
    (hkind : kind = .jump ∨ kind = .returns) (hs : s ∈ l.sitesOf i kind) :
    ∃ w, l.wraps[i]? = some w ∧ l.nodes.SameFunction s w.loop := by
  obtain ⟨w, hw, hmem⟩ := mem_sitesOf hs
  obtain ⟨hin, -, hleads, inArrow, form, hf, hsite, hway⟩ := Bound.mem_sitesWithin hn.nodes hmem
  obtain ⟨harrow, hform⟩ := siteKind?_jump_or_returns hkind hsite
  have hfun := hleads.noFunctionTo fun ha => Bool.false_ne_true (harrow ▸ hway.2 (.inr ha))
  have hbody := hn.wraps.parent?_body hn.nodes hw
  refine ⟨w, hw, fun f fform hff hfunction => ⟨fun hfs => ?_, fun hfl => ?_⟩⟩
  · refine hn.inside_loop hw hin hfs fun hbf => ?_
    have hfalse : fform.isFunction = false := by
      by_cases hne : f = s
      · subst hne
        rwa [Option.some.inj (hff.symm.trans hf)]
      · exact hfun f fform hbf hfs hne hff
    rw [hfunction] at hfalse
    cases hfalse
  · exact (hfl.trans (.of_parent hbody)).trans hin

/-! ## Relays that leave their function -/

theorem Nested.parent?_ne_none (hn : l.Nested) (hs : l.Separated i j f) (hk : l.LiesIn k f) :
    l.parent? k ≠ none := by
  intro hnone
  obtain ⟨v, hv, hvf⟩ := hs.outer
  obtain ⟨w, hw, hfw⟩ := hk
  exact hn.not_inside_body hw hnone hv (hvf.trans hfw)

/-- Nothing is declared in a function in a wrapped body. -/
theorem Nested.not_declaredIn (hn : l.Nested) (hs : l.Separated i j f) (name : String) :
    ¬l.DeclaredIn name f := by
  rintro ⟨k, hname, hk⟩
  unfold declaredNames at hname
  split at hname
  · next hnone => exact hn.parent?_ne_none hs hk (Option.isNone_iff_eq_none.1 hnone)
  · cases hname

namespace Outcome

theorem mem_relays_iff (ho : l.Outcome) (hi : i < l.wraps.size) :
    r ∈ (l.exit i).relays ↔ ∃ s, l.CameFrom r s i := by
  rw [ho.relays i hi, carried_iff_cameFrom]

theorem exists_flag (ho : l.Outcome) (hi : i < l.wraps.size) (hr : r ∈ (l.exit i).relays) :
    ∃ flag, l.draft.names.permanent? r.flagKey = some flag := by
  obtain ⟨c, -, hc⟩ := exists_of_forall₂ (ho.checked i hi) hr
  obtain ⟨flag, hflag, -⟩ := Option.bind_eq_some_iff.1 hc
  exact ⟨flag, hflag⟩

/-- The relays of a wrap stay in a function around it in the body of another wrap only if there are
none. -/
theorem staysIn_iff (ho : l.Outcome) (hs : l.Separated i j f) :
    l.StaysIn i j f ↔ ∀ r s, ¬l.CameFrom r s i := by
  obtain ⟨w, hw, -⟩ := hs.inner
  have hi : i < l.wraps.size := (Array.getElem?_eq_some_iff.1 hw).1
  constructor
  · intro h r s hrs
    have hr := (ho.mem_relays_iff hi).2 ⟨s, hrs⟩
    obtain ⟨flag, hflag⟩ := ho.exists_flag hi hr
    exact ho.nested.not_declaredIn hs flag (h.flags r hr flag hflag)
  · intro h
    have hnone (r : Relay) (hr : r ∈ (l.exit i).relays) : False := by
      obtain ⟨s, hrs⟩ := (ho.mem_relays_iff hi).1 hr
      exact h r s hrs
    exact ⟨fun r hr => (hnone r hr).elim, fun r hr => (hnone r hr).elim,
      fun r hr => (hnone r hr).elim, fun r hr => (hnone r hr).elim⟩

/-- If relays never leave a function, all relays of a wrap come from the function of its loop. -/
theorem sameFunction_of_cameFrom (ho : l.Outcome)
    (hstay : ∀ i j f, l.Separated i j f → ∀ r s, ¬l.CameFrom r s i) (h : l.CameFrom r s k) :
    ∃ w, l.wraps[k]? = some w ∧ l.nodes.SameFunction s w.loop := by
  induction h with
  | jump hs _ => exact sameFunction_of_mem_sitesOf ho.nested (.inl rfl) hs
  | returns hs _ => exact sameFunction_of_mem_sitesOf ho.nested (.inr rfl) hs
  | @handedOn i k hc hf ih =>
    obtain ⟨w, hw, hsame⟩ := ih
    obtain ⟨w', o, hw', hp, ho', -⟩ := forwardTo?_eq_some hf
    obtain rfl : w' = w := Option.some.inj (hw'.symm.trans hw)
    obtain ⟨-, o', ho'', hin, -⟩ := ho.nested.parent hw hp
    obtain rfl : o' = o := Option.some.inj (ho''.symm.trans ho')
    have hbody := ho.nested.wraps.parent?_body ho.nested.nodes ho'
    refine ⟨o', ho', fun f form hf hfun =>
      (hsame f form hf hfun).trans ⟨fun hfw => ?_, fun hfo => ?_⟩⟩
    · exact ho.nested.inside_loop ho' hin hfw fun hbf =>
        hstay i k f ⟨⟨form, hf, hfun⟩, ⟨o', ho', hbf⟩, ⟨w', hw, hfw⟩⟩ _ _ hc
    · exact (hfo.trans (.of_parent hbody)).trans hin

end Outcome

/-- Relays stay in the functions between wraps, and each comes from the function of its loop. -/
structure RelaysStay (l : Lowering) : Prop where
  staysIn : ∀ i j f, l.Separated i j f → l.StaysIn i j f
  origin : ∀ k w r s, l.wraps[k]? = some w → l.CameFrom r s k → l.nodes.SameFunction s w.loop

theorem Outcome.relaysStay_iff (ho : l.Outcome) :
    l.RelaysStay ↔ ∀ i j f, l.Separated i j f → ∀ r s, ¬l.CameFrom r s i := by
  refine ⟨fun h i j f hs => (ho.staysIn_iff hs).1 (h.staysIn i j f hs), fun h => ⟨?_, ?_⟩⟩
  · exact fun i j f hs => (ho.staysIn_iff hs).2 (h i j f hs)
  · intro k w r s hw hrs
    obtain ⟨w', hw', hsame⟩ := ho.sameFunction_of_cameFrom h hrs
    obtain rfl : w' = w := Option.some.inj (hw'.symm.trans hw)
    exact hsame

end Lowering

/-- Relays stay in their functions exactly if no wrap relays anything that lies in a function in the
body of another wrap. -/
theorem relays_stay_iff {file : String} {source : List Char} {options : Options} {out : Lowered}
    (h : compile file source options = .ok out) : ∃ l, Compiles file source options l out ∧
      (l.RelaysStay ↔ ∀ i j f, l.Separated i j f → ∀ r s, ¬l.CameFrom r s i) := by
  obtain ⟨l, hl, ho⟩ := compile_outcome h
  exact ⟨l, hl, ho.relaysStay_iff⟩

/-! ## A function between two wraps -/

section Runs

variable {l : Lowering}

/-- The function `f` lies between the wraps 0 and 1, as far as one can tell by climbing. -/
def Lowering.separates (l : Lowering) (f : NodeId) : Bool :=
  match l.wraps[0]?, l.wraps[1]?, l.nodes.form? f with
  | some w, some v, some form =>
    form.isFunction && (f :: l.nodes.ancestors f).elem w.body &&
      (v.loop :: l.nodes.ancestors v.loop).elem f
  | _, _, _ => false

theorem Lowering.separated_of_separates {f : NodeId} (h : l.separates f = true) :
    l.Separated 1 0 f := by
  unfold separates at h
  split at h
  · next w v form hw hv hf =>
    rw [Bool.and_eq_true, Bool.and_eq_true, List.elem_iff, List.elem_iff] at h
    obtain ⟨⟨hfunction, houter⟩, hinner⟩ := h
    exact ⟨⟨form, hf, hfunction⟩, ⟨w, hw, .of_mem_ancestors houter⟩,
      ⟨v, hv, .of_mem_ancestors hinner⟩⟩
  · cases h

/-- A loop in an arrow in a wrapped body is wrapped, too. -/
def loopInArrow : List Char :=
  "for (const x of xs) { f(() => { for (const y of ys) { f(() => x + y); } }); }".toList

theorem relays_stay_loopInArrow : ∃ l out, compile "" loopInArrow {} = .ok out ∧
    Compiles "" loopInArrow {} l out ∧ (∃ f, l.Separated 1 0 f) ∧ l.RelaysStay := by
  have hrun : okAnd (lowerSource "" loopInArrow {}) (fun l => okAnd l.draft.apply (fun _ => true) &&
      ((List.range l.nodes.size).any l.separates && (List.range l.wraps.size).all fun k =>
        (l.sitesOf k .jump).isEmpty && (l.sitesOf k .returns).isEmpty)) = true := by
    decide +kernel
  obtain ⟨l', out, hout, hl', hcheck⟩ := exists_compile hrun
  obtain ⟨l, hl, hiff⟩ := relays_stay_iff hout
  obtain rfl : l = l' := Except.ok.inj (hl.lowered.symm.trans hl')
  rw [Bool.and_eq_true, List.any_eq_true, List.all_eq_true] at hcheck
  obtain ⟨⟨f, -, hf⟩, hsites⟩ := hcheck
  refine ⟨l, out, hout, hl, ⟨f, Lowering.separated_of_separates hf⟩,
    hiff.2 fun i j f hs r s h => ?_⟩
  clear hs
  have hempty {k : Nat} {kind : SiteKind} (hkind : kind = .jump ∨ kind = .returns) {s : NodeId}
      (hs : s ∈ l.sitesOf k kind) : False := by
    obtain ⟨w, hw, -⟩ := Lowering.mem_sitesOf hs
    have hk := hsites k (List.mem_range.2 (Array.getElem?_eq_some_iff.1 hw).1)
    rw [Bool.and_eq_true, List.isEmpty_iff, List.isEmpty_iff] at hk
    rcases hkind with rfl | rfl
    · rw [hk.1] at hs
      cases hs
    · rw [hk.2] at hs
      cases hs
  induction h with
  | jump hs _ => exact hempty (.inl rfl) hs
  | returns hs _ => exact hempty (.inr rfl) hs
  | handedOn _ _ ih => exact ih

/-- The arrow returns from the loop, too. -/
def returnInArrow : List Char :=
  "for (const x of xs) { f(() => { for (const y of ys) { f(() => x + y); return 1; } }); }".toList

theorem not_relaysStay_returnInArrow : ∃ l out, compile "" returnInArrow {} = .ok out ∧
    Compiles "" returnInArrow {} l out ∧ ¬l.RelaysStay := by
  have hrun : okAnd (lowerSource "" returnInArrow {}) (fun l =>
      okAnd l.draft.apply (fun _ => true) && ((List.range l.nodes.size).any l.separates &&
        (l.sitesOf 1 .returns).any fun s => (l.nodes.returnRelay? s).isSome)) = true := by
    decide +kernel
  obtain ⟨l', out, hout, hl', hcheck⟩ := exists_compile hrun
  obtain ⟨l, hl, ho⟩ := compile_outcome hout
  obtain rfl : l = l' := Except.ok.inj (hl.lowered.symm.trans hl')
  rw [Bool.and_eq_true, List.any_eq_true, List.any_eq_true] at hcheck
  obtain ⟨⟨f, -, hf⟩, s, hs, hr⟩ := hcheck
  obtain ⟨r, hr⟩ := Option.isSome_iff_exists.1 hr
  refine ⟨l, out, hout, hl, fun h => ?_⟩
  exact ho.relaysStay_iff.1 h 1 0 f (Lowering.separated_of_separates hf) r s (.returns hs hr)

end Runs

end LoopClosure
