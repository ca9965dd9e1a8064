import LoopClosure.Proofs.Lowering.Hygiene
import LoopClosure.Proofs.Lowering.Recording
import Mathlib.Logic.Relation

/-!
# Families of wraps

- `Lowering.Around l j i`: the body of wrap `j` holds the loop of another wrap `i`, or is that loop.
- `Lowering.Linked l`: the parent of a wrap is the innermost wrap around, parents come behind in the
  order by size, and the way from parent to parent ends at the outermost wrap.
- `Lowering.Relayed l`: what a wrap hands on its parent relays and checks, and a value gets to the
  outermost wrap.
- `Lowering.Stores l k`: the call of wrap `k` stores its result in a variable declared in front.

Parents are found by the lengths of bodies, and the order of the wraps is one of lengths. In a
well-formed table a body is shorter than one that it lies in, so that both follow the tree
(`Nested.linked`). Relays are resolved in that order, and returns leave every body
(`wraps_linked_relayed`).
-/

namespace LoopClosure

open Syntax Syntax.Nodes

namespace Lowering

variable {l l' l₁ l₂ : Lowering} {i j k p : Nat} {r : Relay}

/-! ## Links -/

/-- The body of wrap `j` holds the loop of another wrap `i`, or is it. -/
def Around (l : Lowering) (j i : Nat) : Prop :=
  j ≠ i ∧ ∃ v w, l.wraps[j]? = some v ∧ l.wraps[i]? = some w ∧ l.nodes.Inside v.body w.loop

/-- Of the wraps around wrap `i`, wrap `p` is the one whose body lies in the bodies of all. -/
structure Closest (l : Lowering) (p i : Nat) : Prop where
  around : l.Around p i
  inside : ∀ {j : Nat} {v o : Wrap}, l.Around j i → l.wraps[j]? = some v → l.wraps[p]? = some o →
    l.nodes.Inside v.body o.body

def IsParent (l : Lowering) (p i : Nat) : Prop := l.parent? i = some p

/-- Parents are the innermost wraps around, and the wraps form a forest. -/
structure Linked (l : Lowering) : Prop where
  parent : ∀ {p i : Nat}, l.IsParent p i ↔ l.Closest p i
  orphan : ∀ {i : Nat}, l.parent? i = none ↔ ∀ j, ¬l.Around j i
  acyclic : ∀ i, ¬Relation.TransGen l.IsParent i i
  outermost : ∀ i, Relation.ReflTransGen l.IsParent (l.outermost i) i ∧
    l.parent? (l.outermost i) = none
  /-- Each wrap is in the order once. -/
  order : l.innerFirst.Perm (List.range l.wraps.size)
  /-- The parent of a wrap comes behind it. -/
  later : ∀ {as bs : List Nat} {p i : Nat}, l.innerFirst = as ++ i :: bs → l.IsParent p i → p ∈ bs

theorem reflTransGen_outermostWithin (l : Lowering) (n i : Nat) :
    Relation.ReflTransGen l.IsParent (l.outermostWithin n i) i := by
  induction n generalizing i with
  | zero => exact .refl
  | succ n ih =>
    unfold outermostWithin
    split
    · next p hp => exact (ih p).tail hp
    · exact .refl

namespace Nested

variable (hn : l.Nested) (hlt : ∀ {i p : Nat}, l.IsParent p i → i < l.wraps.size)

include hn

theorem closest_unique (hp : l.Closest p i) (hk : l.Closest k i) : p = k := by
  obtain ⟨-, o, w, ho, -⟩ := hp.around
  obtain ⟨-, v, w', hv, -⟩ := hk.around
  have hbody : o.body = v.body :=
    Inside.antisymm hn.nodes (hk.inside hp.around ho hv) (hp.inside hk.around hv ho)
  -- A body is that of one loop, which is wrapped once.
  have hloop := hn.wraps.parent?_body hn.nodes ho
  rw [hbody, hn.wraps.parent?_body hn.nodes hv, Option.some.injEq] at hloop
  exact hn.wraps.unique ho hv hloop.symm

include hlt

theorem closest_of_isParent (hp : l.IsParent p i) : l.Closest p i := by
  have hw := Array.getElem?_eq_getElem (hlt hp)
  obtain ⟨hne, o, ho, hin, hinner⟩ := hn.parent hw hp
  refine ⟨⟨hne, o, _, ho, hw, hin⟩, fun {j v o'} haround hv ho' => ?_⟩
  obtain ⟨hji, v', w', hv', hw', hvin⟩ := haround
  cases hv.symm.trans hv'
  cases hw.symm.trans hw'
  cases ho.symm.trans ho'
  exact hinner hv hji hvin

theorem parent?_eq_none_iff : l.parent? i = none ↔ ∀ j, ¬l.Around j i := by
  constructor
  · rintro hnone j ⟨-, v, w, hv, hw, hin⟩
    exact hn.not_inside_body hw hnone hv hin
  · refine fun hnot => Option.eq_none_iff_forall_ne_some.2 fun p hp => ?_
    exact hnot p (hn.closest_of_isParent hlt hp).around

theorem isParent_iff : l.IsParent p i ↔ l.Closest p i := by
  refine ⟨hn.closest_of_isParent hlt, fun hp => ?_⟩
  cases hk : l.parent? i with
  | none => exact absurd hp.around ((hn.parent?_eq_none_iff hlt).1 hk p)
  | some k =>
    rw [hn.closest_unique hp (hn.closest_of_isParent hlt hk)]
    exact hk

/-- The loop of an ancestor comes before the loop. -/
theorem rank_lt_of_transGen (h : Relation.TransGen l.IsParent p i) : l.rank p < l.rank i := by
  have hstep {p i : Nat} (hp : l.IsParent p i) : l.rank p < l.rank i :=
    hn.rank_lt (Array.getElem?_eq_getElem (hlt hp)) hp
  induction h with
  | single hp => exact hstep hp
  | tail _ hp ih => exact Nat.lt_trans ih (hstep hp)

/-- The way from parent to parent ends at the outermost wrap. -/
theorem parent?_outermost (i : Nat) : l.parent? (l.outermost i) = none := by
  by_cases hi : i < l.wraps.size
  · obtain ⟨-, -, hnone, -⟩ := hn.outermost_spec (Array.getElem?_eq_getElem hi)
    exact hnone
  · have hnone : l.parent? i = none := Option.eq_none_iff_forall_ne_some.2 fun p hp => hi (hlt hp)
    have hself : l.outermost i = i := by
      unfold outermost
      cases l.wraps.size with
      | zero => rfl
      | succ n => rw [outermostWithin, hnone]
    rw [hself, hnone]

theorem mem_of_innerFirst_eq {as bs : List Nat} (h : l.innerFirst = as ++ i :: bs)
    (hp : l.IsParent p i) : p ∈ bs := by
  obtain ⟨hne, o, ho, -⟩ := hn.parent (Array.getElem?_eq_getElem (hlt hp)) hp
  have hmem : p ∈ l.innerFirst := mem_innerFirst.2 (Array.getElem?_eq_some_iff.1 ho).1
  have hordered := pairwise_innerFirst hn
  rw [h, List.pairwise_append] at hordered
  rw [h, List.mem_append, List.mem_cons] at hmem
  rcases hmem with has | rfl | hbs
  · exact absurd hp (hordered.2.2 p has i List.mem_cons_self).2
  · exact absurd rfl hne
  · exact hbs

theorem linked : l.Linked where
  parent := hn.isParent_iff hlt
  orphan := hn.parent?_eq_none_iff hlt
  acyclic _ h := Nat.lt_irrefl _ (hn.rank_lt_of_transGen hlt h)
  outermost i := ⟨reflTransGen_outermostWithin l _ i, hn.parent?_outermost hlt i⟩
  order := l.perm_innerFirst
  later h hp := hn.mem_of_innerFirst_eq hlt h hp

/-- A value that a wrap relays is relayed by all wraps around. -/
theorem carried_of_reflTransGen (hv : r.isValued = true)
    (h : Relation.ReflTransGen l.IsParent k i) (hc : l.Carried i r) : l.Carried k r := by
  induction h using Relation.ReflTransGen.head_induction_on with
  | refl => exact hc
  | @head p j hp _ ih =>
    have hp : l.parent? j = some p := hp
    cases hf : l.forwardTo? j r with
    | none =>
      cases hp.symm.trans (hn.parent?_of_valued (Array.getElem?_eq_getElem (hlt hp)) hv hf)
    | some q =>
      obtain ⟨-, -, -, hq, -⟩ := forwardTo?_eq_some hf
      cases hp.symm.trans hq
      exact .handedOn ih hf

end Nested

/-! ## Relays -/

/-- What wraps hand on has arrived. -/
structure Relayed (l : Lowering) : Prop where
  checked : ∀ {i : Nat} {r : Relay}, r ∈ (l.exit i).relays →
    ∃ c ∈ (l.exit i).checks, r.check? l.draft.names (l.forwardTo? i r).isSome = some c
  handedOn : ∀ {i p : Nat} {r : Relay}, r ∈ (l.exit i).relays → l.forwardTo? i r = some p →
    l.IsParent p i ∧ r ∈ (l.exit p).relays ∧
      ∃ c ∈ (l.exit p).checks, r.check? l.draft.names (l.forwardTo? p r).isSome = some c
  valued : ∀ {i : Nat} {r : Relay}, r ∈ (l.exit i).relays → r.isValued = true →
    r ∈ (l.exit (l.outermost i)).relays ∧ (l.exit (l.outermost i)).valued = true

theorem lt_size_of_mem_relays (hsize : l.exits.size = l.wraps.size)
    (hr : r ∈ (l.exit i).relays) : i < l.wraps.size := by
  by_contra hge
  rw [exit, Array.getElem?_eq_none (hsize ▸ Nat.le_of_not_lt hge)] at hr
  cases hr

/-- Once all relays are resolved, they have arrived where they are handed on to. -/
theorem Resolved.relayed {l₀ : Lowering} (hres : Resolved l₀ [] l) (hk : Keeps l₀ l)
    (hn : l.Nested) (hlt : ∀ {i p : Nat}, l.IsParent p i → i < l.wraps.size)
    (hsize : l.exits.size = l.wraps.size) (hvalued : ∀ k, (l.exit k).Valued) : l.Relayed := by
  have hdone {k : Nat} (hk' : k < l.wraps.size) :
      (∀ r, r ∈ (l.exit k).relays ↔ l.Carried k r) ∧ l.Checked k := by
    obtain ⟨hrelays, hchecked⟩ := hres.done k (hk.wraps ▸ hk') (List.not_mem_nil)
    exact ⟨fun r => (hrelays r).trans hk.carried_iff.symm, hchecked⟩
  have hchecked {i : Nat} {r : Relay} (hr : r ∈ (l.exit i).relays) :=
    exists_of_forall₂ (hdone (lt_size_of_mem_relays hsize hr)).2 hr
  refine ⟨hchecked, fun {i p r} hr hf => ?_, fun {i r} hr hv => ?_⟩
  · obtain ⟨w, o, -, hp, ho, -⟩ := forwardTo?_eq_some hf
    have hc := ((hdone (lt_size_of_mem_relays hsize hr)).1 r).1 hr
    have hmem : r ∈ (l.exit p).relays :=
      ((hdone (Array.getElem?_eq_some_iff.1 ho).1).1 r).2 (.handedOn hc hf)
    exact ⟨hp, hmem, hchecked hmem⟩
  · have hi := lt_size_of_mem_relays hsize hr
    obtain ⟨o, ho, -⟩ := hn.outermost_spec (Array.getElem?_eq_getElem hi)
    have hmem : r ∈ (l.exit (l.outermost i)).relays :=
      ((hdone (Array.getElem?_eq_some_iff.1 ho).1).1 r).2 <|
        hn.carried_of_reflTransGen hlt hv (reflTransGen_outermostWithin l _ i)
          (((hdone hi).1 r).1 hr)
    exact ⟨hmem, (hvalued _).2 ⟨r, hmem, hv⟩⟩

/-! ## Calls -/

/-- The call of wrap `k` stores its result in a variable that is declared in front of it. -/
def Stores (l : Lowering) (k : Nat) : Prop :=
  ∃ w body name, l.wraps[k]? = some w ∧ l.nodes.get? w.body = some body ∧
    l.draft.names.permanent? "value" = some name ∧ ∃ declared e, name ∈ declared ∧
      e ∈ l.draft.edits.edits.toList ∧ e.kind = .insert ∧ e.active = true ∧
      e.start = (if w.blockBody then body.start + 1 else body.start) ∧
      e.text = (if w.blockBody then "" else "\x7b") ++ ("var " ++ ", ".intercalate declared ++ ";" ++
        (name ++ " = ") ++ "(function(" ++ ", ".intercalate w.params ++ ")\x7b")

theorem CallWritten.stores {w : Wrap} {body : Node} (h : l.CallWritten k)
    (hw : l.wraps[k]? = some w) (hbody : l.nodes.get? w.body = some body)
    (hroot : l.parent? k = none) (hvalued : (l.exit k).valued = true) : l.Stores k := by
  obtain ⟨hsome, hstart, -⟩ := h w body hw hbody
  obtain ⟨name, hname⟩ := hsome hvalued
  have hkey : l.draft.names.permanent? "value" = some name := by
    rwa [resultName, if_pos hvalued] at hname
  have hmem : name ∈ l.declaredNames k := by
    rw [declaredNames_of_parent? hroot, hname]
    exact List.mem_append_right _ List.mem_cons_self
  refine ⟨w, body, name, hw, hbody, hkey, _, _, hmem, hstart, Wrap.callStart_kind, ?_,
    Wrap.callStart_start, ?_⟩ <;>
  · unfold Wrap.callStart
    dsimp only
    have hne : (l.declaredNames k).isEmpty = false :=
      List.isEmpty_eq_false_iff_exists_mem.2 ⟨name, hmem⟩
    split <;> simp [hne, hname]

/-! ## Rounds -/

def adaptBodies (l : Lowering) : Except Failure Lowering := l.inSourceOrder.foldlM adaptBody l

def resolveAll (l : Lowering) : Except Failure Lowering := l.innerFirst.foldlM resolveRelays l

def writeCalls (l : Lowering) : Except Failure Lowering := l.innerFirst.foldlM writeCall l

theorem finish_eq (l : Lowering) :
    l.finish = l.adaptBodies.bind fun l => l.resolveAll.bind writeCalls := rfl

theorem still_writeCalls (h : l.writeCalls = .ok l') : Still (fun _ => True) l l' :=
  foldlM_rel Still.refl Still.trans
    (fun _ _ _ _ _ hstep => (writeCall_spec hstep fun _ _ => trivial).1) h

/-- The outermost call stores its result if it is to be kept. -/
theorem Nested.stores_outermost (hn : l.Nested) (hi : i < l.wraps.size)
    (hvalued : (l.exit (l.outermost i)).valued = true) (h : l.writeCalls = .ok l') :
    l'.Stores (l.outermost i) := by
  obtain ⟨o, ho, hroot, -⟩ := hn.outermost_spec (Array.getElem?_eq_getElem hi)
  obtain ⟨body, hbody⟩ := exists_get?_of_parent?_eq_some (hn.wraps.parent?_body hn.nodes ho)
  have hstill := still_writeCalls h
  have hwritten : l'.CallWritten (l.outermost i) :=
    callWritten_of_foldlM h (mem_innerFirst.2 (Array.getElem?_eq_some_iff.1 ho).1)
  refine hwritten.stores (?_ : _ = some o) (?_ : _ = some body) ?_ ?_
  · rw [hstill.wraps, ho]
  · rw [hstill.nodes, hbody]
  · rw [hstill.parent?, hroot]
  · rw [hstill.exit, hvalued]

theorem isParent_ofWraps_lt {b : Bound} {wraps : Array Wrap} (hk : Keeps (ofWraps b wraps) l)
    (hp : l.IsParent p i) : i < l.wraps.size := by
  have hwraps : l.wraps.size = wraps.size := congrArg Array.size hk.wraps
  by_contra hge
  rw [IsParent, hk.parent?, parent?, ofWraps,
    Array.getElem?_eq_none (by simpa [hwraps] using Nat.le_of_not_lt hge)] at hp
  cases hp

end Lowering

open Lowering

section Sources

variable {file : String} {source : List Char} {options : Options} {t : Tree} {b b' : Bound}
  {wraps : Array Wrap}

/-- **Families of wraps.** When the loops to wrap are known, parents are the innermost wraps around,
and each wrap comes before its parent in the order in which relays are resolved. When the relays are
resolved, which never fails for want of names if the source has fewer identifiers than probes, those
that a wrap hands on are among the relays of its parent, which has a check for them; and if a wrap
relays a value, the call of the outermost wrap around it stores it in a variable declared there. -/
theorem wraps_linked_relayed (hparse : Grammar.parse source = .ok t)
    (hb : bind { file, source, nodes := .ofTree t, options } = .ok b)
    (hwraps : b.wrapLoops = .ok (b', wraps)) :
    (ofWraps b' wraps).Linked ∧ ∀ l₁, (ofWraps b' wraps).adaptBodies = .ok l₁ →
      (b.identifiers.length < maxProbes → ∃ l₂, l₁.resolveAll = .ok l₂) ∧
      ∀ l₂, l₁.resolveAll = .ok l₂ → l₂.Linked ∧ l₂.Relayed ∧
        ∀ l₃, l₂.writeCalls = .ok l₃ →
          (∀ i < l₂.wraps.size, l₃.exit i = l₂.exit i ∧ l₃.CallWritten i) ∧
          ∀ i, ∀ r ∈ (l₂.exit i).relays, r.isValued = true → l₃.Stores (l₂.outermost i) := by
  obtain ⟨-, hns⟩ := nodes_of_bind hparse hb
  have hwell := (bind_wellScoped hb).1
  have hext := (Bound.wrapAll_extends hwell hwraps).2
  have hn : (ofWraps b' wraps).Nested := nested_ofWraps (hext.nodes ▸ hns)
    (hext.nodes ▸ Bound.wrapAll_wrapsOf hwell (.empty _) hwraps)
  have hlt {l : Lowering} {i p : Nat} (hk : Keeps (ofWraps b' wraps) l) :
      l.IsParent p i → i < l.wraps.size := isParent_ofWraps_lt hk
  have hsize : (ofWraps b' wraps).exits.size = wraps.size := Array.size_replicate
  refine ⟨hn.linked (hlt (.refl _)), fun l₁ h₁ => ?_⟩
  have hk₁ := (adaptBodies_records h₁).toKeeps
  rw [resolveAll, hk₁.innerFirst]
  refine ⟨fun hids => ?_, fun l₂ h₂ => ?_⟩
  · have hready := ready_ofWraps hwell hids (fun hd hn => bind_avoids hb hd hn) hwraps
    exact (hready.records (adaptBodies_records h₁)).exists_foldlM_resolveRelays _
  have hresolved := (underway_adapted hn hsize (exit_ofWraps b' wraps) h₁).foldlM h₂
  have hrecords := declares hn hsize (exit_ofWraps b' wraps) h₁ h₂ (.refl _)
  have hk₂ := hrecords.toKeeps
  have hn₂ := hk₂.nested hn
  have hvalued : ∀ k, (l₂.exit k).Valued := hrecords.valued fun k => by
    rw [exit_ofWraps, Exits.Valued]
    simp
  have hsize₂ : l₂.exits.size = l₂.wraps.size := by
    rw [hrecords.size, hsize, hk₂.wraps]
    rfl
  have hrelayed := hresolved.relayed hk₂ hn₂ (hlt hk₂) hsize₂ hvalued
  refine ⟨hn₂.linked (hlt hk₂), hrelayed, fun l₃ h₃ => ⟨fun i hi => ?_, fun i r hr hv => ?_⟩⟩
  · exact ⟨(still_writeCalls h₃).exit i, callWritten_of_foldlM h₃ (mem_innerFirst.2 hi)⟩
  · exact hn₂.stores_outermost (lt_size_of_mem_relays hsize₂ hr) (hrelayed.valued hr hv).2 h₃

/-- Two loops in one another; the inner one returns a value and leaves the outer one. -/
def rowsOfColumns : List Char :=
  ("function f() \x7b outer: for (const r of rows) \x7b f(() => r); " ++
    "for (const c of cols) \x7b g(() => c); if (c) break outer; if (r) return 1; \x7d \x7d \x7d").toList

theorem wraps_linked_relayed_rowsOfColumns : ∃ t b b' wraps l₁ l₂ l₃,
    Grammar.parse rowsOfColumns = .ok t ∧
      bind { file := "", source := rowsOfColumns, nodes := .ofTree t, options := {} } = .ok b ∧
      b.wrapLoops = .ok (b', wraps) ∧ (ofWraps b' wraps).adaptBodies = .ok l₁ ∧
      b.identifiers.length < maxProbes ∧ l₁.resolveAll = .ok l₂ ∧ l₂.writeCalls = .ok l₃ ∧
      l₂.innerFirst = [1, 0] ∧ l₂.IsParent 0 1 ∧ l₂.Closest 0 1 ∧
      (l₂.exit 1).relays = [.break_ (some "outer"), .returnPrimitive] ∧
      .break_ (some "outer") ∈ (l₂.exit 0).relays ∧ l₃.Stores 0 := by
  have hrun : okAnd (Grammar.parse rowsOfColumns) (fun t =>
      okAnd (bind { file := "", source := rowsOfColumns, nodes := .ofTree t, options := {} }) fun b =>
        okAnd b.wrapLoops fun r => okAnd (ofWraps r.1 r.2).adaptBodies fun l₁ =>
          okAnd l₁.resolveAll fun l₂ => okAnd l₂.writeCalls fun _ => decide (
            b.identifiers.length < maxProbes ∧ l₂.innerFirst = [1, 0] ∧ l₂.parent? 1 = some 0 ∧
            l₂.outermost 1 = 0 ∧
            (l₂.exit 1).relays = [.break_ (some "outer"), .returnPrimitive] ∧
            l₂.forwardTo? 1 (.break_ (some "outer")) = some 0)) = true := by
    decide +kernel
  obtain ⟨t, hparse, hrun⟩ := okAnd_iff.1 hrun
  obtain ⟨b, hb, hrun⟩ := okAnd_iff.1 hrun
  obtain ⟨⟨b', wraps⟩, hwraps, hrun⟩ := okAnd_iff.1 hrun
  obtain ⟨l₁, h₁, hrun⟩ := okAnd_iff.1 hrun
  obtain ⟨l₂, h₂, hrun⟩ := okAnd_iff.1 hrun
  obtain ⟨l₃, h₃, hrun⟩ := okAnd_iff.1 hrun
  obtain ⟨hids, horder, hparent, hout, hrelays, hforward⟩ := of_decide_eq_true hrun
  obtain ⟨-, hrest⟩ := wraps_linked_relayed hparse hb hwraps
  obtain ⟨hlinked, hrelayed, hwritten⟩ := (hrest l₁ h₁).2 l₂ h₂
  have hbreak : .break_ (some "outer") ∈ (l₂.exit 1).relays := by simp [hrelays]
  have hreturn : .returnPrimitive ∈ (l₂.exit 1).relays := by simp [hrelays]
  refine ⟨t, b, b', wraps, l₁, l₂, l₃, hparse, hb, hwraps, h₁, hids, h₂, h₃, horder, hparent,
    hlinked.parent.1 hparent, hrelays, (hrelayed.handedOn hbreak hforward).2.1, ?_⟩
  exact hout ▸ (hwritten l₃ h₃).2 1 _ hreturn rfl

end Sources

end LoopClosure
