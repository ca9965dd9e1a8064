import LoopClosure.Proofs.Lowering.Frame
import Mathlib.Data.List.Basic

/-!
# What a body relays

Adapting the body of a wrap adds the relays of the jumps and returns among its sites
(`adaptBody_adds`), and puts something else for each of the jumps (`adaptBody_rewrites`).
-/

namespace LoopClosure

open Syntax

namespace Syntax.Nodes

/-- What a jump relays. -/
def jumpRelay? (ns : Nodes) (id : NodeId) : Option Relay :=
  match ns.form? id with
  | some (.jump kind label) => Relay.ofJump? kind (label.bind ns.identifier?)
  | _ => none

/-- What a `return` relays. -/
def returnRelay? (ns : Nodes) (id : NodeId) : Option Relay :=
  match ns.form? id with
  | some (.returns argument) =>
    match argument.bind ns.get? with
    | none => some .returnVoid
    | some a => some (.ofArgument a.form)
  | _ => none

end Syntax.Nodes

namespace Lowering

variable {l l' : Lowering} {i : Nat} {site : NodeId}

/-- The sites of the body of a wrap. -/
def sites (l : Lowering) (i : Nat) : List (SiteKind × NodeId) :=
  match l.wraps[i]? with
  | none => []
  | some w => l.bound.sites l.isWrappedBody w.body

/-- The sites of one kind. -/
def sitesOf (l : Lowering) (i : Nat) (kind : SiteKind) : List NodeId :=
  ((l.sites i).filter (·.1 = kind)).map (·.2)

/-- What the body of a wrap relays, apart from the wraps inside. -/
def ownRelays (l : Lowering) (i : Nat) : List Relay :=
  (l.sitesOf i .jump).filterMap l.nodes.jumpRelay? ++
    (l.sitesOf i .returns).filterMap l.nodes.returnRelay?

/-- What stands for a jump: a `return`, or a block that raises the flag of its relay. -/
def Rewrites (l : Lowering) (n : Node) : Option Relay → Prop
  | none => ⟨.replace, n.start, n.stop, "return;", true⟩ ∈ l.draft.edits.edits
  | some r => ∃ flag, l.draft.names.permanent? r.flagKey = some flag ∧
    ⟨.replace, n.start, n.stop, raiseText flag, true⟩ ∈ l.draft.edits.edits

theorem adaptJump_adds (h : adaptJump i l site = .ok l') :
    Adds (Edit.At l.nodes [site]) i (l.nodes.jumpRelay? site).toList l l' := by
  unfold adaptJump at h
  split at h
  · next start stop kind label parent hn =>
    have hrelay : l.nodes.jumpRelay? site =
        Relay.ofJump? kind (label.bind l.nodes.identifier?) := by
      rw [Nodes.jumpRelay?, Nodes.form?, hn]
      rfl
    rw [hrelay]
    split at h
    · next hnone =>
      cases h
      rw [hnone]
      exact .ofQuiet (replace_quiet l List.mem_cons_self hn rfl)
    · next r hr =>
      obtain ⟨⟨l₁, flag⟩, hname, h⟩ := bind_eq_ok.1 h
      cases h
      rw [hr]
      exact (Adds.ofQuiet ((permanentName_quiet hname).1.trans
        (replace_quiet l₁ List.mem_cons_self hn rfl))).trans (addRelay_adds _ _ _)
  · next hform =>
    cases h
    have hnone : l.nodes.jumpRelay? site = none := by
      unfold Nodes.jumpRelay? Nodes.form?
      split
      · next kind label hf =>
        obtain ⟨⟨start, stop, form, parent⟩, hn, rfl⟩ := Option.map_eq_some_iff.1 hf
        exact absurd hn (hform start stop kind label parent)
      · rfl
    rw [hnone]
    exact .ofQuiet (.refl l)

theorem adaptReturn_adds (h : adaptReturn i l site = .ok l') :
    Adds (Edit.At l.nodes [site]) i (l.nodes.returnRelay? site).toList l l' := by
  unfold adaptReturn at h
  split at h
  · next start stop argument parent hn =>
    have hrelay : l.nodes.returnRelay? site =
        match argument.bind l.nodes.get? with
        | none => some .returnVoid
        | some a => some (.ofArgument a.form) := by
      rw [Nodes.returnRelay?, Nodes.form?, hn]
      rfl
    rw [hrelay]
    cases ha : argument.bind l.nodes.get? with
    | none =>
      rw [ha] at h
      obtain ⟨⟨l₁, flag⟩, hname, h⟩ := bind_eq_ok.1 h
      cases h
      exact (Adds.ofQuiet ((permanentName_quiet hname).1.trans
        (replace_quiet l₁ List.mem_cons_self hn rfl))).trans (addRelay_adds _ _ _)
    | some a =>
      rw [ha] at h
      obtain ⟨⟨l₁, flag⟩, hname, h⟩ := bind_eq_ok.1 h
      cases h
      exact (Adds.ofQuiet ((permanentName_quiet hname).1.trans
        ((replace_quiet l₁ List.mem_cons_self hn rfl).trans (insertAfter_quiet _ _ _)))).trans
          (addRelay_adds _ _ _)
  · next hform =>
    cases h
    have hnone : l.nodes.returnRelay? site = none := by
      unfold Nodes.returnRelay? Nodes.form?
      split
      · next argument hf =>
        obtain ⟨⟨start, stop, form, parent⟩, hn, rfl⟩ := Option.map_eq_some_iff.1 hf
        exact absurd hn (hform start stop argument parent)
      · rfl
    rw [hnone]
    exact .ofQuiet (.refl l)

theorem Writes.rewrites {P : Edit → Prop} (h : Writes P l l') {n : Node} {r : Option Relay}
    (hl : l.Rewrites n r) : l'.Rewrites n r := by
  have hmem {e : Edit} (he : e ∈ l.draft.edits.edits) : e ∈ l'.draft.edits.edits :=
    Array.mem_toList_iff.1 (h.mem_edits (Array.mem_toList_iff.2 he))
  cases r with
  | none => exact hmem hl
  | some r =>
    obtain ⟨flag, hflag, he⟩ := hl
    exact ⟨flag, h.names.kept hflag, hmem he⟩

theorem adaptJump_rewrites (h : adaptJump i l site = .ok l') {n : Node} {kind : JumpKind}
    {label : Option NodeId} (hn : l.nodes.get? site = some n) (hform : n.form = .jump kind label) :
    l'.Rewrites n (Relay.ofJump? kind (label.bind l.nodes.identifier?)) := by
  obtain ⟨start, stop, form, parent⟩ := n
  obtain rfl : form = .jump kind label := hform
  unfold adaptJump at h
  rw [hn] at h
  dsimp only at h
  split at h
  · next hnone =>
    cases h
    rw [hnone]
    exact Array.mem_push_self
  · next r hr =>
    obtain ⟨⟨l₁, flag⟩, hname, h⟩ := bind_eq_ok.1 h
    cases h
    rw [hr]
    exact ⟨flag, (permanentName_quiet (P := fun _ => True) hname).2, Array.mem_push_self⟩

theorem sitesWithin_withScopes (b : Bound) (s : Scopes) (isWrapped : NodeId → Bool) (body : NodeId)
    (depth : Nat) (inArrow : Bool) (id : NodeId) :
    (b.withScopes s).sitesWithin isWrapped body depth inArrow id =
      b.sitesWithin isWrapped body depth inArrow id := by
  induction depth generalizing inArrow id with
  | zero => rfl
  | succ depth ih =>
    have hih (inArrow : Bool) : (b.withScopes s).sitesWithin isWrapped body depth inArrow =
        b.sitesWithin isWrapped body depth inArrow := funext fun id => ih inArrow id
    simp only [Bound.sitesWithin, hih]
    rfl

namespace Keeps

theorem sites (h : Keeps l l') (i : Nat) : l'.sites i = l.sites i := by
  have hbody : l'.isWrappedBody = l.isWrappedBody := by
    funext id
    rw [isWrappedBody, h.wraps]
    rfl
  unfold Lowering.sites
  rw [h.wraps, h.bound, hbody]
  split
  · rfl
  · exact sitesWithin_withScopes _ _ _ _ _ _ _

theorem sitesOf (h : Keeps l l') (i : Nat) (kind : SiteKind) :
    l'.sitesOf i kind = l.sitesOf i kind := by
  rw [Lowering.sitesOf, h.sites]
  rfl

theorem ownRelays (h : Keeps l l') (i : Nat) : l'.ownRelays i = l.ownRelays i := by
  rw [Lowering.ownRelays, h.sitesOf, h.sitesOf, h.nodes]
  rfl

end Keeps

theorem sitesOf_subset (l : Lowering) (i : Nat) (kind : SiteKind) :
    l.sitesOf i kind ⊆ (l.sites i).map (·.2) :=
  fun _ hmem => by
    obtain ⟨s, hs, rfl⟩ := List.mem_map.1 hmem
    exact List.mem_map_of_mem (List.mem_filter.1 hs).1

/-- Adapting a body: first its jumps, then its returns, then what relays nothing. -/
theorem adaptBody_cases (h : adaptBody l i = .ok l') : (l.wraps[i]? = none ∧ l' = l) ∨
    ∃ l₁ l₂, (l.sitesOf i .jump).foldlM (adaptJump i) l = .ok l₁ ∧
      (l.sitesOf i .returns).foldlM (adaptReturn i) l₁ = .ok l₂ ∧
      (Keeps l l₂ → Quiet (Edit.At l.nodes ((l.sites i).map (·.2))) l₂ l') := by
  unfold adaptBody at h
  split at h
  · next hnone =>
    cases h
    exact .inl ⟨hnone, rfl⟩
  · next w hw =>
    extract_lets sites only at h
    have hsites : sites = l.sites i := by
      unfold Lowering.sites
      rw [hw]
    have honly (kind : SiteKind) : only kind = l.sitesOf i kind := by
      show ((sites.filter (·.1 = kind)).map (·.2)) = _
      rw [hsites]
      rfl
    simp only [honly] at h
    obtain ⟨l₁, h₁, h⟩ := bind_eq_ok.1 h
    obtain ⟨l₂, h₂, h⟩ := bind_eq_ok.1 h
    obtain ⟨l₃, h₃, h⟩ := bind_eq_ok.1 h
    obtain ⟨l₄, h₄, h⟩ := bind_eq_ok.1 h
    cases h
    refine .inr ⟨l₁, l₂, h₁, h₂, fun hk => ?_⟩
    have hsub {ns : Nodes} (hns : ns = l.nodes) (kind : SiteKind) {e : Edit}
        (he : e.At ns (l.sitesOf i kind)) : e.At l.nodes ((l.sites i).map (·.2)) :=
      (hns ▸ he).mono (l.sitesOf_subset i kind)
    have h₃' := (adaptAlias_quiet h₃).mono fun _ => hsub hk.nodes .this
    have hk₃ := hk.trans h₃'.toKeeps
    have h₄' := (adaptAlias_quiet h₄).mono fun _ => hsub hk₃.nodes .arguments
    refine h₃'.trans (h₄'.trans (foldl_rel Quiet.refl Quiet.trans fun k site hsite hk' => ?_))
    have hns : k.nodes = l.nodes := (hk₃.trans (h₄'.toKeeps.trans hk'.toKeeps)).nodes
    refine (stripVar_quiet _ k site).mono fun e he => hsub hns .var (he.mono fun x hx => ?_)
    exact List.mem_singleton.1 hx ▸ hsite

theorem adaptBody_adds (h : adaptBody l i = .ok l') :
    Adds (Edit.At l.nodes ((l.sites i).map (·.2))) i (l.ownRelays i) l l' := by
  rcases adaptBody_cases h with ⟨hnone, rfl⟩ | ⟨l₁, l₂, h₁, h₂, hquiet⟩
  · have hown : l'.ownRelays i = [] := by simp [ownRelays, sitesOf, sites, hnone]
    rw [hown]
    exact .ofQuiet (.refl l')
  · have hsub {k : Lowering} (hk : Keeps l k) {kind : SiteKind} {site : NodeId}
        (hsite : site ∈ l.sitesOf i kind) {e : Edit} (he : e.At k.nodes [site]) :
        e.At l.nodes ((l.sites i).map (·.2)) :=
      (hk.nodes ▸ he).mono fun x hx =>
        l.sitesOf_subset i kind (List.mem_singleton.1 hx ▸ hsite)
    have hjumps := Adds.foldlM (g := fun s => (l.nodes.jumpRelay? s).toList)
      (fun k k' s hs hk hstep => hk.nodes ▸ (adaptJump_adds hstep).mono fun _ => hsub hk hs) h₁
    have hreturns := Adds.foldlM (g := fun s => (l.nodes.returnRelay? s).toList)
      (fun k k' s hs hk hstep => by
        have hk := hjumps.toKeeps.trans hk
        exact hk.nodes ▸ (adaptReturn_adds hstep).mono fun _ => hsub hk hs) h₂
    have hall := hjumps.trans hreturns
    rw [← List.filterMap_eq_flatMap_toList, ← List.filterMap_eq_flatMap_toList] at hall
    have := hall.trans (.ofQuiet (hquiet hall.toKeeps))
    rwa [List.append_nil] at this

/-- Each jump among the sites is rewritten. -/
theorem adaptBody_rewrites (h : adaptBody l i = .ok l') {site : NodeId}
    (hs : site ∈ l.sitesOf i .jump) {n : Node} {kind : JumpKind} {label : Option NodeId}
    (hn : l.nodes.get? site = some n) (hform : n.form = .jump kind label) :
    l'.Rewrites n (Relay.ofJump? kind (label.bind l.nodes.identifier?)) := by
  rcases adaptBody_cases h with ⟨hnone, -⟩ | ⟨l₁, l₂, h₁, h₂, hquiet⟩
  · simp [sitesOf, sites, hnone] at hs
  · obtain ⟨k, k', hk, hstep, hk'⟩ := foldlM_exists_step (R := Writes fun _ => True) Writes.refl
      Writes.trans hs
      (fun _ _ _ _ _ hstep => (adaptJump_adds hstep).toWrites.mono fun _ _ => trivial) h₁
    rw [← hk.nodes] at hn ⊢
    have hjumps := hk'.rewrites (adaptJump_rewrites hstep hn hform)
    have hreturns : Writes (fun _ => True) l₁ l₂ := foldlM_rel Writes.refl Writes.trans
      (fun _ _ _ _ _ hstep => (adaptReturn_adds hstep).toWrites.mono fun _ _ => trivial) h₂
    have hk₂ := (hk.trans ((adaptJump_adds hstep).toWrites.mono fun _ _ => trivial)).trans
      (hk'.trans hreturns)
    exact (hquiet hk₂.toKeeps).toWrites.rewrites (hreturns.rewrites hjumps)

end Lowering

end LoopClosure
