import LoopClosure.Proofs.Lowering.Finish
import LoopClosure.Proofs.Lowering.Hazard

/-!
# Which loops are wrapped

The wrapped loops of a lowering are loops of hazards in the tree as it was bound, although each wrap
changes the tree that the next hazards are looked up in (`lower_picks`); and they are all of them, if
no search for one is cut off (`wrapLoops_collects`).

- `Bound.Tracks b₀ b loops`: the invariant. `b` comes from `b₀` by wrapping `loops`, and a reference
  that resolves otherwise than in `b₀` is no hazard any more, while the loop of the hazard that it
  was is among `loops`.
- `Bound.Picks b done loops`: `loops` are loops of hazards among the references `done`, in their
  order.
- `Bound.Collects b done loops`: `loops` are the loops of the hazards among the references `done`,
  in the order of the first of them.
- `Bound.SeesAll b wraps idents`: no search is cut off while the loops of hazards among `idents` are
  wrapped.
-/

namespace LoopClosure

open Syntax Scopes

namespace Bound

variable {b b' b₀ : Bound}

/-- Whether a reference is a hazard does not depend on what was added, if it still resolves to the
same scope. -/
theorem Extends.isHazard_iff (he : b.Extends b') {h : Hazard}
    (hr : b'.resolution? h.ident = b.resolution? h.ident) : b'.IsHazard h ↔ b.IsHazard h := by
  constructor
  · rintro ⟨⟨r, hres, hscope⟩, hname, ⟨d, hd, hblock⟩, ⟨y, hy, hfun⟩, n, hn, hloop⟩
    have hd' : b.scopes.declaration? h.scope h.name = some d := by
      rcases he.scopes.added hd with hd' | hnot
      · exact hd'
      · rw [hnot] at hblock
        cases hblock
    have hlt := lt_size_of_declaration? hd'
    cases hx : b.nodeScope? h.ident with
    | none =>
      rw [he.nodeScope_eq_none hx] at hy
      cases hy
    | some x =>
      obtain ⟨y', hy', -, hpath⟩ := he.nodeScope hx
      rw [hy, Option.some.injEq] at hy'
      subst y'
      rw [he.scopes.node? hlt] at hn
      exact ⟨⟨r, hr ▸ hres, hscope⟩, he.nodes ▸ hname, ⟨d, hd', hblock⟩,
        ⟨x, hx, (hpath hlt).1 hfun⟩, n, hn, he.nodes ▸ hloop⟩
  · rintro ⟨⟨r, hres, hscope⟩, hname, ⟨d, hd, hblock⟩, ⟨x, hx, hfun⟩, n, hn, hloop⟩
    have hlt := lt_size_of_declaration? hd
    obtain ⟨y, hy, -, hpath⟩ := he.nodeScope hx
    rw [← he.scopes.node? hlt] at hn
    exact ⟨⟨r, hr.trans hres, hscope⟩, he.nodes.symm ▸ hname, ⟨d, he.scopes.kept hd, hblock⟩,
      ⟨y, hy, (hpath hlt).2 hfun⟩, n, hn, he.nodes.symm ▸ hloop⟩

/-- Of a program that other wraps are still added to, the ways are no longer than afterwards. -/
theorem Extends.withinLimits (he : b.Extends b') (h : b'.WithinLimits) : b.WithinLimits where
  scopes id := by
    by_cases hid : id < b.scopes.size
    · exact Nat.lt_of_le_of_lt (he.scopes.length_walk_le hid) (h.scopes id)
    · exact length_walk_of_le (Nat.le_of_not_lt hid)
  nodes id := he.nodes ▸ h.nodes id

/-- A hazard that is not refused for where its binding is made. -/
def Admits (b : Bound) (h : Hazard) : Prop :=
  ∀ body, (b.nodes.form? h.loop).bind (·.loopBody?) = some body → b.isHeaderCapture h body = false

theorem Extends.admits_iff (he : b.Extends b') {h : Hazard} (hlt : h.scope < b.scopes.size) :
    b'.Admits h ↔ b.Admits h := by
  simp only [Admits, isHeaderCapture, he.nodes, he.scopes.node? hlt]

/-! ## Hazards after wraps -/

/-- `b` comes from `b₀` by wrapping `loops`. -/
structure Tracks (b₀ b : Bound) (loops : List NodeId) : Prop where
  toExtends : b₀.Extends b
  wellScoped : b.WellScoped
  resolution? : ∀ ident, b.resolution? ident = b₀.resolution? ident ∨
    (b.Settled ident ∧ ∀ h, b₀.IsHazard h → h.ident = ident → h.loop ∈ loops ∧ b₀.Admits h)

namespace Tracks

variable {loops : List NodeId}

theorem refl (hb : b.WellScoped) : Tracks b b [] := ⟨.refl b, hb, fun _ => .inl rfl⟩

/-- A hazard that is found was one from the start. -/
theorem isHazard (ht : Tracks b₀ b loops) {h : Hazard} (hh : b.IsHazard h) : b₀.IsHazard h := by
  rcases ht.resolution? h.ident with hr | ⟨hs, -⟩
  · exact (ht.toExtends.isHazard_iff hr).1 hh
  · exact absurd hh hs.not_isHazard

/-- A hazard from the start is found, unless its loop is wrapped already. -/
theorem isHazard_or_mem (ht : Tracks b₀ b loops) {h : Hazard} (hh : b₀.IsHazard h) :
    b.IsHazard h ∨ h.loop ∈ loops ∧ b₀.Admits h := by
  rcases ht.resolution? h.ident with hr | ⟨-, hmem⟩
  · exact .inl ((ht.toExtends.isHazard_iff hr).2 hh)
  · exact .inr (hmem h hh rfl)

/-- The references that a wrap retargets were hazards of the wrapped loop, if any. -/
theorem wrap (ht : Tracks b₀ b loops) (ho : b₀.HeadersOpen) {loop body : NodeId} {w : Wrap}
    (hbody : (b.nodes.form? loop).bind (·.loopBody?) = some body)
    (hw : b.wrap loop body = .ok (b', w)) : Tracks b₀ b' (loops ++ [loop]) := by
  obtain ⟨-, -, hwell, hext, hres⟩ := wrap_spec ht.wellScoped hw
  have hkeep : ∀ ident, b'.resolution? ident = b.resolution? ident →
      b'.resolution? ident = b₀.resolution? ident ∨ (b'.Settled ident ∧
        ∀ h, b₀.IsHazard h → h.ident = ident → h.loop ∈ loops ++ [loop] ∧ b₀.Admits h) := by
    intro ident hsame
    rcases ht.resolution? ident with hr | ⟨hs, hmem⟩
    · exact .inl (hsame.trans hr)
    · exact .inr ⟨hext.settled hs hsame, fun h hh hi =>
        (hmem h hh hi).imp_left (List.mem_append_left _)⟩
  refine ⟨ht.toExtends.trans hext, hwell, fun ident => ?_⟩
  rcases hres with hsame | ⟨hres, each, left, right, lbody, hform, hlex⟩
  · exact hkeep ident (by rw [Bound.resolution?, hsame]; rfl)
  rcases hres ident with hsame | ⟨⟨hin, r, hr, hheader⟩, hs⟩
  · exact hkeep ident hsame
  refine .inr ⟨hs, fun h hh hi => ?_⟩
  rcases ht.resolution? ident with hr₀ | ⟨-, hmem⟩
  · -- The head of the loop had its scope from the start, so the hazard is one of this loop.
    obtain ⟨⟨r', hr', hscope⟩, -, -, -, n, hn, hloop⟩ := id hh
    rw [hi, ← hr₀, hr, Option.some.injEq] at hr'
    subst r'
    rw [ht.toExtends.nodes] at hform hbody hin
    rw [ht.toExtends.unit] at hlex
    obtain ⟨header, hx, hnode⟩ := ho hform hlex
    obtain ⟨y, hy, hyx, -⟩ := ht.toExtends.nodeScope hx
    rw [hheader, Option.some.injEq] at hy
    subst y
    rcases hyx with hyx | hle
    · rw [← hscope, hyx, hnode, Option.some.injEq] at hn
      subst n
      have heq : h.loop = loop := hloop.eq_of_isLoop hform rfl
      refine ⟨heq ▸ List.mem_append_right _ List.mem_cons_self, fun body' hbody' => ?_⟩
      rw [heq, hbody, Option.some.injEq] at hbody'
      subst body'
      simp [isHeaderCapture, heq, hform, hi, hin]
    · have hlt := hh.scope_lt
      rw [← hscope] at hlt
      exact absurd hlt (Nat.not_lt_of_le hle)
  · exact (hmem h hh hi).imp_left (List.mem_append_left _)

end Tracks

/-! ## The loops of the hazards, in order -/

/-- The reference is a hazard of the loop. -/
def HazardFor (b : Bound) (ident loop : NodeId) : Prop :=
  ∃ h, b.IsHazard h ∧ h.ident = ident ∧ h.loop = loop

/-- A reference is a hazard of one loop only. -/
theorem HazardFor.loop_unique {ident loop loop' : NodeId} (hsees : b.Sees ident)
    (h : b.HazardFor ident loop) (h' : b.HazardFor ident loop') : loop = loop' := by
  obtain ⟨z, hz, hi, rfl⟩ := h
  obtain ⟨z', hz', hi', rfl⟩ := h'
  have hsome := (hazard?_eq_some_iff hsees).2 ⟨hz, hi⟩
  rw [(hazard?_eq_some_iff hsees).2 ⟨hz', hi'⟩, Option.some.injEq] at hsome
  rw [hsome]

/-- `loops` are loops of hazards among the references `done`, each once and in the order of such
references. -/
structure Picks (b : Bound) (done loops : List NodeId) : Prop where
  nodup : loops.Nodup
  found : ∃ found, found.Sublist done ∧ List.Forall₂ b.HazardFor found loops

namespace Picks

variable {done loops : List NodeId} {ident loop : NodeId}

theorem nil (b : Bound) : Picks b [] [] := ⟨.nil, [], .refl _, .nil⟩

/-- A reference more that no loop is wrapped for. -/
theorem skip (h : Picks b done loops) : Picks b (done ++ [ident]) loops := by
  obtain ⟨found, hsub, hall⟩ := h.found
  exact ⟨h.nodup, found, hsub.trans (List.sublist_append_left _ _), hall⟩

theorem push (h : Picks b done loops) (hfor : b.HazardFor ident loop) (hnew : loop ∉ loops) :
    Picks b (done ++ [ident]) (loops ++ [loop]) := by
  obtain ⟨found, hsub, hall⟩ := h.found
  refine ⟨?_, found ++ [ident], hsub.append (.refl _), List.rel_append hall (.cons hfor .nil)⟩
  exact List.nodup_append.2 ⟨h.nodup, List.nodup_singleton _, fun a ha c hc => fun heq =>
    hnew (List.mem_singleton.1 hc ▸ heq ▸ ha)⟩

/-- Each of the loops has a hazard. -/
theorem exists_hazardFor (h : Picks b done loops) (hmem : loop ∈ loops) :
    ∃ ident ∈ done, b.HazardFor ident loop := by
  obtain ⟨found, hsub, hall⟩ := h.found
  obtain ⟨i, hi, rfl⟩ := List.mem_iff_getElem.1 hmem
  have hlt : i < found.length := hall.length_eq ▸ hi
  exact ⟨found[i], hsub.subset (List.getElem_mem hlt), hall.get hlt hi⟩

end Picks

/-- `loops` are the loops of the hazards among the references `done`, each once. Every hazard of a
loop comes behind one of each loop before it. -/
structure Collects (b : Bound) (done loops : List NodeId) : Prop where
  nodup : loops.Nodup
  mem_iff : ∀ {loop : NodeId}, loop ∈ loops ↔ ∃ ident ∈ done, b.HazardFor ident loop
  ordered : loops.Pairwise fun first second => ∀ pre ident post, done = pre ++ ident :: post →
    b.HazardFor ident second → ∃ earlier ∈ pre, b.HazardFor earlier first

namespace Collects

variable {done loops : List NodeId} {ident loop : NodeId}

theorem nil (b : Bound) : Collects b [] [] := ⟨.nil, by simp, .nil⟩

theorem append_singleton_eq {pre post : List NodeId} {x : NodeId}
    (h : done ++ [ident] = pre ++ x :: post) :
    (pre = done ∧ x = ident) ∨ ∃ post', done = pre ++ x :: post' := by
  rcases List.eq_nil_or_concat post with rfl | ⟨post', y, rfl⟩
  · obtain ⟨hpre, hx⟩ := List.append_inj' h rfl
    exact .inl ⟨hpre.symm, (List.singleton_inj.1 hx).symm⟩
  · right
    rw [List.concat_eq_append, ← List.cons_append, ← List.append_assoc] at h
    exact ⟨post', (List.append_inj' h rfl).1⟩

/-- What holds of the loops so far holds of them with one reference more. -/
theorem ordered_snoc (h : Collects b done loops) :
    loops.Pairwise fun first second => ∀ pre x post, done ++ [ident] = pre ++ x :: post →
      b.HazardFor x second → ∃ earlier ∈ pre, b.HazardFor earlier first := by
  refine h.ordered.imp_of_mem fun {first second} hfirst _ hpair pre x post heq hx => ?_
  rcases append_singleton_eq heq with ⟨rfl, rfl⟩ | ⟨post', hdone⟩
  · exact h.mem_iff.1 hfirst
  · exact hpair pre x post' hdone hx

/-- A reference that is a hazard of none but loops that are there. -/
theorem skip (h : Collects b done loops) (hall : ∀ loop, b.HazardFor ident loop → loop ∈ loops) :
    Collects b (done ++ [ident]) loops := by
  refine ⟨h.nodup, fun {loop} => ⟨fun hmem => ?_, ?_⟩, h.ordered_snoc⟩
  · obtain ⟨x, hx, hfor⟩ := h.mem_iff.1 hmem
    exact ⟨x, List.mem_append_left _ hx, hfor⟩
  · rintro ⟨x, hx, hfor⟩
    rcases List.mem_append.1 hx with hx | hx
    · exact h.mem_iff.2 ⟨x, hx, hfor⟩
    · exact hall loop (List.mem_singleton.1 hx ▸ hfor)

/-- The first hazard of a loop. -/
theorem push (h : Collects b done loops) (hfor : b.HazardFor ident loop) (hnew : loop ∉ loops)
    (hone : ∀ loop', b.HazardFor ident loop' → loop' = loop) :
    Collects b (done ++ [ident]) (loops ++ [loop]) := by
  refine ⟨?_, fun {loop'} => ⟨fun hmem => ?_, ?_⟩, ?_⟩
  · refine List.nodup_append.2 ⟨h.nodup, by simp, fun a ha c hc => ?_⟩
    rintro rfl
    exact hnew (List.mem_singleton.1 hc ▸ ha)
  · rcases List.mem_append.1 hmem with hmem | hmem
    · obtain ⟨x, hx, hfor'⟩ := h.mem_iff.1 hmem
      exact ⟨x, List.mem_append_left _ hx, hfor'⟩
    · exact ⟨ident, List.mem_append_right _ List.mem_cons_self,
        (List.mem_singleton.1 hmem).symm ▸ hfor⟩
  · rintro ⟨x, hx, hfor'⟩
    rcases List.mem_append.1 hx with hx | hx
    · exact List.mem_append_left _ (h.mem_iff.2 ⟨x, hx, hfor'⟩)
    · rw [hone loop' (List.mem_singleton.1 hx ▸ hfor')]
      exact List.mem_append_right _ List.mem_cons_self
  · refine List.pairwise_append.2 ⟨h.ordered_snoc, List.pairwise_singleton _ _, ?_⟩
    intro first hfirst second hsecond pre x post heq hx
    rw [List.mem_singleton.1 hsecond] at hx
    rcases append_singleton_eq heq with ⟨rfl, rfl⟩ | ⟨post', rfl⟩
    · exact h.mem_iff.1 hfirst
    · exact absurd (h.mem_iff.2 ⟨x, by simp, hx⟩) hnew

end Collects

/-! ## All wraps -/

section WrapAll

variable {wraps wraps' : Array Wrap} {idents : List NodeId}

/-- The loops that are wrapped, in the order of the wraps. -/
def loopsOf (wraps : Array Wrap) : List NodeId := wraps.toList.map (·.loop)

theorem any_loop_iff {loop : NodeId} : wraps.any (·.loop = loop) = true ↔ loop ∈ loopsOf wraps := by
  rw [Array.any_eq_true']
  simp [loopsOf]

theorem loopsOf_push (wraps : Array Wrap) (w : Wrap) :
    loopsOf (wraps.push w) = loopsOf wraps ++ [w.loop] := by
  simp [loopsOf]

/-- What becomes of a hazard, unless it is refused: its loop is wrapped, if it is not already. -/
theorem wrapHazard_cases {h : Hazard} (hw : b.wrapHazard wraps h = .ok (b', wraps')) :
    b.unit.options.loopClosures = .iife ∧ b.Admits h ∧
      ((b' = b ∧ wraps' = wraps ∧ ((b.nodes.form? h.loop).bind (·.loopBody?) = none ∨
          h.loop ∈ loopsOf wraps)) ∨
        ∃ body w, (b.nodes.form? h.loop).bind (·.loopBody?) = some body ∧
          b.nodes.isBlocked body = false ∧ h.loop ∉ loopsOf wraps ∧
          b.wrap h.loop body = .ok (b', w) ∧ wraps' = wraps.push w) := by
  unfold wrapHazard at hw
  extract_lets untransformable at hw
  split at hw
  · cases hw
  · next hiife hbody =>
    cases hw
    refine ⟨hiife, fun body hbody' => ?_, .inl ⟨rfl, rfl, .inl hbody⟩⟩
    rw [hbody] at hbody'
    cases hbody'
  · next body hiife hbody =>
    split at hw
    · cases hw
    · next hhead =>
      have hadmits : b.Admits h := fun body' hbody' => by
        rw [hbody, Option.some.injEq] at hbody'
        exact hbody' ▸ Bool.eq_false_iff.2 hhead
      refine ⟨hiife, hadmits, ?_⟩
      split at hw
      · cases hw
      split at hw
      · next hany =>
        cases hw
        exact .inl ⟨rfl, rfl, .inr (any_loop_iff.1 hany)⟩
      · next hblocked hany =>
        obtain ⟨⟨b₁, w⟩, hwrap, hw⟩ := bind_eq_ok.1 hw
        cases hw
        exact .inr ⟨body, w, hbody, Bool.eq_false_iff.2 hblocked, mt any_loop_iff.2 hany, hwrap,
          rfl⟩

theorem wrapHazard_extends {h : Hazard} (hb : b.WellScoped)
    (hw : b.wrapHazard wraps h = .ok (b', wraps')) : b'.WellScoped ∧ b.Extends b' := by
  obtain ⟨-, -, ⟨rfl, -, -⟩ | ⟨body, w, -, -, -, hwrap, -⟩⟩ := wrapHazard_cases hw
  · exact ⟨hb, .refl _⟩
  · obtain ⟨-, -, hwell, hext, -⟩ := wrap_spec hb hwrap
    exact ⟨hwell, hext⟩

theorem wrapAll_extends (hb : b.WellScoped) (h : wrapAll b wraps idents = .ok (b', wraps')) :
    b'.WellScoped ∧ b.Extends b' := by
  induction idents generalizing b wraps with
  | nil =>
    cases h
    exact ⟨hb, .refl _⟩
  | cons ident idents ih =>
    unfold wrapAll at h
    split at h
    · exact ih hb h
    · obtain ⟨⟨b₁, wraps₁⟩, hw, h⟩ := bind_eq_ok.1 h
      obtain ⟨hb₁, hext⟩ := wrapHazard_extends hb hw
      obtain ⟨hb', hext'⟩ := ih hb₁ h
      exact ⟨hb', hext.trans hext'⟩

theorem Tracks.wrapHazard {h : Hazard} (ho : b₀.HeadersOpen) (ht : Tracks b₀ b (loopsOf wraps))
    (hw : b.wrapHazard wraps h = .ok (b', wraps')) : Tracks b₀ b' (loopsOf wraps') := by
  obtain ⟨-, -, ⟨rfl, rfl, -⟩ | ⟨body, w, hbody, -, -, hwrap, rfl⟩⟩ := wrapHazard_cases hw
  · exact ht
  · obtain ⟨hl, -⟩ := wrap_spec ht.wellScoped hwrap
    rw [loopsOf_push, hl]
    exact ht.wrap ho hbody hwrap

/-- Whatever was wrapped before, a loop is wrapped for a hazard of the untouched tree. -/
theorem wrapAll_picks {done : List NodeId} (ho : b₀.HeadersOpen)
    (ht : Tracks b₀ b (loopsOf wraps)) (hp : Picks b₀ done (loopsOf wraps))
    (h : wrapAll b wraps idents = .ok (b', wraps')) :
    Picks b₀ (done ++ idents) (loopsOf wraps') := by
  induction idents generalizing b wraps done with
  | nil =>
    cases h
    rwa [List.append_nil]
  | cons ident idents ih =>
    rw [List.append_cons]
    unfold wrapAll at h
    split at h
    · exact ih ht hp.skip h
    · next z hsome =>
      obtain ⟨hz, rfl⟩ := isHazard_of_hazard? hsome
      obtain ⟨⟨b₁, wraps₁⟩, hw, h⟩ := bind_eq_ok.1 h
      refine ih (ht.wrapHazard ho hw) ?_ h
      obtain ⟨-, -, ⟨rfl, rfl, -⟩ | ⟨body, w, -, -, hnew, hwrap, rfl⟩⟩ := wrapHazard_cases hw
      · exact hp.skip
      · obtain ⟨hl, -⟩ := wrap_spec ht.wellScoped hwrap
        rw [loopsOf_push, hl]
        exact hp.push ⟨z, ht.isHazard hz, rfl, rfl⟩ hnew

/-- No search is cut off while the loops of the hazards among `idents` are wrapped. -/
def SeesAll (b : Bound) (wraps : Array Wrap) : List NodeId → Prop
  | [] => True
  | ident :: idents => b.Sees ident ∧
    match b.hazard? ident with
    | none => b.SeesAll wraps idents
    | some h => ∀ b' wraps', b.wrapHazard wraps h = .ok (b', wraps') → b'.SeesAll wraps' idents

theorem seesAll_cons_of_none {ident : NodeId} (h : b.hazard? ident = none) :
    b.SeesAll wraps (ident :: idents) ↔ b.Sees ident ∧ b.SeesAll wraps idents := by
  rw [SeesAll, h]

theorem seesAll_cons_of_some {ident : NodeId} {z : Hazard} (h : b.hazard? ident = some z) :
    b.SeesAll wraps (ident :: idents) ↔ b.Sees ident ∧ ∀ b' wraps',
      b.wrapHazard wraps z = .ok (b', wraps') → b'.SeesAll wraps' idents := by
  rw [SeesAll, h]

/-- If no way up is too long in the end, none was before. -/
theorem seesAll_of_withinLimits (hb : b.WellScoped) (h : wrapAll b wraps idents = .ok (b', wraps'))
    (hlim : b'.WithinLimits) : b.SeesAll wraps idents := by
  induction idents generalizing b wraps with
  | nil => trivial
  | cons ident idents ih =>
    have hident := ((wrapAll_extends hb h).2.withinLimits hlim).sees ident
    unfold wrapAll at h
    split at h
    · next hnone => exact (seesAll_cons_of_none hnone).2 ⟨hident, ih hb h⟩
    · next z hsome =>
      obtain ⟨⟨b₁, wraps₁⟩, hw, h⟩ := bind_eq_ok.1 h
      refine (seesAll_cons_of_some hsome).2 ⟨hident, fun b₂ wraps₂ hw₂ => ?_⟩
      cases hw.symm.trans hw₂
      exact ih (wrapHazard_extends hb hw).1 h

/-- One reference: the wraps go on to be those of the hazards in the program as it was bound. -/
theorem wrapHazard_collects {done : List NodeId} {h : Hazard} (hsees : b₀.Sees h.ident)
    (ht : Tracks b₀ b (loopsOf wraps)) (hc : Collects b₀ done (loopsOf wraps)) (hh : b.IsHazard h)
    (hw : b.wrapHazard wraps h = .ok (b', wraps')) :
    Collects b₀ (done ++ [h.ident]) (loopsOf wraps') := by
  have hfor : b₀.HazardFor h.ident h.loop := ⟨h, ht.isHazard hh, rfl, rfl⟩
  have hone (loop : NodeId) (hl : b₀.HazardFor h.ident loop) : loop = h.loop :=
    hl.loop_unique hsees hfor
  obtain ⟨-, -, ⟨rfl, rfl, hnone | hmem⟩ | ⟨body, w, -, -, hnew, hwrap, rfl⟩⟩ := wrapHazard_cases hw
  · obtain ⟨n, -, hloop⟩ := hh.loop
    obtain ⟨form, hf, hl⟩ := hloop.isLoop
    rw [hf, Option.bind_some] at hnone
    rw [Form.isLoop, hnone] at hl
    cases hl
  · exact hc.skip fun loop hl => hone loop hl ▸ hmem
  · obtain ⟨hl, -⟩ := wrap_spec ht.wellScoped hwrap
    rw [loopsOf_push, hl]
    exact hc.push hfor hnew hone

/-- All references: the verdicts are those of the untouched tree, whatever was wrapped before. -/
theorem wrapAll_collects {done : List NodeId} (ho : b₀.HeadersOpen) (hlim : b₀.WithinLimits)
    (hsees : b.SeesAll wraps idents) (ht : Tracks b₀ b (loopsOf wraps))
    (hc : Collects b₀ done (loopsOf wraps)) (h : wrapAll b wraps idents = .ok (b', wraps')) :
    Collects b₀ (done ++ idents) (loopsOf wraps') := by
  induction idents generalizing b wraps done with
  | nil =>
    cases h
    rwa [List.append_nil]
  | cons ident idents ih =>
    rw [List.append_cons]
    unfold wrapAll at h
    split at h
    · next hnone =>
      obtain ⟨hident, hrest⟩ := (seesAll_cons_of_none hnone).1 hsees
      refine ih hrest ht (hc.skip fun loop hl => ?_) h
      obtain ⟨z, hz, hi, rfl⟩ := hl
      rcases ht.isHazard_or_mem hz with hz | ⟨hmem, -⟩
      · rw [(hazard?_eq_some_iff hident).2 ⟨hz, hi⟩] at hnone
        cases hnone
      · exact hmem
    · next z hsome =>
      obtain ⟨-, hrest⟩ := (seesAll_cons_of_some hsome).1 hsees
      obtain ⟨hz, rfl⟩ := isHazard_of_hazard? hsome
      obtain ⟨⟨b₁, wraps₁⟩, hw, h⟩ := bind_eq_ok.1 h
      exact ih (hrest b₁ wraps₁ hw) (ht.wrapHazard ho hw)
        (wrapHazard_collects (hlim.sees z.ident) ht hc hz hw) h

/-- Hazards that wrapping the body would not help are errors. -/
theorem wrapAll_admits (ho : b₀.HeadersOpen) (hsees : b.SeesAll wraps idents)
    (ht : Tracks b₀ b (loopsOf wraps)) (h : wrapAll b wraps idents = .ok (b', wraps')) :
    ∀ z, b₀.IsHazard z → z.ident ∈ idents → b₀.Admits z := by
  induction idents generalizing b wraps with
  | nil => exact fun _ _ hmem => by cases hmem
  | cons ident idents ih =>
    intro z hz hmem
    unfold wrapAll at h
    split at h
    · next hnone =>
      obtain ⟨hident, hrest⟩ := (seesAll_cons_of_none hnone).1 hsees
      rcases List.mem_cons.1 hmem with hi | hmem
      · rcases ht.isHazard_or_mem hz with hzb | ⟨-, hadmits⟩
        · rw [(hazard?_eq_some_iff hident).2 ⟨hzb, hi⟩] at hnone
          cases hnone
        · exact hadmits
      · exact ih hrest ht h z hz hmem
    · next z' hsome =>
      obtain ⟨hident, hrest⟩ := (seesAll_cons_of_some hsome).1 hsees
      obtain ⟨⟨b₁, wraps₁⟩, hw, h⟩ := bind_eq_ok.1 h
      rcases List.mem_cons.1 hmem with hi | hmem
      · rcases ht.isHazard_or_mem hz with hzb | ⟨-, hadmits⟩
        · rw [(hazard?_eq_some_iff hident).2 ⟨hzb, hi⟩, Option.some.injEq] at hsome
          obtain ⟨-, hadmits, -⟩ := wrapHazard_cases hw
          exact (ht.toExtends.admits_iff hz.scope_lt).1 (hsome ▸ hadmits)
        · exact hadmits
      · exact ih (hrest b₁ wraps₁ hw) (ht.wrapHazard ho hw) h z hz hmem

theorem wrapLoops_picks (hb : b.WellScoped) (ho : b.HeadersOpen)
    (h : b.wrapLoops = .ok (b', wraps)) : Picks b b.references (loopsOf wraps) := by
  have ht : Tracks b b (loopsOf #[]) := .refl hb
  have hp : Picks b [] (loopsOf #[]) := .nil b
  have hall := wrapAll_picks ho ht hp h
  rwa [List.nil_append] at hall

theorem wrapLoops_collects (hb : b.WellScoped) (ho : b.HeadersOpen) (hlim : b.WithinLimits)
    (hsees : b.SeesAll #[] b.references) (h : b.wrapLoops = .ok (b', wraps)) :
    Collects b b.references (loopsOf wraps) := by
  have ht : Tracks b b (loopsOf #[]) := .refl hb
  have hc : Collects b [] (loopsOf #[]) := .nil b
  have hall := wrapAll_collects ho hlim hsees ht hc h
  rwa [List.nil_append] at hall

/-- References that are no hazards change nothing. -/
theorem wrapAll_append {pre : List NodeId}
    (hpre : ∀ ident ∈ pre, ∀ loop, ¬b.HazardFor ident loop) :
    wrapAll b wraps (pre ++ idents) = wrapAll b wraps idents := by
  induction pre with
  | nil => rfl
  | cons ident pre ih =>
    have hnone : b.hazard? ident = none := by
      rw [Option.eq_none_iff_forall_ne_some]
      intro h hh
      obtain ⟨hz, hi⟩ := isHazard_of_hazard? hh
      exact hpre ident List.mem_cons_self h.loop ⟨h, hz, hi, rfl⟩
    rw [List.cons_append, wrapAll, hnone]
    exact ih fun x hx => hpre x (List.mem_cons_of_mem _ hx)

/-- When closures over loop variables are errors, the first hazard is one. -/
theorem wrapLoops_eq_error (hlim : b.WithinLimits) (herror : b.unit.options.loopClosures = .error)
    {pre post : List NodeId} {h : Hazard} (hrefs : b.references = pre ++ h.ident :: post)
    (hpre : ∀ ident ∈ pre, ∀ loop, ¬b.HazardFor ident loop) (hh : b.IsHazard h) :
    b.wrapLoops = .error (b.unit.defectAt .loopClosureNotTransformable h.ident h.name) := by
  have hsome : b.hazard? h.ident = some h := (hazard?_eq_some_iff (hlim.sees _)).2 ⟨hh, rfl⟩
  rw [wrapLoops, hrefs, wrapAll_append hpre, wrapAll, hsome]
  simp only [wrapHazard, herror]
  rfl

end WrapAll

end Bound

/-! ## Lowering -/

/-- The wrapped loop that is reported for a loop. -/
def WrappedLoop.IsAt (ns : Nodes) (w : WrappedLoop) (loop : NodeId) : Prop :=
  ∃ n, ns.get? loop = some n ∧ w.start = n.start ∧ w.stop = n.stop

theorem forall₂_mapIdx {α β γ : Type} {R : β → γ → Prop} {f : Nat → α → β} {g : α → γ}
    {as : List α} (h : ∀ i a, a ∈ as → R (f i a) (g a)) :
    List.Forall₂ R (as.mapIdx f) (as.map g) := by
  induction as generalizing f with
  | nil => exact .nil
  | cons a as ih =>
    rw [List.mapIdx_cons, List.map_cons]
    exact .cons (h 0 a List.mem_cons_self)
      (ih fun i b hb => h (i + 1) b (List.mem_cons_of_mem _ hb))

/-- A draft without edits is the source. -/
theorem Edits.apply_of_isEmpty {e : Edits} (h : e.edits = #[]) : e.apply = .ok e.source := by
  have hordered : e.ordered = [] := by
    rw [ordered, active, h]
    rfl
  have hslice : Text.slice? e.source 0 (Text.size e.source) = some e.source := by
    have := Text.slice?_append [] e.source []
    rwa [List.nil_append, List.append_nil, Text.size, Nat.zero_add] at this
  simp only [apply, hordered, List.filter_nil, List.findSome?_nil, overlap?, write, copy, hslice]

variable {b : Bound} {l : Lowered}

/-- Without wraps there is nothing to write. -/
theorem lower_of_wrapLoops_empty (h : b.wrapLoops = .ok (b, #[])) : ∃ l, lower b = .ok l ∧
    l.code = b.unit.source ∧ l.edits = [] ∧ l.wrappedLoops = [] := by
  have hfinish : (Lowering.ofWraps b #[]).finish = .ok (.ofWraps b #[]) := rfl
  have happly : (Lowering.ofWraps b #[]).draft.apply = .ok b.unit.source := by
    rw [Draft.apply, Edits.apply_of_isEmpty rfl]
    rfl
  refine ⟨⟨b.unit.source, [], [], b⟩, ?_, rfl, rfl, rfl⟩
  exact bind_eq_ok.2 ⟨_, h, bind_eq_ok.2 ⟨_, hfinish, bind_eq_ok.2 ⟨_, happly, rfl⟩⟩⟩

/-- The limits of the program after the lowering are limits before it is written. -/
theorem Lowering.Keeps.withinLimits {l l' : Lowering} (h : Keeps l l')
    (hlim : l'.bound.WithinLimits) : l.bound.WithinLimits where
  scopes id := by
    have := hlim.scopes id
    rwa [walk, walkUp_congr fun _ => h.shape.parent? _] at this
  nodes id := by
    have := hlim.nodes id
    rwa [h.bound] at this

/-- The wrapped loops that are reported are those of hazards, in order. -/
theorem lower_picks (hb : b.WellScoped) (ho : b.HeadersOpen) (h : lower b = .ok l) : ∃ b' wraps,
    b.wrapLoops = .ok (b', wraps) ∧
      List.Forall₂ (WrappedLoop.IsAt b.nodes) l.wrappedLoops (Bound.loopsOf wraps) ∧
      b.Picks b.references (Bound.loopsOf wraps) := by
  obtain ⟨⟨b', wraps⟩, hwraps, h⟩ := bind_eq_ok.1 h
  obtain ⟨k, hfinish, h⟩ := bind_eq_ok.1 h
  obtain ⟨code, -, h⟩ := bind_eq_ok.1 h
  cases h
  have hkeeps := Lowering.finish_keeps Array.size_replicate hfinish
  have hp := Bound.wrapLoops_picks hb ho hwraps
  refine ⟨b', wraps, hwraps, forall₂_mapIdx fun i w hw => ?_, hp⟩
  have hnodes : k.nodes = b.nodes := hkeeps.nodes.trans (Bound.wrapAll_extends hb hwraps).2.nodes
  obtain ⟨ident, -, z, hz, -, hl⟩ := hp.exists_hazardFor (List.mem_map_of_mem hw)
  obtain ⟨n, -, hloop⟩ := hz.loop
  obtain ⟨form, hf, -⟩ := hloop.isLoop
  rw [hl] at hf
  obtain ⟨node, hnode, -⟩ := Option.map_eq_some_iff.1 hf
  refine ⟨node, hnode, ?_, ?_⟩
  · simp [Lowering.wrappedLoop, hnodes, Nodes.start, hnode]
  · simp [Lowering.wrappedLoop, hnodes, hnode]

end LoopClosure
