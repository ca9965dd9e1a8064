import LoopClosure.Proofs.Edit.Segments
import LoopClosure.Proofs.Lowering.Cuts

/-!
# Lowerings can be applied

The edits of a lowering never get in each other's way. A site belongs to one wrap and is of one kind
(`Lowering.Nested.sitesOf_unique`). What a lowering replaces begins, one edit after the other, where
different sites begin (`Lowering.Replaces`), so that no two replacements share their place. Of the
uses of `this` and of a free `arguments`, those whose value is handed in are replaced, each by the
alias, and the others are left as they are (`aliased_of_handed`, `untouched_of_not_handed`).
-/

namespace LoopClosure

open Syntax Syntax.Nodes Text

/-! ## Sites -/

namespace Bound

variable {b : Bound} {isWrapped : NodeId → Bool} {body id : NodeId} {depth : Nat} {inArrow : Bool}

theorem siteChildren_sublist (form : Form NodeId) : (siteChildren form).Sublist form.children := by
  cases form with
  | function place name params body traits =>
    cases place <;> first | exact .refl _ | exact List.nil_sublist _
  | classBody place name heritage members =>
    have hheritage : heritage.toList.Sublist (name.toList ++ heritage.toList) :=
      List.sublist_append_right _ _
    exact hheritage.trans (List.sublist_append_left _ _)
  | _ => exact .refl _

/-- The search for sites finds each node once. -/
theorem nodup_sitesWithin (h : b.nodes.WellFormed) :
    ((b.sitesWithin isWrapped body depth inArrow id).map (·.2)).Nodup := by
  induction depth generalizing inArrow id with
  | zero => exact List.nodup_nil
  | succ depth ih =>
    unfold sitesWithin
    split
    · exact List.nodup_nil
    · split
      · exact List.nodup_nil
      · next form hf =>
        have hparent {c : NodeId} (hc : c ∈ siteChildren form) : b.nodes.parent? c = some id :=
          parent?_of_form? h hf (siteChildren_subset form hc)
        have hchildren : (siteChildren form).Nodup := by
          refine (siteChildren_sublist form).nodup ?_
          obtain ⟨n, hn, rfl⟩ := Option.map_eq_some_iff.1 hf
          have hnodup := h.nodup id
          rwa [children, hn] at hnodup
        have hinside {c s : NodeId}
            (hs : s ∈ (b.sitesWithin isWrapped body depth (inArrow || form.isArrow) c).map (·.2)) :
            b.nodes.Inside c s := by
          obtain ⟨⟨kind, s'⟩, hsite, rfl⟩ := List.mem_map.1 hs
          exact (mem_sitesWithin h hsite).1
        rw [List.map_append, List.map_flatMap, List.nodup_append]
        refine ⟨?_, List.nodup_flatMap.2 ⟨fun c _ => ih, ?_⟩, fun s hs s' hs' heq => ?_⟩
        · cases b.siteKind? body inArrow id form <;> simp
        · refine hchildren.pairwise_of_forall_ne fun c hc c' hc' hne s hs hs' => ?_
          exact hne (Inside.child_unique h (hparent hc) (hparent hc') (hinside hs) (hinside hs'))
        · -- The node itself is found before its children.
          obtain rfl : s = id := by
            obtain ⟨site, hsite, rfl⟩ := List.mem_map.1 hs
            obtain ⟨kind, -, rfl⟩ := Option.map_eq_some_iff.1 (Option.mem_toList.1 hsite)
            rfl
          obtain ⟨c, hc, hs'⟩ := List.mem_flatMap.1 hs'
          have hle := (hinside hs').le h
          exact absurd (heq ▸ hle) (Nat.not_le_of_lt (h.parent_lt (hparent hc)))

end Bound

namespace Lowering

variable {l l' l'' : Lowering} {s : NodeId} {i j : Nat} {kind kind' : SiteKind}

theorem nodup_sitesOf (h : l.nodes.WellFormed) (i : Nat) (kind : SiteKind) :
    (l.sitesOf i kind).Nodup := by
  have hsites : ((l.sites i).map (·.2)).Nodup := by
    unfold sites
    split
    · exact List.nodup_nil
    · exact Bound.nodup_sitesWithin h
  exact hsites.sublist (List.filter_sublist.map _)

/-- A site belongs to one wrap and is of one kind. -/
theorem Nested.sitesOf_unique (hn : l.Nested) (hs : s ∈ l.sitesOf i kind)
    (hs' : s ∈ l.sitesOf j kind') : i = j ∧ kind = kind' := by
  have hns := hn.nodes
  obtain ⟨w, hw, hsite⟩ := mem_sitesOf hs
  obtain ⟨v, hv, hsite'⟩ := mem_sitesOf hs'
  obtain ⟨hin, hopen, -, inArrow, form, hf, hkind, harrow⟩ := Bound.mem_sitesWithin hns hsite
  obtain ⟨hin', hopen', -, inArrow', form', hf', hkind', harrow'⟩ :=
    Bound.mem_sitesWithin hns hsite'
  have hbody : w.body = v.body := (innermost_of_unwrapped hin hopen).body_eq hn
    (innermost_of_unwrapped hin' hopen') hw hv
  have hloop : w.loop = v.loop := by
    have hp := hn.wraps.parent?_body hns hw
    rw [hbody, hn.wraps.parent?_body hns hv] at hp
    exact (Option.some.inj hp).symm
  refine ⟨hn.wraps.unique hw hv hloop, ?_⟩
  rw [hbody] at hkind harrow
  obtain rfl : inArrow = inArrow' := Bool.eq_iff_iff.2 (harrow.trans harrow'.symm)
  cases hf.symm.trans hf'
  exact Option.some.inj (hkind.symm.trans hkind')

namespace Account

variable {source : List Char} {options : Options}

/-- A site is something that an edit can replace. -/
theorem isMark_of_site (ha : l.Account source options) (hs : s ∈ l.sitesOf i kind) :
    ∃ n, l.nodes.IsMark s n := by
  have hns := ha.nested.nodes
  obtain ⟨w, hw, hsite⟩ := mem_sitesOf hs
  obtain ⟨-, -, -, inArrow, form, hf, hkind, -⟩ := Bound.mem_sitesWithin hns hsite
  have halias {a : Alias} (ho : l.Occurs s a) : ∃ n, l.nodes.IsMark s n := by
    obtain ⟨n, huse⟩ := ha.isUse ho
    exact ⟨n, ha.isMark_of_isUse huse⟩
  have hkeyword (hk : form.hasKeyword = true) : ∃ n, l.nodes.IsMark s n := by
    obtain ⟨n, hn, rfl⟩ := Option.map_eq_some_iff.1 hf
    exact ⟨n, .of_keyword hns hn hk⟩
  rcases Bound.form_of_siteKind? hkind with rfl | ⟨name, rfl⟩ | hk
  · exact halias (a := .this) hf
  · cases kind with
    | arguments => exact halias ((siteKind?_eq_iff (a := .arguments) hf).1 hkind)
    | _ => simp [Bound.siteKind?] at hkind
  · exact hkeyword hk

end Account

/-! ## Replacements -/

/-- Where the replacements made so far begin. -/
def replacedAt (l : Lowering) : List Nat := (l.made.filter (·.isReplacement)).map (·.start)

/-- A step whose replacements begin, in order, where some of the sites begin. -/
structure Replaces (sites : List NodeId) (l l' : Lowering) : Prop where
  nodes : l'.nodes = l.nodes
  starts : ∃ starts, l'.replacedAt = l.replacedAt ++ starts ∧
    starts.Sublist (sites.map l.nodes.start)

namespace Replaces

variable {sites sites' : List NodeId}

/-- Edits that begin at no site replace nothing. -/
theorem of_writes (ns : Nodes) (h : Writes (Edit.At ns []) l l') : Replaces [] l l' := by
  obtain ⟨es, hes, hat⟩ := h.edits
  have hnone : es.filter (·.isReplacement) = [] := by
    refine List.filter_eq_nil_iff.2 fun e he hr => ?_
    obtain ⟨s, hs, -⟩ := (hat e he).site hr
    cases hs
  refine ⟨h.nodes, [], ?_, .refl _⟩
  rw [replacedAt, made, hes, List.filter_append, hnone, List.append_nil, List.append_nil]
  rfl

theorem refl (l : Lowering) : Replaces [] l l := of_writes l.nodes (.refl l)

theorem trans (h : Replaces sites l l') (h' : Replaces sites' l' l'') :
    Replaces (sites ++ sites') l l'' := by
  obtain ⟨starts, heq, hsub⟩ := h.starts
  obtain ⟨starts', heq', hsub'⟩ := h'.starts
  refine ⟨h'.nodes.trans h.nodes, starts ++ starts', by rw [heq', heq, List.append_assoc], ?_⟩
  rw [List.map_append]
  exact hsub.append (h.nodes ▸ hsub')

/-- A step that replaces nothing more. -/
theorem thenNothing (h : Replaces sites l l') (h' : Replaces [] l' l'') : Replaces sites l l'' := by
  have htrans := h.trans h'
  rwa [List.append_nil] at htrans

theorem mono (h : Replaces sites l l') (hsub : sites.Sublist sites') : Replaces sites' l l' := by
  obtain ⟨starts, heq, hstarts⟩ := h.starts
  exact ⟨h.nodes, starts, heq, hstarts.trans (hsub.map _)⟩

theorem foldlM {α : Type} {step : Lowering → α → Except Failure Lowering} {f : α → List NodeId}
    {as : List α} (hstep : ∀ {t t' a}, Keeps l t → step t a = .ok t' → Keeps t t' ∧
      Replaces (f a) t t') (h : as.foldlM step l = .ok l') : Replaces (as.flatMap f) l l' := by
  induction as generalizing l with
  | nil =>
    rw [List.foldlM_nil, pure_eq_ok] at h
    exact h ▸ .refl l
  | cons a as ih =>
    obtain ⟨t, ht, h⟩ := foldlM_cons_eq_ok.1 h
    obtain ⟨hkeeps, hfirst⟩ := hstep (.refl l) ht
    exact hfirst.trans (ih (fun hk => hstep (hkeeps.trans hk)) h)

theorem foldl {step : Lowering → NodeId → Lowering}
    (hstep : ∀ t s, Replaces [s] t (step t s)) (l : Lowering) (sites : List NodeId) :
    Replaces sites l (sites.foldl step l) := by
  induction sites generalizing l with
  | nil => exact .refl l
  | cons s sites ih => exact (hstep l s).trans (ih (step l s))

end Replaces

/-! ## Steps -/

theorem replace_replaces {n : Node} {start : Nat} (hn : l.nodes.get? s = some n)
    (hstart : start = n.start) (stop : Nat) (text : String) :
    Replaces [s] l (l.replace start stop text) := by
  refine ⟨rfl, [start], ?_, ?_⟩
  · rw [replacedAt, made_replace, List.filter_append, List.map_append]
    rfl
  · rw [List.map_singleton, Nodes.start, hn, hstart]
    exact .refl _

theorem insertAfter_replaces (l : Lowering) (position : Nat) (text : String) :
    Replaces [] l (l.insertAfter position text) :=
  .of_writes l.nodes (insertAfter_quiet l position text).toWrites

theorem permanentName_replaces {key name : String} (h : l.permanentName key = .ok (l', name)) :
    Replaces [] l l' := .of_writes l.nodes (permanentName_quiet h).1.toWrites

theorem addRelay_replaces (l : Lowering) (i : Nat) (r : Relay) : Replaces [] l (l.addRelay i r) :=
  .of_writes l.nodes (addRelay_adds l i r).toWrites

theorem adaptJump_replaces (h : adaptJump i l s = .ok l') : Replaces [s] l l' := by
  unfold adaptJump at h
  split at h
  · next hn =>
    split at h
    · cases h
      exact replace_replaces hn rfl _ _
    · obtain ⟨⟨l₁, flag⟩, hname, h⟩ := bind_eq_ok.1 h
      cases h
      have hnamed := permanentName_replaces hname
      rw [← hnamed.nodes] at hn
      exact hnamed.trans ((replace_replaces hn rfl _ _).thenNothing (addRelay_replaces _ _ _))
  · cases h
    exact (Replaces.refl l).mono (List.nil_sublist _)

theorem adaptReturn_replaces (h : adaptReturn i l s = .ok l') : Replaces [s] l l' := by
  unfold adaptReturn at h
  split at h
  · next hn =>
    split at h
    · obtain ⟨⟨l₁, flag⟩, hname, h⟩ := bind_eq_ok.1 h
      cases h
      have hnamed := permanentName_replaces hname
      rw [← hnamed.nodes] at hn
      exact hnamed.trans ((replace_replaces hn rfl _ _).thenNothing (addRelay_replaces _ _ _))
    · obtain ⟨⟨l₁, flag⟩, hname, h⟩ := bind_eq_ok.1 h
      cases h
      have hnamed := permanentName_replaces hname
      rw [← hnamed.nodes] at hn
      exact hnamed.trans (((replace_replaces hn rfl _ _).thenNothing
        (insertAfter_replaces _ _ _)).thenNothing (addRelay_replaces _ _ _))
  · cases h
    exact (Replaces.refl l).mono (List.nil_sublist _)

theorem putAlias_replaces (l : Lowering) (name : String) (sites : List NodeId) :
    Replaces sites l (sites.foldl (fun l site =>
      match l.nodes.get? site with
      | some n => l.replace n.start n.stop name
      | none => l) l) := by
  refine .foldl (fun t s => ?_) l sites
  split
  · next n hn => exact replace_replaces hn rfl _ _
  · exact (Replaces.refl t).mono (List.nil_sublist _)

theorem adaptAlias_replaces {a : Alias} {scope : ScopeId} {sites : List NodeId}
    (h : adaptAlias a scope l sites = .ok l') : Replaces sites l l' := by
  unfold adaptAlias at h
  split at h
  · cases h
    exact .refl l
  · obtain ⟨⟨l₁, name⟩, hname, h⟩ := bind_eq_ok.1 h
    cases h
    have hinit : Replaces [] l l₁ := .of_writes l.nodes (aliasFor_quiet hname).toWrites
    exact hinit.trans (putAlias_replaces l₁ name _)

theorem stripVar_replaces (root : Nat) (l : Lowering) (s : NodeId) :
    Replaces [s] l (stripVar root l s) := by
  unfold stripVar
  split
  · next hn =>
    extract_lets targets l₁ keywordEnd place instead isPattern last
    have hdeclared : Replaces [] l l₁ :=
      .of_writes l.nodes (addDeclared_quiet l root _).toWrites
    rw [← hdeclared.nodes] at hn
    split
    · exact hdeclared.trans ((replace_replaces hn rfl _ _).thenNothing (insertAfter_replaces _ _ _))
    · exact hdeclared.trans (replace_replaces hn rfl _ _)
  · exact (Replaces.refl l).mono (List.nil_sublist _)

/-! ## All bodies -/

/-- The sites of the body of a wrap, in the order in which they are adapted. -/
def adaptedSites (l : Lowering) (i : Nat) : List NodeId :=
  [SiteKind.jump, .returns, .this, .arguments, .var].flatMap (l.sitesOf i)

theorem adaptBody_replaces (h : adaptBody l i = .ok l') : Replaces (l.adaptedSites i) l l' := by
  cases hw : l.wraps[i]? with
  | none =>
    unfold adaptBody at h
    rw [hw] at h
    cases h
    exact (Replaces.refl l).mono (List.nil_sublist _)
  | some w =>
    obtain ⟨l₁, l₂, l₃, l₄, h₁, h₂, h₃, h₄, rfl⟩ := adaptBody_rounds hw h
    have hjumps := Replaces.foldlM (f := fun s => [s])
      (fun _ h => ⟨(adaptJump_adds h).toKeeps, adaptJump_replaces h⟩) h₁
    have hreturns := Replaces.foldlM (f := fun s => [s])
      (fun _ h => ⟨(adaptReturn_adds h).toKeeps, adaptReturn_replaces h⟩) h₂
    rw [List.flatMap_singleton'] at hjumps hreturns
    have hvars := Replaces.foldl (stripVar_replaces (l₄.outermost i)) l₄ (l.sitesOf i .var)
    have hall := hjumps.trans (hreturns.trans ((adaptAlias_replaces h₃).trans
      ((adaptAlias_replaces h₄).trans hvars)))
    simpa [adaptedSites] using hall

/-- What a lowering replaces begins where sites of its bodies begin. -/
theorem finish_replaces (hsize : l.exits.size = l.wraps.size) (h : l.finish = .ok l') :
    Replaces (l.inSourceOrder.flatMap l.adaptedSites) l l' := by
  obtain ⟨l₁, l₂, h₁, h₂, h₃, -, hw₂, -⟩ := finish_cases hsize h
  have hbodies : Replaces (l.inSourceOrder.flatMap l.adaptedSites) l l₁ := by
    refine .foldlM (fun {t t' i} hk hstep => ⟨(adaptBody_adds hstep).toKeeps, ?_⟩) h₁
    have hsites : t.adaptedSites i = l.adaptedSites i :=
      List.flatMap_congr fun kind _ => hk.sitesOf i kind
    exact hsites ▸ adaptBody_replaces hstep
  have hcalls : Writes (Edit.At l.nodes []) l₂ l' := foldlM_rel Writes.refl Writes.trans
    (fun _ _ _ _ _ hstep => (writeCall_spec hstep fun _ he => he.at).1.toWrites) h₃
  exact (hbodies.thenNothing (.of_writes l.nodes (hw₂.mono fun _ => False.elim))).thenNothing
    (.of_writes _ hcalls)

/-! ## Applying the edits -/

namespace Account

variable {source : List Char} {options : Options}

/-- Different sites begin at different places. -/
theorem nodup_starts (ha : l.Account source options) {order : List Nat} (horder : order.Nodup) :
    ((order.flatMap l.adaptedSites).map l.nodes.start).Nodup := by
  have hmem {i : Nat} {s : NodeId} (hs : s ∈ l.adaptedSites i) : ∃ kind, s ∈ l.sitesOf i kind := by
    obtain ⟨kind, -, hs⟩ := List.mem_flatMap.1 hs
    exact ⟨kind, hs⟩
  refine List.Nodup.map_on (fun s hs s' hs' heq => ?_) (List.nodup_flatMap.2 ⟨fun i _ =>
    List.nodup_flatMap.2 ⟨fun kind _ => nodup_sitesOf ha.nested.nodes i kind, ?_⟩, ?_⟩)
  · by_contra hne
    obtain ⟨i, -, hs⟩ := List.mem_flatMap.1 hs
    obtain ⟨i', -, hs'⟩ := List.mem_flatMap.1 hs'
    obtain ⟨n, hn⟩ := ha.isMark_of_site (hmem hs).choose_spec
    obtain ⟨n', hn'⟩ := ha.isMark_of_site (hmem hs').choose_spec
    refine hn.start_ne ha.nested.nodes hn' hne ?_
    simpa [Nodes.start, hn.get, hn'.get] using heq
  · have hkinds : [SiteKind.jump, .returns, .this, .arguments, .var].Nodup := by decide
    refine hkinds.imp fun hne s hs hs' => ?_
    exact hne (ha.nested.sitesOf_unique hs hs').2
  · refine horder.imp fun hne s hs hs' => ?_
    exact hne (ha.nested.sitesOf_unique (hmem hs).choose_spec (hmem hs').choose_spec).1

end Account

/-- The edits of a lowering can be applied to its source. -/
structure Applies (source : List Char) (l : Lowering) : Prop where
  applicable : Edits.Applicable source l.draft.edits.active
  between : ∀ e ∈ l.draft.edits.active,
    isBoundary source e.start = true ∧ isBoundary source e.stop = true
  apart : l.draft.edits.active.Pairwise fun a b => a.isReplacement = true → b.isReplacement = true →
    a.stop ≤ b.start ∨ b.stop ≤ a.start
  /-- What is replaced is a site, or the front of one. -/
  rewritten : ∀ e ∈ l.draft.edits.active, e.isReplacement = true →
    ∃ s i kind, s ∈ l.sitesOf i kind ∧ e.Cuts l.nodes s
  /-- No two wraps share a site. -/
  unique : ∀ {s : NodeId} {i j : Nat} {kind kind' : SiteKind}, s ∈ l.sitesOf i kind →
    s ∈ l.sitesOf j kind' → i = j ∧ kind = kind'
  succeeds : ∃ out, l.draft.apply = .ok out

/-- All edits of a lowering stay in effect. -/
theorem Outcome.active_eq (ho : l.Outcome) : l.draft.edits.active = l.made :=
  List.filter_eq_self.2 fun e he => (ho.edits e he).active

end Lowering

/-! ## Characters -/

namespace Edit

variable {ns : Nodes} {s : NodeId} {e : Edit} {source : List Char}

theorem Cuts.start_lt (h : e.Cuts ns s) : e.start < e.stop := by
  obtain ⟨n, hcut, hstart⟩ := h.cut
  exact hstart ▸ hcut.start_lt

variable (hedged : ∀ {id : NodeId} {n : Node}, ns.get? id = some n →
  n.form.EdgedAt source n.start n.stop)

include hedged

theorem Cuts.between (h : e.Cuts ns s) :
    isBoundary source e.start = true ∧ isBoundary source e.stop = true := by
  obtain ⟨n, hcut, hstart⟩ := h.cut
  exact ⟨hstart ▸ (hedged hcut.get).front, h.edge.isBoundary hedged⟩

theorem Joins.between (h : e.Joins ns) :
    isBoundary source e.start = true ∧ isBoundary source e.stop = true := by
  have hseam := h.seam.edge.isBoundary hedged
  exact ⟨hseam, h.point ▸ hseam⟩

end Edit

/-! ## The lowering of a source -/

section Source

variable {file : String} {source : List Char} {options : Options} {l : Lowering}
  (h : lowerSource file source options = .ok l)

include h

/-- A lowering edits its source, and nothing else. -/
theorem source_of_lowerSource : l.draft.edits.source = source := by
  obtain ⟨t, b, -, hbind, hl⟩ := lowerSource_eq_ok.1 h
  obtain ⟨⟨b', wraps⟩, hwraps, hfinish⟩ := bind_eq_ok.1 hl
  obtain ⟨l₁, l₂, -, -, -, hw₁, hw₂, hw₃⟩ := Lowering.finish_cases Array.size_replicate hfinish
  have hunit : b'.unit = b.unit := (Bound.wrapAll_extends (bind_wellScoped hbind).1 hwraps).2.unit
  rw [hw₃.source, hw₂.source, hw₁.source]
  exact congrArg CompilationUnit.source (hunit.trans (bind_unit hbind))

theorem edgedAt_of_lowerSource {id : NodeId} {n : Node} (hn : l.nodes.get? id = some n) :
    n.form.EdgedAt source n.start n.stop := by
  obtain ⟨-, t, hparse, hnodes⟩ := outcome_of_lowerSource h
  rw [hnodes] at hn
  exact edged_ofTree (Grammar.parse_edged hparse) hn

/-- No two replacements begin at one place. -/
theorem nodup_replacedAt : l.replacedAt.Nodup := by
  have ha := account_of_lowerSource h
  obtain ⟨t, b, -, -, hl⟩ := lowerSource_eq_ok.1 h
  obtain ⟨⟨b', wraps⟩, -, hfinish⟩ := bind_eq_ok.1 hl
  have hk := Lowering.finish_keeps Array.size_replicate hfinish
  obtain ⟨starts, heq, hsub⟩ := (Lowering.finish_replaces Array.size_replicate hfinish).starts
  have hsites : (Lowering.ofWraps b' wraps).adaptedSites = l.adaptedSites :=
    funext fun i => List.flatMap_congr fun kind _ => (hk.sitesOf i kind).symm
  have horder : (Lowering.ofWraps b' wraps).inSourceOrder.Nodup :=
    (sortBy_perm _ _).nodup_iff.2 List.nodup_range
  rw [hsites, ← hk.nodes] at hsub
  rw [heq]
  exact hsub.nodup (ha.nodup_starts horder)

theorem cuts_or_joins_of_active {e : Edit} (he : e ∈ l.draft.edits.active) :
    e.Joins l.nodes ∨ ∃ s i kind, s ∈ l.sitesOf i kind ∧ e.Cuts l.nodes s := by
  have ha := account_of_lowerSource h
  rw [ha.active_eq] at he
  obtain ⟨p, ps, hins⟩ := (ha.inserts e).1 he
  refine (ha.cuts_or_joins hins).imp_right ?_
  rintro ⟨hcuts, i, kind, hs⟩
  exact ⟨p, i, kind, hs, hcuts⟩

theorem joins_of_active {e : Edit} (he : e ∈ l.draft.edits.active)
    (hr : e.isReplacement = false) : e.Joins l.nodes := by
  refine (cuts_or_joins_of_active h he).resolve_right ?_
  rintro ⟨s, i, kind, -, hcuts⟩
  exact Bool.false_ne_true (hr.symm.trans hcuts.replaces)

theorem cuts_of_active {e : Edit} (he : e ∈ l.draft.edits.active) (hr : e.isReplacement = true) :
    ∃ s i kind, s ∈ l.sitesOf i kind ∧ e.Cuts l.nodes s :=
  (cuts_or_joins_of_active h he).resolve_left fun hjoins =>
    Bool.false_ne_true (hjoins.inserts.symm.trans hr)

theorem between_of_active {e : Edit} (he : e ∈ l.draft.edits.active) :
    isBoundary source e.start = true ∧ isBoundary source e.stop = true := by
  rcases cuts_or_joins_of_active h he with hjoins | ⟨s, i, kind, -, hcuts⟩
  · exact hjoins.between (edgedAt_of_lowerSource h)
  · exact hcuts.between (edgedAt_of_lowerSource h)

theorem pairwise_apart : l.draft.edits.active.Pairwise fun a b => a.isReplacement = true →
    b.isReplacement = true → a.stop ≤ b.start ∨ b.stop ≤ a.start := by
  have ha := account_of_lowerSource h
  have hdistinct : l.draft.edits.active.Pairwise fun a b => a.isReplacement = true →
      b.isReplacement = true → a.start ≠ b.start := by
    rw [ha.active_eq]
    exact List.pairwise_filter.1 (List.pairwise_map.1 (nodup_replacedAt h))
  refine hdistinct.imp_of_mem fun {a b} hmem hmem' hne har hbr => ?_
  obtain ⟨s, -, -, -, -, ⟨n, hcut, hstart⟩, -⟩ := cuts_of_active h hmem har
  obtain ⟨s', -, -, -, -, ⟨n', hcut', hstart'⟩, -⟩ := cuts_of_active h hmem' hbr
  rw [hstart, hstart']
  refine hcut.apart ha.nested.nodes hcut' fun heq => hne har hbr ?_
  subst heq
  cases hcut.get.symm.trans hcut'.get
  rw [hstart, hstart']

/-- A keyword whose value is handed in is replaced by the alias that holds the value. -/
theorem aliased_of_handed {a : Alias} {p s : NodeId} {n : Node} (ho : l.Occurs s a)
    (hp : l.nodes.Provider p s) (hn : l.nodes.get? s = some n) (hh : l.Handed p s) :
    ∃ name, l.draft.names.permanent? a.key = some name ∧
      (⟨.replace, n.start, n.stop, name, true⟩ : Edit) ∈ l.draft.edits.active := by
  have ha := account_of_lowerSource h
  obtain ⟨i, hs⟩ := (ha.nested.handed_iff ha.program ho hp).1 hh
  obtain ⟨w, hw, -⟩ := Lowering.mem_sitesOf hs
  obtain ⟨-, name, -, hname⟩ := ha.named hw a (List.ne_nil_of_mem hs)
  refine ⟨name, hname, ?_⟩
  rw [ha.active_eq]
  exact (ha.inserts _).2 ⟨s, _, .body (.keyword a hs (.mk hn hname))⟩

/-- A keyword that keeps its meaning, or lies in a member of a class, is left as it is. -/
theorem untouched_of_not_handed {a : Alias} {p s : NodeId} {n : Node} (ho : l.Occurs s a)
    (hp : l.nodes.Provider p s) (hn : l.nodes.get? s = some n) (hh : ¬l.Handed p s) :
    ∀ e ∈ l.draft.edits.active, e.stop ≤ n.start ∨ n.stop ≤ e.start := by
  intro e he
  have ha := account_of_lowerSource h
  have hns := ha.nested.nodes
  obtain ⟨n', huse⟩ := ha.isUse ho
  cases hn.symm.trans huse.get
  have hcut := ha.isCut_of_isUse huse
  rcases cuts_or_joins_of_active h he with hjoins | ⟨s', i, kind, hs', -, ⟨n', hcut', hstart⟩, -⟩
  · rw [hjoins.point]
    exact hcut.seam hns hjoins.seam
  · rw [hstart]
    refine (hcut.apart hns hcut' fun heq => hh ?_).symm
    -- A site of another kind is no keyword.
    subst heq
    obtain ⟨w, hw, hmem⟩ := Lowering.mem_sitesOf hs'
    obtain ⟨-, -, -, inArrow, form, hf, hkind, -⟩ := Bound.mem_sitesWithin hns hmem
    obtain rfl : kind = a.siteKind :=
      Option.some.inj (hkind.symm.trans ((Lowering.siteKind?_eq_iff hf).2 ho))
    exact (ha.nested.handed_iff ha.program ho hp).2 ⟨i, hs'⟩

theorem placed_of_lowerSource : Edits.Placed source l.draft.edits.active where
  inside e he := by
    refine ⟨?_, isBoundary_le (between_of_active h he).2⟩
    rcases cuts_or_joins_of_active h he with hjoins | ⟨s, i, kind, -, hcuts⟩
    · exact Nat.le_of_eq hjoins.point.symm
    · exact Nat.le_of_lt hcuts.start_lt
  insertions e he hins r hr hrep := by
    obtain ⟨s, -, -, -, -, ⟨n, hcut, hstart⟩, -⟩ := cuts_of_active h hr hrep
    have hns := (account_of_lowerSource h).nested.nodes
    have := hcut.seam hns (joins_of_active h he hins).seam
    omega
  replacements := by
    refine (pairwise_apart h).imp_of_mem fun {a b} ha hb hapart har hbr => ?_
    obtain ⟨s, -, -, -, hcuts⟩ := cuts_of_active h ha har
    obtain ⟨s', -, -, -, hcuts'⟩ := cuts_of_active h hb hbr
    have := hcuts.start_lt
    have := hcuts'.start_lt
    have := hapart har hbr
    split <;> omega

/-- What a lowering writes are the segments of its edits. -/
theorem segments_of_lowerSource {code : List Char} (hcode : l.draft.apply = .ok code) :
    code = l.draft.edits.segments.flatMap (Segment.text source) := by
  have happly : l.draft.edits.apply = .ok code := by
    unfold Draft.apply at hcode
    cases hedits : l.draft.edits.apply with
    | error e =>
      rw [hedits] at hcode
      cases hcode
    | ok out =>
      rw [hedits] at hcode
      cases hcode
      rfl
  rw [← source_of_lowerSource h]
  exact Edits.apply_segments (fun e he hr => (joins_of_active h he hr).point) happly

end Source

/-- The edits of a lowering do not get in each other's way, whatever the source, so that the lowering
can be written out. -/
theorem applies_of_lowerSource {file : String} {source : List Char} {options : Options}
    {l : Lowering} (h : lowerSource file source options = .ok l) : l.Applies source := by
  have happlicable : Edits.Applicable source l.draft.edits.active :=
    ⟨placed_of_lowerSource h, fun e he _ => (between_of_active h he).1,
      fun e he _ _ => (between_of_active h he).2⟩
  refine ⟨happlicable, fun e he => between_of_active h he, pairwise_apart h,
    fun e he hr => cuts_of_active h he hr,
    (account_of_lowerSource h).nested.sitesOf_unique, ?_⟩
  rw [← source_of_lowerSource h] at happlicable
  obtain ⟨out, hout, -⟩ := happlicable.exists_apply fun e he hins =>
    (joins_of_active h he hins).point
  exact ⟨out, by rw [Draft.apply, hout]; rfl⟩

/-- Loops, two of them nested, with a site of each kind. -/
def loopInLoop : List Char :=
  ("for (const x of xs) { var v = arguments; g(() => x + this); if (v) break; } " ++
    "function f() { for (const x of xs) for (const y of ys) { g(() => x + y); return x; } }").toList

theorem applies_loopInLoop : ∃ l, lowerSource "" loopInLoop {} = .ok l ∧ l.wraps.size = 3 ∧
    (∀ kind ∈ [SiteKind.jump, .returns, .this, .arguments, .var],
      ∃ i < l.wraps.size, l.sitesOf i kind ≠ []) ∧ l.Applies loopInLoop := by
  have hrun : okAnd (lowerSource "" loopInLoop {}) (fun l => decide (l.wraps.size = 3 ∧
      ∀ kind ∈ [SiteKind.jump, .returns, .this, .arguments, .var],
        ∃ i < l.wraps.size, l.sitesOf i kind ≠ [])) = true := by
    decide +kernel
  obtain ⟨l, hl, hcheck⟩ := okAnd_iff.1 hrun
  obtain ⟨hsize, hsites⟩ := of_decide_eq_true hcheck
  exact ⟨l, hl, hsize, hsites, applies_of_lowerSource hl⟩

end LoopClosure
