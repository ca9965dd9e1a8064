import LoopClosure.Proofs.Lowering.Account
import LoopClosure.Proofs.Lowering.Crossing
import LoopClosure.Proofs.Lowering.Jumps
import Mathlib.Data.Finset.Card

/-!
# Hygiene

The names that a lowering generates are new to its source, those of different purposes differ, and
where one is used a declaration of it is visible, as long as the same holds of the variables for
`this` and `arguments` (`hygienic_iff`). These are declared at the start of the function that
provides them, so they are not visible to its parameters.
-/

namespace LoopClosure

open Syntax Syntax.Nodes Piece Atom

/-- What a name is generated for. -/
inductive Purpose where
  | flag (r : Relay)
  /-- The result of a call. -/
  | result
  | caught
  | keyword (a : Alias)
deriving DecidableEq, Repr

namespace Purpose

def key : Purpose → String
  | flag r => r.flagKey
  | result => "value"
  | caught => "rp"
  | keyword a => a.key

/-- Labels are not empty. -/
def Named : Purpose → Prop
  | flag r => r.Named
  | _ => True

end Purpose

theorem Relay.flagKey_notMem (r : Relay) : r.flagKey ∉ ["value", "rp", "that", "args"] := by
  intro h
  have hl := List.mem_map_of_mem (f := fun s : String => s.toList.head?) h
  cases r with
  | break_ label => cases label <;> simp [flagKey] at hl
  | continue_ label => simp [flagKey] at hl
  | returnVoid | returnPrimitive | returnValue => simp [flagKey] at h

namespace Purpose

theorem key_mem {p : Purpose} (h : ∀ r, p ≠ flag r) : p.key ∈ ["value", "rp", "that", "args"] := by
  cases p with
  | flag r => exact absurd rfl (h r)
  | result | caught => decide
  | keyword a => cases a <;> decide

theorem key_ne_flagKey {p : Purpose} (h : ∀ r, p ≠ flag r) (r : Relay) : p.key ≠ r.flagKey :=
  fun heq => r.flagKey_notMem (heq ▸ key_mem h)

theorem key_injective {p q : Purpose} (hp : p.Named) (hq : q.Named) (h : p.key = q.key) :
    p = q := by
  by_cases hpf : ∃ r, p = flag r <;> by_cases hqf : ∃ r, q = flag r
  · obtain ⟨r, rfl⟩ := hpf
    obtain ⟨r', rfl⟩ := hqf
    exact congrArg flag (Relay.flagKey_injective hp hq h)
  · obtain ⟨r, rfl⟩ := hpf
    exact absurd h.symm (key_ne_flagKey (not_exists.1 hqf) r)
  · obtain ⟨r, rfl⟩ := hqf
    exact absurd h (key_ne_flagKey (not_exists.1 hpf) r)
  · cases p with
    | flag r => exact absurd ⟨r, rfl⟩ hpf
    | result | caught =>
      cases q with
      | flag r => exact absurd ⟨r, rfl⟩ hqf
      | result | caught => first | rfl | exact absurd h (by decide)
      | keyword a => cases a <;> exact absurd h (by decide)
    | keyword a =>
      cases q with
      | flag r => exact absurd ⟨r, rfl⟩ hqf
      | result | caught => cases a <;> exact absurd h (by decide)
      | keyword a' => cases a <;> cases a' <;> first | rfl | exact absurd h (by decide)

end Purpose

namespace Lowering

variable {l : Lowering} {i j k : Nat} {w : Wrap} {r : Relay} {p s : NodeId} {v : String}

/-! ## Scopes of declarations -/

/-- The body of a function of the source, or one that the lowering makes a function of. -/
def IsFunctionBody (l : Lowering) (body : NodeId) : Prop :=
  (∃ f place name params traits,
    l.nodes.form? f = some (.function place name params body traits)) ∨
    ∃ w ∈ l.wraps, w.body = body

/-- A `var` at one node is visible at another: the functions around the first are around the
second, too. -/
def Visible (l : Lowering) (decl use : NodeId) : Prop :=
  ∀ body, l.IsFunctionBody body → l.nodes.Inside body decl → l.nodes.Inside body use

/-- A declaration of the name that the lowering inserts is visible at the node. -/
def DeclaresFor (l : Lowering) (use : NodeId) (name : String) : Prop :=
  ∃ e decl ps, l.Inserts e decl ps ∧ var name ∈ ps ∧ l.Visible decl use

/-- The names that a lowering generates are new and differ by purpose, and each is used only where
a declaration of it is visible. -/
structure Hygienic (source : List Char) (options : Options) (l : Lowering) : Prop where
  new : ∀ key name, l.draft.names.permanent? key = some name → ¬l.Knows source options name
  distinct : ∀ (p q : Purpose) name, p.Named → q.Named →
    l.draft.names.permanent? p.key = some name → l.draft.names.permanent? q.key = some name → p = q
  visible : ∀ e use ps, l.Inserts e use ps →
    ∀ q ∈ ps, q.Proper (l.Knows source options) (l.DeclaresFor use)

/-- Each `this` or `arguments` in a wrapped body lies in a function body, or the program, in which
the variable for it is declared. -/
def AliasesVisible (l : Lowering) : Prop :=
  ∀ i a site, site ∈ l.sitesOf i (Alias.siteKind a) → ∃ j w target, l.wraps[j]? = some w ∧
    l.sitesOf j a.siteKind ≠ [] ∧ aliasScope? l.bound w.scope = some target ∧
      l.nodes.Inside (l.bound.startNode target) site

theorem Visible.of_inside (h : l.nodes.Inside p s) : l.Visible p s :=
  fun _ _ hb => hb.trans h

/-- What stands at the start of a scope is visible in the body only. -/
theorem visible_startNode_iff {target : ScopeId} (hroot : l.nodes.Inside Nodes.root s) :
    l.Visible (l.bound.startNode target) s ↔ l.nodes.Inside (l.bound.startNode target) s := by
  refine ⟨fun h => ?_, .of_inside⟩
  unfold Bound.startNode at h ⊢
  split at h
  · next place name params body traits hf =>
    obtain ⟨f, -, hform⟩ := Option.bind_eq_some_iff.1 hf
    exact h body (.inl ⟨f, place, name, params, traits, hform⟩) .refl
  · exact hroot

/-! ## Wraps around -/

theorem Nested.loop_of_parent (hn : l.Nested) (hw : l.wraps[i]? = some w)
    (hp : l.parent? i = some k) :
    ∃ o, l.wraps[k]? = some o ∧ l.nodes.Inside o.loop w.loop ∧ o.loop < w.loop := by
  obtain ⟨-, o, ho, hin, -⟩ := hn.parent hw hp
  have hbody := hn.wraps.parent?_body hn.nodes ho
  exact ⟨o, ho, (Inside.of_parent hbody).trans hin,
    Nat.lt_of_lt_of_le (hn.wraps.loop_lt_body hn.nodes ho) (hin.le hn.nodes)⟩

/-- The number of wraps whose loops have smaller numbers. -/
def rank (l : Lowering) (i : Nat) : Nat :=
  let loop (j : Nat) : NodeId := ((l.wraps[j]?).map (·.loop)).getD Nodes.root
  ((Finset.range l.wraps.size).filter fun j => loop j < loop i).card

theorem Nested.rank_lt (hn : l.Nested) (hw : l.wraps[i]? = some w) (hp : l.parent? i = some k) :
    l.rank k < l.rank i := by
  obtain ⟨o, ho, -, hlt⟩ := hn.loop_of_parent hw hp
  refine Finset.card_lt_card (Finset.ssubset_iff_of_subset (fun j hj => ?_) |>.2 ⟨k, ?_, ?_⟩)
  · simp only [Finset.mem_filter, hw, ho, Option.map_some, Option.getD_some] at hj ⊢
    exact ⟨hj.1, Nat.lt_trans hj.2 hlt⟩
  · simpa [hw, ho] using ⟨(Array.getElem?_eq_some_iff.1 ho).1, hlt⟩
  · simp

/-- The outermost wrap has no parent, and its loop lies around. -/
theorem Nested.outermost_spec (hn : l.Nested) (hw : l.wraps[i]? = some w) :
    ∃ o, l.wraps[l.outermost i]? = some o ∧ l.parent? (l.outermost i) = none ∧
      l.nodes.Inside o.loop w.loop := by
  have hclimb (n : Nat) (i : Nat) (w : Wrap) (hw : l.wraps[i]? = some w) (hr : l.rank i ≤ n) :
      ∃ o, l.wraps[l.outermostWithin n i]? = some o ∧ l.parent? (l.outermostWithin n i) = none ∧
        l.nodes.Inside o.loop w.loop := by
    induction n generalizing i w with
    | zero =>
      refine ⟨w, hw, Option.eq_none_iff_forall_ne_some.2 fun k hp => ?_, .refl⟩
      exact absurd (Nat.lt_of_lt_of_le (hn.rank_lt hw hp) hr) (Nat.not_lt_zero _)
    | succ n ih =>
      unfold outermostWithin
      split
      · next k hp =>
        obtain ⟨o, ho, hin, -⟩ := hn.loop_of_parent hw hp
        have hlt := hn.rank_lt hw hp
        obtain ⟨o', ho', hnone, hin'⟩ := ih k o ho (by omega)
        exact ⟨o', ho', hnone, hin'.trans hin⟩
      · next hp => exact ⟨w, hw, hp, .refl⟩
  refine hclimb _ i w hw (Nat.le_trans (Finset.card_filter_le _ _) ?_)
  rw [Finset.card_range]

/-- Each relay goes up to a wrap around that hands it on to no other. -/
theorem Nested.settles (hn : l.Nested) (hw : l.wraps[i]? = some w) (hc : l.Carried i r) :
    ∃ k v, l.wraps[k]? = some v ∧ l.Carried k r ∧ l.forwardTo? k r = none ∧
      l.nodes.Inside v.loop w.loop := by
  induction hloop : w.loop using Nat.strong_induction_on generalizing i w with
  | _ m ih =>
    subst hloop
    cases hf : l.forwardTo? i r with
    | none => exact ⟨i, w, hw, hc, hf, .refl⟩
    | some k =>
      obtain ⟨w', o', hw', hp, -⟩ := forwardTo?_eq_some hf
      obtain ⟨o, ho, hin, hlt⟩ := hn.loop_of_parent hw hp
      obtain ⟨k', v, hv, hc', hf', hin'⟩ := ih o.loop hlt ho (.handedOn hc hf) rfl
      exact ⟨k', v, hv, hc', hf', hin'.trans hin⟩

/-- A relay of a value goes up to the outermost wrap. -/
theorem Nested.parent?_of_valued (hn : l.Nested) (hw : l.wraps[k]? = some w)
    (hv : r.isValued = true) (hf : l.forwardTo? k r = none) : l.parent? k = none := by
  refine Option.eq_none_iff_forall_ne_some.2 fun p hp => ?_
  obtain ⟨o, ho, -⟩ := hn.loop_of_parent hw hp
  have hcross : crosses l.nodes w.loop o.body r = true := by
    cases r <;> first | rfl | cases hv
  simp [forwardTo?, hw, hp, ho, hcross] at hf

/-! ## What is declared -/

theorem declaredNames_of_parent? (h : l.parent? k = none) :
    l.declaredNames k = (l.exit k).declared ++ (l.resultName k).toList := by
  rw [declaredNames, h]
  rfl

namespace Account

variable {source : List Char} {options : Options}

/-- What is declared in front of the call of a wrap is visible in its loop. -/
theorem declaresFor (ha : l.Account source options) (hw : l.wraps[k]? = some w)
    (hv : v ∈ l.declaredNames k) (hin : l.nodes.Inside w.loop p) : l.DeclaresFor p v := by
  obtain ⟨form, hf, hbody⟩ := ha.nested.wraps.loop hw
  obtain ⟨body, hb⟩ := exists_get?_of_parent?_eq_some
    (parent?_of_form? ha.nested.nodes hf (Form.mem_children_of_loopBody? hbody))
  exact ⟨_, _, _, .callStart hw hb, Wrap.var_mem_startPieces.2 hv, .of_inside hin⟩

theorem flag_declared (ha : l.Account source options) (hw : l.wraps[i]? = some w)
    (hc : l.Carried i r) (hname : l.draft.names.permanent? r.flagKey = some v)
    (hin : l.nodes.Inside w.loop p) : l.DeclaresFor p v := by
  obtain ⟨k, u, hu, hc', hf, huw⟩ := ha.nested.settles hw hc
  obtain ⟨o, ho, hnone, hou⟩ := ha.nested.outermost_spec hu
  refine ha.declaresFor ho ?_ ((hou.trans huw).trans hin)
  rw [declaredNames_of_parent? hnone]
  exact List.mem_append_left _ ((ha.declared _ _).2 ⟨(Array.getElem?_eq_some_iff.1 ho).1,
    .inr ⟨k, (Array.getElem?_eq_some_iff.1 hu).1, r, hc', hf, rfl, hname⟩⟩)

theorem result_declared (ha : l.Account source options) (hw : l.wraps[i]? = some w)
    (hc : l.Carried i r) (hv : r.isValued = true)
    (hname : l.draft.names.permanent? "value" = some v) (hin : l.nodes.Inside w.loop p) :
    l.DeclaresFor p v := by
  obtain ⟨k, u, hu, hc', hf, huw⟩ := ha.nested.settles hw hc
  refine ha.declaresFor hu ?_ (huw.trans hin)
  have hmem := (ha.relays k (Array.getElem?_eq_some_iff.1 hu).1 r).2 hc'
  have hresult : l.resultName k = some v := by
    rw [resultName, (ha.valued k).2 ⟨r, hmem, hv⟩, if_pos rfl, hname]
  rw [declaredNames_of_parent? (ha.nested.parent?_of_valued hu hv hf), hresult]
  exact List.mem_append_right _ List.mem_cons_self

/-- A relay that carries a value has a name for it. -/
theorem exists_result (ha : l.Account source options) (hw : l.wraps[i]? = some w)
    (hc : l.Carried i r) (hv : r.isValued = true) :
    ∃ name, l.draft.names.permanent? "value" = some name := by
  have hi := (Array.getElem?_eq_some_iff.1 hw).1
  obtain ⟨c, -, hcheck⟩ := exists_of_forall₂ (ha.checked i hi) ((ha.relays i hi r).2 hc)
  exact Relay.exists_value_of_check? hcheck hv

end Account

/-! ## What is used -/

theorem Nested.inside_of_mem_sitesOf (hn : l.Nested) {kind : SiteKind} (hs : s ∈ l.sitesOf i kind) :
    ∃ w form, l.wraps[i]? = some w ∧ l.nodes.Inside w.loop s ∧ l.nodes.form? s = some form := by
  obtain ⟨w, hw, hmem⟩ := mem_sitesOf hs
  obtain ⟨hin, -, -, -, form, hf, -⟩ := Bound.mem_sitesWithin hn.nodes hmem
  exact ⟨w, form, hw, (Inside.of_parent (hn.wraps.parent?_body hn.nodes hw)).trans hin, hf⟩

namespace Account

variable {source : List Char} {options : Options}

theorem label_known (hc : l.Carried i r) {label : String} (hl : r.label? = some label) :
    l.Knows source options label := by
  obtain ⟨s, hs⟩ := carried_iff_cameFrom.1 hc
  exact .inl (exists_label_of_cameFrom hs hl)

theorem body_proper (ha : l.Account source options) (hal : l.AliasesVisible) {e : Edit}
    {ps : List Piece} (h : l.BodyEdit l.draft.names i e p ps) :
    ∀ q ∈ ps, q.Proper (l.Knows source options) (l.DeclaresFor p) := by
  cases h with
  | jump hs h =>
    obtain ⟨w, -, hw, hin, -⟩ := ha.nested.inside_of_mem_sitesOf hs
    cases h with
    | leaves => simp
    | @raises _ _ _ _ _ r _ hg hr hflag =>
      have hc : l.Carried i r :=
        carried_iff_cameFrom.2 ⟨p, .jump hs (by simp [jumpRelay?, form?, hg, hr])⟩
      exact raisePieces_proper (ha.flag_declared hw hc hflag hin)
  | returns hs h =>
    obtain ⟨w, -, hw, hin, -⟩ := ha.nested.inside_of_mem_sitesOf hs
    cases h with
    | raises hg harg hflag =>
      have hc : l.Carried i .returnVoid :=
        carried_iff_cameFrom.2 ⟨p, .returns hs (by simp [returnRelay?, form?, hg, harg])⟩
      exact raisePieces_proper (ha.flag_declared hw hc hflag hin)
    | @front _ _ _ _ a _ hg harg hflag =>
      have hc : l.Carried i (.ofArgument a.form) :=
        carried_iff_cameFrom.2 ⟨p, .returns hs (by simp [returnRelay?, form?, hg, harg])⟩
      simp [ha.flag_declared hw hc hflag hin]
    | back => simp
  | keyword a hs h =>
    cases h with
    | @mk _ name hg hname =>
      obtain ⟨j, w, target, hw, hsites, htarget, hin⟩ := hal i a p hs
      have hdeclared : l.DeclaresFor p name :=
        ⟨_, _, _, .body (.init a hw hsites htarget hname), by simp, .of_inside hin⟩
      simp [hdeclared]
  | init a => cases a <;> simp [Alias.keyword]

theorem checks_proper (ha : l.Account source options) (hw : l.wraps[i]? = some w) :
    ∀ q ∈ l.checkPieces i, q.Proper (l.Knows source options) (l.DeclaresFor w.loop) := by
  intro q hq
  obtain ⟨r, hr, hq⟩ := List.mem_flatMap.1 hq
  have hi := (Array.getElem?_eq_some_iff.1 hw).1
  have hc := (ha.relays i hi r).1 hr
  obtain ⟨flag, hflag⟩ := ha.exists_flag hi hr
  refine Relay.pieces_proper ?_ (fun hv => ?_) (fun label => label_known hc) _ q hq
  · rw [Names.get_eq hflag]
    exact ha.flag_declared hw hc hflag .refl
  · obtain ⟨value, hvalue⟩ := ha.exists_result hw hc hv
    rw [Names.get_eq hvalue]
    exact ha.result_declared hw hc hv hvalue .refl

/-- The result of a call is used where it is declared. -/
theorem resultName_declared (ha : l.Account source options) (hw : l.wraps[i]? = some w)
    (hv : l.resultName i = some v) : l.DeclaresFor w.loop v := by
  unfold resultName at hv
  split at hv
  · next hvalued =>
    obtain ⟨r, hr, hrv⟩ := (ha.valued i).1 hvalued
    have hc := (ha.relays i (Array.getElem?_eq_some_iff.1 hw).1 r).1 hr
    exact ha.result_declared hw hc hrv hv .refl
  · cases hv

theorem inserts_proper (ha : l.Account source options) (hal : l.AliasesVisible) {e : Edit}
    {ps : List Piece} (h : l.Inserts e p ps) :
    ∀ q ∈ ps, q.Proper (l.Knows source options) (l.DeclaresFor p) := by
  cases h with
  | body h => exact ha.body_proper hal h
  | strip _ _ h =>
    have ht := h.text_mem
    simp only [List.mem_cons, List.not_mem_nil, or_false] at ht
    rcases ht with ht | ht | ht | ht | ht <;> simp [ht]
  | callStart hw =>
    exact Wrap.startPieces_proper (fun v hv => .inl (ha.params hw v hv)) _
      fun v hv => ha.resultName_declared hw hv
  | callEnd hw =>
    exact Wrap.endPieces_proper (fun v hv => .inl (ha.params hw v hv)) (ha.checks_proper hw)

/-- What is declared in front of a call is no variable for a keyword. -/
theorem keyword_notMem_declaredNames (ha : l.Account source options) {a : Alias}
    (hname : l.draft.names.permanent? a.key = some v) : v ∉ l.declaredNames k := by
  intro hv
  unfold declaredNames at hv
  split at hv
  · rcases List.mem_append.1 hv with hv | hv
    · obtain ⟨-, ⟨-, -, -, site, -, hsite⟩ | ⟨-, -, r, -, -, -, hflag⟩⟩ := (ha.declared k v).1 hv
      · exact ha.new hname (.inl (exists_identifier?_of_mem_namesOf hsite))
      · exact Purpose.key_ne_flagKey (p := .keyword a) (by simp) r
          (ha.names.injective hname hflag)
    · have hresult := Option.mem_toList.1 hv
      unfold resultName at hresult
      split at hresult
      · have hkey := ha.names.injective hname hresult
        cases a <;> exact absurd hkey (by decide)
      · cases hresult
  · cases hv

/-- A variable for a keyword is declared at the start of a scope that provides the keyword. -/
theorem of_declaresFor (ha : l.Account source options) {a : Alias}
    (hname : l.draft.names.permanent? a.key = some v) (h : l.DeclaresFor s v) :
    ∃ j w target, l.wraps[j]? = some w ∧ l.sitesOf j a.siteKind ≠ [] ∧
      aliasScope? l.bound w.scope = some target ∧ l.Visible (l.bound.startNode target) s := by
  obtain ⟨e, decl, ps, hi, hmem, hvisible⟩ := h
  cases hi with
  | @body j _ _ _ h =>
    cases h with
    | jump _ h => cases h <;> simp [raisePieces] at hmem
    | returns _ h => cases h <;> simp [raisePieces] at hmem
    | keyword a' _ h =>
      cases h
      simp at hmem
    | @init w target name a' hw hs ht hname' =>
      obtain rfl : v = name := by simpa using hmem
      have hkey := ha.names.injective hname hname'
      obtain rfl : a = a' := by
        cases a <;> cases a' <;> first | rfl | exact absurd hkey (by decide)
      exact ⟨j, w, target, hw, hs, ht, hvisible⟩
  | strip => simp at hmem
  | callStart => exact absurd (Wrap.var_mem_startPieces.1 hmem) (ha.keyword_notMem_declaredNames hname)
  | callEnd =>
    refine absurd hmem (Wrap.var_notMem_endPieces fun hmem => ?_)
    obtain ⟨r, -, hmem⟩ := List.mem_flatMap.1 hmem
    exact Relay.var_notMem_pieces hmem

theorem hygienic_iff (ha : l.Account source options) :
    l.Hygienic source options ↔ l.AliasesVisible := by
  constructor
  · intro h i a site hs
    obtain ⟨w, form, hw, -, hf⟩ := ha.nested.inside_of_mem_sitesOf hs
    obtain ⟨n, hn, -⟩ := Option.map_eq_some_iff.1 hf
    obtain ⟨target, name, -, hname⟩ := ha.named hw a (List.ne_nil_of_mem hs)
    have hproper := h.visible _ _ _ (.body (.keyword a hs (.mk hn hname))) _ List.mem_cons_self
    obtain ⟨j, v, target, hv, hsites, ht, hvisible⟩ := ha.of_declaresFor hname hproper
    exact ⟨j, v, target, hv, hsites, ht, (visible_startNode_iff (ha.root hn)).1 hvisible⟩
  · intro hal
    refine ⟨fun key name hname => ha.new hname, fun p q name hp hq hpn hqn => ?_,
      fun e use ps h => ha.inserts_proper hal h⟩
    exact Purpose.key_injective hp hq (ha.names.injective hpn hqn)

end Account

end Lowering

/-- What a lowering inserts is hygienic exactly if the variables for `this` and `arguments` are
declared in bodies around their uses. -/
theorem hygienic_iff_aliasesVisible {file : String} {source : List Char} {options : Options}
    {out : Lowered} (h : compile file source options = .ok out) :
    ∃ l, Compiles file source options l out ∧
      (∀ e ∈ out.edits, ∃ p ps, l.Inserts e p ps ∧ e.text = render ps) ∧
        (l.Hygienic source options ↔ l.AliasesVisible) := by
  obtain ⟨l, hl, ho⟩ := compile_outcome h
  have ha := account_of_lowerSource hl.lowered
  refine ⟨l, hl, fun e he => ?_, ha.hygienic_iff⟩
  rw [hl.edits] at he
  obtain ⟨p, ps, hi⟩ := (ha.inserts e).1 (List.mem_filter.1 he).1
  exact ⟨p, ps, hi, ho.text_eq hi⟩

/-! ## A function around a loop -/

section Runs

namespace Lowering

variable {l : Lowering} {a : Alias} {site : NodeId} {test : NodeId → NodeId → Bool}

/-- The alias is declared in a body that passes a test for the site. -/
def declaresAlias (l : Lowering) (a : Alias) (test : NodeId → NodeId → Bool) (site : NodeId) : Bool :=
  (List.range l.wraps.size).any fun j =>
    !(l.sitesOf j a.siteKind).isEmpty &&
      (((l.wraps[j]?).bind fun w => aliasScope? l.bound w.scope).map fun target =>
        test (l.bound.startNode target) site).getD false

theorem declaresAlias_iff : l.declaresAlias a test site = true ↔ ∃ j w target,
    l.wraps[j]? = some w ∧ l.sitesOf j a.siteKind ≠ [] ∧
      aliasScope? l.bound w.scope = some target ∧ test (l.bound.startNode target) site = true := by
  rw [declaresAlias, List.any_eq_true]
  constructor
  · rintro ⟨j, -, h⟩
    rw [Bool.and_eq_true, Bool.not_eq_true', List.isEmpty_eq_false_iff] at h
    obtain ⟨hsites, h⟩ := h
    cases hw : l.wraps[j]? with
    | none => simp [hw] at h
    | some w =>
      cases ht : aliasScope? l.bound w.scope with
      | none => simp [hw, ht] at h
      | some target => exact ⟨j, w, target, hw, hsites, ht, by simpa [hw, ht] using h⟩
  · rintro ⟨j, w, target, hw, hsites, ht, htest⟩
    refine ⟨j, List.mem_range.2 (Array.getElem?_eq_some_iff.1 hw).1, ?_⟩
    rw [Bool.and_eq_true, Bool.not_eq_true', List.isEmpty_eq_false_iff]
    exact ⟨hsites, by simpa [hw, ht] using htest⟩

end Lowering

/-- A loop that uses the `this` of a function and returns from it. -/
def loopInFunction : List Char :=
  "function f() { for (const x of xs) { g(() => x + this); if (x) return x; } }".toList

theorem hygienic_loopInFunction : ∃ l out, compile "" loopInFunction {} = .ok out ∧
    Compiles "" loopInFunction {} l out ∧ l.AliasesVisible ∧ l.Hygienic loopInFunction {} := by
  have hrun : okAnd (lowerSource "" loopInFunction {}) (fun l =>
      okAnd l.draft.apply (fun _ => true) && (List.range l.wraps.size).all fun i =>
        [Alias.this, .arguments].all fun a => (l.sitesOf i a.siteKind).all fun site =>
          l.declaresAlias a (fun b s => (s :: l.nodes.ancestors s).elem b) site) = true := by
    decide +kernel
  obtain ⟨l', out, hout, hl', hcheck⟩ := exists_compile hrun
  obtain ⟨l, hl, -, hiff⟩ := hygienic_iff_aliasesVisible hout
  obtain rfl : l = l' := Except.ok.inj (hl.lowered.symm.trans hl')
  have hal : l.AliasesVisible := by
    intro i a site hs
    obtain ⟨w, hw, -⟩ := Lowering.mem_sitesOf hs
    have hi := List.all_eq_true.1 hcheck i
      (List.mem_range.2 (Array.getElem?_eq_some_iff.1 hw).1)
    have hdeclares := List.all_eq_true.1 (List.all_eq_true.1 hi a (by cases a <;> simp)) site hs
    obtain ⟨j, v, target, hv, hsites, ht, hin⟩ := Lowering.declaresAlias_iff.1 hdeclares
    exact ⟨j, v, target, hv, hsites, ht, .of_mem_ancestors (List.elem_iff.1 hin)⟩
  exact ⟨l, out, hout, hl, hal, hiff.2 hal⟩

/-- The loop lies in the parameters of the function. -/
def loopInParameters : List Char :=
  "function f(a = () => { for (const x of xs) { g(() => x + this); } }) { }".toList

theorem not_hygienic_loopInParameters : ∃ l out, compile "" loopInParameters {} = .ok out ∧
    Compiles "" loopInParameters {} l out ∧ ¬l.Hygienic loopInParameters {} := by
  have hrun : okAnd (lowerSource "" loopInParameters {}) (fun l =>
      okAnd l.draft.apply (fun _ => true) && (l.sitesOf 0 .this).any fun site =>
        !l.declaresAlias .this l.nodes.contains site) = true := by
    decide +kernel
  obtain ⟨l', out, hout, hl', hcheck⟩ := exists_compile hrun
  obtain ⟨l, hl, ho⟩ := compile_outcome hout
  obtain rfl : l = l' := Except.ok.inj (hl.lowered.symm.trans hl')
  obtain ⟨site, hs, hnot⟩ := List.any_eq_true.1 hcheck
  refine ⟨l, out, hout, hl, fun h => ?_⟩
  obtain ⟨j, w, target, hw, hsites, ht, hin⟩ :=
    (account_of_lowerSource hl.lowered).hygienic_iff.1 h 0 .this site hs
  rw [Bool.not_eq_true', ← Bool.not_eq_true] at hnot
  refine hnot (Lowering.declaresAlias_iff.2 ⟨j, w, target, hw, hsites, ht, ?_⟩)
  obtain ⟨-, form, -, -, hf⟩ := ho.nested.inside_of_mem_sitesOf hs
  obtain ⟨n, hn, -⟩ := Option.map_eq_some_iff.1 hf
  exact contains_of_inside ho.nested.nodes hin hn

end Runs

end LoopClosure
