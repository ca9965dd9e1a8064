import LoopClosure.Proofs.Grammar.Layout
import LoopClosure.Proofs.Lowering.Applied
import LoopClosure.Proofs.Lowering.Hosts

/-!
# What a lowering leaves alone

An edit of a lowering lies in the body of a wrapped loop, or it declares the variable for a keyword
behind the directives of the program or of a function around a wrapped loop
(`inBody_or_inPrologue`). The bodies and those directives are disjoint from every loop and function
that is neither in a wrapped loop nor around one, so that its text is copied (`copies_of_lowerSource`).
-/

namespace LoopClosure

open Syntax Syntax.Nodes Text

/-! ## Copied text -/

namespace Text

variable {source text : List Char} {p q i j : Nat}

/-- A slice within a slice. -/
theorem exists_slice? (h : slice? source i j = some text) (hp : isBoundary source p = true)
    (hq : isBoundary source q = true) (hip : i ≤ p) (hpq : p ≤ q) (hqj : q ≤ j) :
    ∃ before mid behind, slice? source p q = some mid ∧ text = before ++ mid ++ behind := by
  obtain ⟨as, bs, rfl, rfl, rfl⟩ := slice?_eq_some_iff.1 h
  obtain ⟨mid, hmid⟩ := Option.isSome_iff_exists.1 (slice?_isSome_iff.2 ⟨hpq, hp, hq⟩)
  obtain ⟨as', bs', hsource, rfl, rfl⟩ := slice?_eq_some_iff.1 hmid
  rw [List.append_assoc, List.append_assoc] at hsource
  obtain ⟨before, rfl, hrest⟩ := exists_middle hsource hip
  have hsize : size (before ++ mid) ≤ size text := by
    rw [size_append] at hqj ⊢
    omega
  rw [← List.append_assoc] at hrest
  obtain ⟨behind, rfl, -⟩ := exists_middle hrest.symm hsize
  exact ⟨before, mid, behind, hmid, rfl⟩

end Text

namespace Edits

variable {b : Edits} {es : List Edit} {source out : List Char} {p q c limit start stop : Nat}

/-- The source from `p` up to `q` is copied in one piece. -/
def Copies (b : Edits) (p q : Nat) : Prop :=
  ∃ start stop, .copied start stop ∈ b.segments ∧ start ≤ p ∧ q ≤ stop

theorem between_of_copied (hc : isBoundary source c = true)
    (hes : ∀ e ∈ es, isBoundary source e.start = true ∧ isBoundary source e.stop = true)
    (h : .copied start stop ∈ segmentsFrom (size source) c es) :
    isBoundary source start = true ∧ isBoundary source stop = true := by
  induction es generalizing c with
  | nil =>
    obtain ⟨rfl, rfl⟩ := Segment.copied.inj (List.mem_singleton.1 h)
    exact ⟨hc, isBoundary_size⟩
  | cons e es ih =>
    have hfirst := hes e List.mem_cons_self
    rcases List.mem_cons.1 h with h | h
    · obtain ⟨rfl, rfl⟩ := Segment.copied.inj h
      exact ⟨hc, hfirst.1⟩
    · rcases List.mem_cons.1 h with h | h
      · cases h
      · exact ih hfirst.2 (fun a ha => hes a (List.mem_cons_of_mem _ ha)) h

/-- What is copied in one piece stands in the edited text. -/
theorem Copies.exists_text (h : b.Copies p q)
    (hes : ∀ e ∈ b.active, isBoundary b.source e.start = true ∧ isBoundary b.source e.stop = true)
    (hp : isBoundary b.source p = true) (hq : isBoundary b.source q = true) (hpq : p ≤ q) :
    ∃ before text behind, slice? b.source p q = some text ∧
      b.segments.flatMap (Segment.text b.source) = before ++ text ++ behind := by
  obtain ⟨start, stop, hmem, hstart, hstop⟩ := h
  obtain ⟨hb, hb'⟩ := between_of_copied isBoundary_zero
    (fun e he => hes e (mem_ordered.1 he)) hmem
  obtain ⟨all, hall⟩ := Option.isSome_iff_exists.1
    (slice?_isSome_iff.2 ⟨by omega, hb, hb'⟩)
  obtain ⟨before, text, behind, htext, rfl⟩ := exists_slice? hall hp hq hstart hpq hstop
  obtain ⟨front, back, hsegments⟩ := List.append_of_mem hmem
  refine ⟨front.flatMap (Segment.text b.source) ++ before, text,
    behind ++ back.flatMap (Segment.text b.source), htext, ?_⟩
  rw [hsegments, List.flatMap_append, List.flatMap_cons, Segment.text, hall, Option.getD_some]
  simp only [List.append_assoc]

end Edits

/-! ## Where an edit lies -/

/-- The edit lies in the range of the node. -/
def Edit.Within (e : Edit) (n : Node) : Prop := n.start ≤ e.start ∧ e.stop ≤ n.stop

section Sites

variable {ns : Nodes} {names : Names} {site : NodeId} {e : Edit} {ps : List Piece} {a : Alias}

theorem JumpEdit.exists_within (h : JumpEdit ns names site e ps) :
    ∃ n, ns.get? site = some n ∧ e.Within n := by
  cases h with
  | leaves hn => exact ⟨_, hn, Nat.le_refl _, Nat.le_refl _⟩
  | raises hn => exact ⟨_, hn, Nat.le_refl _, Nat.le_refl _⟩

theorem ReturnEdit.exists_within (hns : ns.WellFormed) (h : ReturnEdit ns names site e ps) :
    ∃ n, ns.get? site = some n ∧ e.Within n := by
  cases h with
  | raises hn => exact ⟨_, hn, Nat.le_refl _, Nat.le_refl _⟩
  | back hn => exact ⟨_, hn, hns.start_le_stop hn, Nat.le_refl _⟩
  | @front start stop argument parent a flag hn ha =>
    obtain ⟨c, rfl, ha⟩ := Option.bind_eq_some_iff.1 ha
    have hp : ns.parent? c = some site :=
      parent?_of_form? hns (form?_of_get? hn) (by simp [Form.children])
    have hwithin := hns.within hp ha hn
    exact ⟨_, hn, Nat.le_refl _, Nat.le_of_lt (Nat.lt_of_lt_of_le hwithin.2.1 hwithin.2.2)⟩

theorem AliasEdit.exists_within (h : AliasEdit ns names a site e ps) :
    ∃ n, ns.get? site = some n ∧ e.Within n := by
  cases h with
  | mk hn => exact ⟨_, hn, Nat.le_refl _, Nat.le_refl _⟩

theorem StripEdit.exists_within (hns : ns.WellFormed) (h : StripEdit ns site e) :
    ∃ n, ns.get? site = some n ∧ e.Within n := by
  cases h with
  | keyword hn => exact ⟨_, hn, Nat.le_refl _, hns.room hn⟩
  | @bracket x m hx hm =>
    rcases hx with rfl | hx
    · exact ⟨m, hm, hns.start_le_stop hm, Nat.le_refl _⟩
    · have hp := hns.parent_iff.2 hx
      obtain ⟨n, hn⟩ := exists_get?_of_parent? hns hp
      obtain ⟨hstart, hlt, hstop⟩ := hns.within hp hm hn
      exact ⟨n, hn, Nat.le_trans hstart (Nat.le_of_lt hlt), hstop⟩

end Sites

namespace Lowering

variable {l : Lowering} {source : List Char} {options : Options} {e : Edit} {f s : NodeId} {n : Node}

/-- The edit lies in the body of a wrapped loop. -/
def InBody (l : Lowering) (e : Edit) : Prop :=
  ∃ (i : Nat) (w : Wrap) (body : Node), l.wraps[i]? = some w ∧ l.nodes.get? w.body = some body ∧
    e.Within body

/-- The edit declares the variable for a keyword behind the directives of the program or function
`f`, which lies around a wrapped loop. -/
structure InPrologue (l : Lowering) (f : NodeId) (e : Edit) : Prop where
  around : ∃ (i : Nat) (w : Wrap), l.wraps[i]? = some w ∧ l.nodes.Inside f w.loop
  prologue : l.nodes.EndsPrologue f e.start
  declares : ∃ (a : Alias) (name : String), e =
    ⟨.insertAfter, e.start, e.start, "var " ++ name ++ " = " ++ a.keyword ++ ";", true⟩

theorem Account.inBody_of_site (ha : l.Account source options) {i : Nat} {kind : SiteKind}
    (hs : s ∈ l.sitesOf i kind) (he : ∃ n, l.nodes.get? s = some n ∧ e.Within n) : l.InBody e := by
  have hns := ha.nested.nodes
  obtain ⟨n, hn, hstart, hstop⟩ := he
  obtain ⟨w, hw, hsite⟩ := mem_sitesOf hs
  have hin := (Bound.mem_sitesWithin hns hsite).1
  obtain ⟨body, hbody⟩ := hin.exists_get? hns hn
  have hwithin := hin.within hns hbody hn
  exact ⟨i, w, body, hw, hbody, Nat.le_trans hwithin.1 hstart, Nat.le_trans hstop hwithin.2⟩

/-- What stands around the call of a body is inserted in the range of the body. -/
theorem Account.call_within (ha : l.Account source options) {i : Nat} {w : Wrap} {body : Node}
    (hw : l.wraps[i]? = some w) (hb : l.nodes.get? w.body = some body) (declared : List String)
    (value : Option String) (checks : List String) :
    (w.callStart body declared value).Within body ∧ (w.callEnd body checks).Within body := by
  obtain ⟨hopen, hle, hclose⟩ := ha.callStart_le_callEnd hw hb declared checks value
  obtain ⟨hstart, hend⟩ := ha.call_joins hw hb declared value checks
  have := hstart.point
  have := hend.point
  unfold Edit.Within
  omega

/-- Neither in a wrapped loop nor around one. -/
def Clear (l : Lowering) (s : NodeId) : Prop :=
  ∀ (i : Nat) (w : Wrap), l.wraps[i]? = some w → ¬l.nodes.Inside w.loop s ∧ ¬l.nodes.Inside s w.loop

end Lowering

section Source

variable {file : String} {source : List Char} {options : Options} {l : Lowering} {e : Edit}
  {f s : NodeId} {n : Node} (h : lowerSource file source options = .ok l)

include h

/-- What has a parent is no program. -/
theorem not_program_of_lowerSource {p : NodeId} (hp : l.nodes.parent? s = some p)
    (hn : l.nodes.get? s = some n) (statements : List NodeId) (comments : List Comment) :
    n.form ≠ .program statements comments := by
  obtain ⟨-, t, hparse, hnodes⟩ := outcome_of_lowerSource h
  rw [hnodes] at hp hn
  intro hform
  have hinner := Grammar.parse_inner hparse hp hn
  rw [hform] at hinner
  cases hinner

open Lowering in
/-- A declaration goes to a host around the wrapped body; if the body itself is the host, that is in
the body. -/
theorem inBody_or_inPrologue_init {i : Nat} {w : Wrap} {target : ScopeId} (a : Alias) (name : String)
    (hw : l.wraps[i]? = some w) (ht : aliasScope? l.bound w.scope = some target) :
    l.InBody (a.init l.bound target name) ∨ ∃ f, l.InPrologue f (a.init l.bound target name) := by
  have hns := (account_of_lowerSource h).nested.nodes
  have hp := (account_of_lowerSource h).nested.wraps.parent?_body hns hw
  obtain ⟨f, hnode, hhost, hin⟩ := host_of_lowerSource h hw ht
  have hends := endsPrologue_bodyStart hnode hhost
  by_cases hne : f = w.body
  · subst hne
    obtain ⟨body, hbody⟩ := exists_get?_of_parent?_eq_some hp
    exact .inl ⟨i, w, body, hw, hbody,
      hends.within hns hbody (not_program_of_lowerSource h hp hbody)⟩
  · exact .inr ⟨f, ⟨i, w, hw, hin.parent hne hp⟩, hends, a, name, rfl⟩

open Lowering in
/-- An edit lies in the body of a wrapped loop, or declares the variable for a keyword behind the
directives of the program or of a function around a wrapped loop. -/
theorem inBody_or_inPrologue (he : e ∈ l.draft.edits.active) :
    l.InBody e ∨ ∃ f, l.InPrologue f e := by
  have ha := account_of_lowerSource h
  have hns := ha.nested.nodes
  rw [ha.active_eq] at he
  obtain ⟨p, ps, hins⟩ := (ha.inserts e).1 he
  cases hins with
  | body hbody =>
    cases hbody with
    | jump hs he => exact .inl (ha.inBody_of_site hs he.exists_within)
    | returns hs he => exact .inl (ha.inBody_of_site hs (he.exists_within hns))
    | keyword a hs he => exact .inl (ha.inBody_of_site hs he.exists_within)
    | init a hw _ ht => exact inBody_or_inPrologue_init h a _ hw ht
  | strip hs _ he => exact .inl (ha.inBody_of_site hs (he.exists_within hns))
  | callStart hw hb => exact .inl ⟨_, _, _, hw, hb, (ha.call_within hw hb _ _ []).1⟩
  | callEnd hw hb => exact .inl ⟨_, _, _, hw, hb, (ha.call_within hw hb [] none _).2⟩

/-! ## What is left alone -/

section Apart

variable (hn : l.nodes.get? s = some n) (hform : n.form.isLoop = true ∨ n.form.isFunction = true)
  (hclear : l.Clear s)
include hn hform hclear

theorem apart_of_inBody (he : l.InBody e) : e.stop ≤ n.start ∨ n.stop ≤ e.start := by
  have ha := account_of_lowerSource h
  have hns := ha.nested.nodes
  obtain ⟨i, w, body, hw, hbody, hstart, hstop⟩ := he
  obtain ⟨loop, hloop, hkeyword, -⟩ := ha.nested.wraps.get?_loop hw
  have hwithin := hns.within (ha.nested.wraps.parent?_body hns hw) hbody hloop
  have hname : l.nodes.identifier? s = none := identifier?_eq_none hn fun name hname => by
    rw [hname] at hform
    rcases hform with hform | hform <;> cases hform
  rcases hns.laminar hloop hn (identifier?_eq_none_of_hasKeyword hloop hkeyword) hname with
    hin | hin | hle | hle
  · exact absurd hin (hclear i w hw).1
  · exact absurd hin (hclear i w hw).2
  · exact .inl (by omega)
  · exact .inr (by omega)

theorem apart_of_inPrologue (he : l.InPrologue f e) : e.stop ≤ n.start ∨ n.stop ≤ e.start := by
  have ha := account_of_lowerSource h
  have hns := ha.nested.nodes
  obtain ⟨-, t, hparse, hnodes⟩ := outcome_of_lowerSource h
  obtain ⟨⟨i, w, hw, hin⟩, hends, a, name, heq⟩ := he
  have hpoint : e.stop = e.start := by rw [heq]
  rw [hpoint]
  by_cases hinside : l.nodes.Inside f s
  · have hne : f ≠ s := fun heq => (hclear i w hw).2 (heq ▸ hin)
    exact hends.apart (Grammar.parse_wellFormed hparse) hnodes hinside hne hn hform
  · obtain ⟨loop, hloop, -⟩ := ha.nested.wraps.get?_loop hw
    obtain ⟨m, hm⟩ := hin.exists_get? hns hloop
    obtain ⟨q, hq⟩ : ∃ q, l.nodes.parent? f = some q := by
      cases ha.root hm with
      | refl => exact absurd (ha.root hn) hinside
      | up hq _ => exact ⟨_, hq⟩
    have hwithin := hends.within hns hm (not_program_of_lowerSource h hq hm)
    have hname : l.nodes.identifier? f = none := by
      cases hends with
      | program hf => simp [identifier?, hf]
      | function hf => simp [identifier?, hf]
    have hname' : l.nodes.identifier? s = none := identifier?_eq_none hn fun name hname => by
      rw [hname] at hform
      rcases hform with hform | hform <;> cases hform
    rcases hns.laminar hm hn hname hname' with hfs | hsf | hle | hle
    · exact absurd hfs hinside
    · exact absurd (hsf.trans hin) (hclear i w hw).2
    · exact .inl (by omega)
    · exact .inr (by omega)

/-- A loop or function that is neither in a wrapped loop nor around one is copied. -/
theorem copies_of_lowerSource : l.draft.edits.Copies n.start n.stop := by
  have hpoints : ∀ e ∈ l.draft.edits.active, e.IsPoint := fun e he hr =>
    (joins_of_active h he hr).point
  have hplaced := placed_of_lowerSource h
  rw [← source_of_lowerSource h] at hplaced
  have hstop : n.stop ≤ size l.draft.edits.source := by
    rw [source_of_lowerSource h]
    exact isBoundary_le (edgedAt_of_lowerSource h hn).back
  refine Edits.exists_copied (hplaced.follows hpoints) (Nat.zero_le _) hstop fun e he => ?_
  rcases inBody_or_inPrologue h (Edits.mem_ordered.1 he) with he | ⟨f, he⟩
  · exact apart_of_inBody h hn hform hclear he
  · exact apart_of_inPrologue h hn hform hclear he

end Apart

end Source

/-- An edit of a compilation lies in the body of a wrapped loop, or declares the variable for a
keyword behind the directives of the program or of a function around one; loops and functions that
are neither in a wrapped loop nor around one are copied. -/
theorem compile_confined {file : String} {source : List Char} {options : Options} {out : Lowered}
    (h : compile file source options = .ok out) :
    ∃ l, Compiles file source options l out ∧
      (∀ e ∈ out.edits, l.InBody e ∨ ∃ f, l.InPrologue f e) ∧
      out.code = l.draft.edits.segments.flatMap (Segment.text source) ∧
      ∀ s n, l.nodes.get? s = some n → n.form.isLoop = true ∨ n.form.isFunction = true →
        l.Clear s → l.draft.edits.Copies n.start n.stop ∧
          ∃ before text behind, slice? source n.start n.stop = some text ∧
            out.code = before ++ text ++ behind := by
  obtain ⟨l, hl, -⟩ := compile_outcome h
  have hcode := segments_of_lowerSource hl.lowered hl.code
  refine ⟨l, hl, fun e he => inBody_or_inPrologue hl.lowered (hl.edits ▸ he), hcode,
    fun s n hn hform hclear => ?_⟩
  have hcopies := copies_of_lowerSource hl.lowered hn hform hclear
  have hsource := source_of_lowerSource hl.lowered
  have hedged := edgedAt_of_lowerSource hl.lowered hn
  refine ⟨hcopies, ?_⟩
  rw [hcode, ← hsource]
  exact hcopies.exists_text (fun e he => hsource ▸ between_of_active hl.lowered he)
    (hsource ▸ hedged.front) (hsource ▸ hedged.back)
    ((account_of_lowerSource hl.lowered).nested.nodes.start_le_stop hn)

/-- A function with directives around a wrapped loop, and a loop behind it. -/
def loopBehind : List Char :=
  ("function f() \x7b \"use strict\"; for (const x of xs) g(() => x + this); \x7d " ++
    "for (const y of ys) h(y);").toList

theorem compile_confined_loopBehind : ∃ l out s n,
    compile "" loopBehind {} = .ok out ∧ Compiles "" loopBehind {} l out ∧ l.wraps.size = 1 ∧
    (∀ e ∈ out.edits, l.InBody e ∨ ∃ f, l.InPrologue f e) ∧ l.nodes.get? s = some n ∧
    n.form.isLoop = true ∧ l.Clear s ∧ l.draft.edits.Copies n.start n.stop := by
  have hrun : okAnd (lowerSource "" loopBehind {}) (fun l =>
      okAnd l.draft.apply (fun _ => true) && decide (l.wraps.toList.map (·.loop) = [6] ∧
        l.nodes.parent? 18 = some 0 ∧ (l.nodes.form? 18).map (·.isLoop) = some true)) = true := by
    decide +kernel
  obtain ⟨l', out, hout, hl', hcheck⟩ := exists_compile hrun
  obtain ⟨l, hl, hedits, -, hall⟩ := compile_confined hout
  obtain rfl : l = l' := Except.ok.inj (hl.lowered.symm.trans hl')
  obtain ⟨hwraps, hparent, hform⟩ := of_decide_eq_true hcheck
  have hns := (account_of_lowerSource hl.lowered).nested.nodes
  obtain ⟨form, hform, hloop⟩ := Option.map_eq_some_iff.1 hform
  obtain ⟨n, hn, rfl⟩ := Option.map_eq_some_iff.1 hform
  have hclear : l.Clear 18 := fun i w hw => by
    have hmem : w.loop ∈ l.wraps.toList.map (·.loop) :=
      List.mem_map_of_mem (Array.mem_toList_iff.2 (Array.mem_of_getElem? hw))
    rw [hwraps, List.mem_singleton] at hmem
    rw [hmem]
    refine ⟨fun hin => ?_, fun hin => absurd (hin.le hns) (by decide)⟩
    exact absurd ((hin.parent (by decide) hparent).le hns) (by decide)
  have hsize : l.wraps.size = 1 := by simpa using congrArg List.length hwraps
  exact ⟨l, out, 18, n, hout, hl, hsize, hedits, hn, hloop, hclear,
    (hall 18 n hn (.inl hloop) hclear).1⟩

end LoopClosure
