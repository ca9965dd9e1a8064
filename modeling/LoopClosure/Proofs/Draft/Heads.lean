import LoopClosure.Proofs.Draft.Ledger
import LoopClosure.Proofs.Edit.Segments
import LoopClosure.Proofs.Grammar.Layout

/-!
# Heads of programs and functions

- `Bound.Head b p q`: from `p` up to `q` there are the directives that a program or the body of a
  function begins with, or a first line that begins with `#!`.
- `Edits.Keeps b p q`: the edited text has the source up to `q` in one piece with what comes in front
  of `p`, so that a head there still comes right behind what opens it.
- `Edits.Inserts b e p position`: in the edited text the edit comes right behind the source up to `p`.
- `Grammar.parse_var`: a program or a block that begins with `var` has no directives.
- `Session.heads_kept_iff`: generated declarations leave a head as it is exactly if none of them goes
  to its place. Those that do are put in front of it, not behind, so that in the tree of the text
  nothing is left of it.
-/

namespace LoopClosure

open Text (size slice? isLineBreak)

/-! ## What is copied in one piece -/

namespace Edits

variable {b : Edits} {source out : List Char} {e : Edit} {es : List Edit}
  {c p q limit start stop : Nat}

/-- The source up to `q` is copied in one piece with what comes in front of `p`; with `p = 0` the
text begins with it. -/
def Keeps (b : Edits) (p q : Nat) : Prop :=
  ∃ front start stop behind, b.segments = front ++ .copied start stop :: behind ∧
    (front = [] ∨ start < p) ∧ q ≤ stop

theorem le_of_copied (h : Follows limit c es) (hmem : .copied start stop ∈ segmentsFrom limit c es) :
    c ≤ start := by
  induction es generalizing c with
  | nil =>
    cases List.mem_singleton.1 hmem
    exact Nat.le_refl _
  | cons e es ih =>
    obtain ⟨hle, hle', -, hrest⟩ := h
    rcases List.mem_cons.1 hmem with heq | hmem
    · cases heq
      exact Nat.le_refl _
    · rcases List.mem_cons.1 hmem with heq | hmem
      · cases heq
      · exact Nat.le_trans hle (Nat.le_trans hle' (ih hrest hmem))

/-- No edit reaches into what is copied in one piece. -/
theorem apart_of_copied (h : Follows limit c es)
    (hmem : .copied start stop ∈ segmentsFrom limit c es) (he : e ∈ es) :
    e.stop ≤ start ∨ stop ≤ e.start := by
  induction es generalizing c with
  | nil => cases he
  | cons a es ih =>
    obtain ⟨-, hle, -, hrest⟩ := h
    rcases List.mem_cons.1 hmem with heq | hmem
    · cases heq
      refine .inr ?_
      rcases List.mem_cons.1 he with rfl | he
      · exact Nat.le_refl _
      · exact Nat.le_trans hle (hrest.of_mem he).1
    · rcases List.mem_cons.1 hmem with heq | hmem
      · cases heq
      · rcases List.mem_cons.1 he with rfl | he
        · exact .inl (le_of_copied hrest hmem)
        · exact ih hrest hmem he

/-- All edits come behind what is copied first. -/
theorem stop_le_of_first (h : Follows limit c es) {behind : List Segment}
    (heq : segmentsFrom limit c es = .copied start stop :: behind) (he : e ∈ es) : stop ≤ e.start := by
  cases es with
  | nil => cases he
  | cons a es =>
    obtain ⟨-, hle, -, hrest⟩ := h
    cases heq
    rcases List.mem_cons.1 he with rfl | he
    · exact Nat.le_refl _
    · exact Nat.le_trans hle (hrest.of_mem he).1

/-- Where no insertion goes between `p` and `q`, only one at `p` itself parts the source there. -/
theorem keeps_iff (h : Follows (size b.source) 0 b.ordered) (hpoint : ∀ e ∈ b.active, e.stop = e.start)
    (hpq : p < q) (hq : q ≤ size b.source)
    (hclear : ∀ e ∈ b.active, e.start < p ∨ e.start = p ∨ q ≤ e.start) :
    b.Keeps p q ↔ ∀ e ∈ b.active, e.start ≠ p := by
  constructor
  · rintro ⟨front, start, stop, behind, hsegments, hfront, hle⟩ e he rfl
    have hordered := mem_ordered.2 he
    rcases hfront with rfl | hlt
    · have := stop_le_of_first h hsegments hordered
      omega
    · have hmem : .copied start stop ∈ b.segments :=
        hsegments ▸ List.mem_append_right _ List.mem_cons_self
      have := hpoint e he
      rcases apart_of_copied h hmem hordered with hapart | hapart <;> omega
  · intro hnone
    have hapart (e : Edit) (he : e ∈ b.ordered) : e.stop < p ∨ q ≤ e.start := by
      have he := mem_ordered.1 he
      have := hpoint e he
      have := hnone e he
      have := hclear e he
      omega
    cases p with
    | zero =>
      have hfirst : ∃ stop behind, b.segments = .copied 0 stop :: behind ∧ q ≤ stop := by
        unfold segments
        cases hes : b.ordered with
        | nil => exact ⟨_, _, rfl, hq⟩
        | cons a es =>
          refine ⟨_, _, rfl, (hapart a ?_).resolve_left (Nat.not_lt_zero _)⟩
          rw [hes]
          exact List.mem_cons_self
      obtain ⟨stop, behind, heq, hle⟩ := hfirst
      exact ⟨[], 0, stop, behind, heq, .inl rfl, hle⟩
    | succ p =>
      obtain ⟨start, stop, hmem, hstart, hstop⟩ := exists_copied h (Nat.zero_le p) hq fun e he =>
        (hapart e he).imp_left Nat.le_of_lt_succ
      obtain ⟨front, behind, heq⟩ := List.append_of_mem hmem
      exact ⟨front, start, stop, behind, heq, .inr (Nat.lt_succ_of_le hstart), hstop⟩

/-- What is copied is a part of the source. -/
theorem exists_slice_of_copied (h : Follows (size source) c es) (hw : write source c es = .ok out)
    (hmem : .copied start stop ∈ segmentsFrom (size source) c es) (hlt : start < stop) :
    ∃ mid, slice? source start stop = some mid := by
  induction es generalizing c out with
  | nil =>
    cases List.mem_singleton.1 hmem
    exact ⟨out, copy_eq_ok.1 hw⟩
  | cons e es ih =>
    obtain ⟨before, behind, hbefore, hbehind, -⟩ := (write_cons h).1 hw
    obtain ⟨-, -, -, hrest⟩ := h
    rcases List.mem_cons.1 hmem with heq | hmem
    · cases heq
      rw [if_pos hlt] at hbefore
      exact ⟨before, copy_eq_ok.1 hbefore⟩
    · rcases List.mem_cons.1 hmem with heq | hmem
      · cases heq
      · exact ih hrest hbehind hmem

/-- What a text keeps in one piece is found in it. -/
theorem Keeps.text (h : b.Keeps p q) (hpq : p < q) (hpoints : ∀ e ∈ b.active, e.IsPoint)
    (happ : b.apply = .ok out) : ∃ before mid after front behind,
      b.source = before ++ mid ++ after ∧ out = front ++ mid ++ behind ∧
        (before = [] ∧ front = [] ∨ size before < p) ∧ q ≤ size before + size mid := by
  obtain ⟨front, start, stop, behind, hsegments, hfront, hle⟩ := h
  have hout := apply_segments hpoints happ
  obtain ⟨happ, hw⟩ := (apply_eq_ok_iff hpoints).1 happ
  have hzero : front = [] → start = 0 := fun hnil => by
    rw [hnil, segments] at hsegments
    cases hordered : b.ordered <;> (rw [hordered] at hsegments; cases hsegments; rfl)
  have hmem : .copied start stop ∈ b.segments := hsegments ▸ List.mem_append_right _ List.mem_cons_self
  have hlt : start < stop := by
    rcases hfront with hnil | hlt
    · have := hzero hnil
      omega
    · omega
  obtain ⟨mid, hmid⟩ := exists_slice_of_copied (happ.toPlaced.follows hpoints) hw hmem hlt
  obtain ⟨before, after, hsource, hbefore, hsize⟩ := Text.slice?_eq_some_iff.1 hmid
  refine ⟨before, mid, after, front.flatMap (Segment.text b.source),
    behind.flatMap (Segment.text b.source), hsource, ?_, ?_, by omega⟩
  · rw [hout, hsegments, List.flatMap_append, List.flatMap_cons, Segment.text, hmid, Option.getD_some,
      List.append_assoc]
  · refine hfront.imp (fun hnil => ⟨?_, by rw [hnil]; rfl⟩) fun hlt => hbefore ▸ hlt
    by_contra hne
    have := Text.size_pos hne
    have := hzero hnil
    omega

/-- The edit comes at `position` in the edited text, right behind what is copied up to `p`. -/
def Inserts (b : Edits) (e : Edit) (p position : Nat) : Prop :=
  ∃ front start behind, b.segments = front ++ .copied start p :: .edited e :: behind ∧ start < p ∧
    position = size ((front ++ [.copied start p]).flatMap (Segment.text b.source))

/-- The first edit at an offset comes right behind the source in front of it. -/
theorem exists_copied_edited (limit : Nat) (hpoint : ∀ e ∈ es, e.stop = e.start)
    (hsorted : es.Pairwise fun e a => e.precedes a = true) (he : e ∈ es) (hc : c < e.start) :
    ∃ front start a behind, segmentsFrom limit c es =
      front ++ .copied start e.start :: .edited a :: behind ∧ start < e.start ∧ a ∈ es := by
  induction es generalizing c with
  | nil => cases he
  | cons x es ih =>
    obtain ⟨hx, hsorted⟩ := List.pairwise_cons.1 hsorted
    by_cases hsame : x.start = e.start
    · exact ⟨[], c, x, _, by rw [segmentsFrom, hsame]; rfl, hc, List.mem_cons_self⟩
    rcases List.mem_cons.1 he with rfl | he
    · exact absurd rfl hsame
    have hlt : x.stop < e.start := by
      have hle := hx e he
      simp only [Edit.precedes, Bool.or_eq_true, Bool.and_eq_true, decide_eq_true_eq] at hle
      have := hpoint x List.mem_cons_self
      omega
    obtain ⟨front, start, a, behind, heq, hstart, ha⟩ :=
      ih (fun e he => hpoint e (List.mem_cons_of_mem _ he)) hsorted he hlt
    exact ⟨.copied c x.start :: .edited x :: front, start, a, behind, by rw [segmentsFrom, heq]; rfl,
      hstart, List.mem_cons_of_mem _ ha⟩

/-- Where something is inserted, the text goes on with it. -/
theorem exists_inserts (hpoint : ∀ e ∈ b.active, e.stop = e.start) (happ : b.apply = .ok out)
    (he : e ∈ b.active) (hpos : 0 < e.start) : ∃ a ∈ b.active, ∃ position rest,
      b.Inserts a e.start position ∧ Text.dropBytes? position out = some (a.text.toList ++ rest) := by
  obtain ⟨front, start, a, behind, hsegments, hstart, ha⟩ := exists_copied_edited
    (size b.source) (fun e he => hpoint e (mem_ordered.1 he)) (pairwise_ordered b)
    (mem_ordered.2 he) hpos
  refine ⟨a, mem_ordered.1 ha, _, behind.flatMap (Segment.text b.source),
    ⟨front, start, behind, hsegments, hstart, rfl⟩, ?_⟩
  have hout := apply_segments (fun e he _ => hpoint e he) happ
  rw [segments, hsegments, List.append_cons, List.flatMap_append, List.flatMap_cons] at hout
  rw [hout]
  exact Text.dropBytes?_size _ _

/-- Where something is inserted at the front, the text begins with it. -/
theorem exists_front (hpoints : ∀ e ∈ b.active, e.IsPoint) (happ : b.apply = .ok out)
    (he : e ∈ b.active) (hstart : e.start = 0) :
    ∃ a ∈ b.active, ∃ rest, out = a.text.toList ++ rest := by
  have hout := apply_segments hpoints happ
  have hordered := mem_ordered.2 he
  have hsorted := pairwise_ordered b
  unfold segments at hout
  cases hes : b.ordered with
  | nil =>
    rw [hes] at hordered
    cases hordered
  | cons a es =>
    rw [hes] at hout hordered hsorted
    have hzero : a.start = 0 := by
      rcases List.mem_cons.1 hordered with rfl | hmem
      · exact hstart
      · have hle := (List.pairwise_cons.1 hsorted).1 e hmem
        simp only [Edit.precedes, Bool.or_eq_true, Bool.and_eq_true, decide_eq_true_eq] at hle
        omega
    rw [segmentsFrom, List.flatMap_cons, List.flatMap_cons, hzero, Segment.text_copied_self,
      List.nil_append] at hout
    exact ⟨a, mem_ordered.1 (hes ▸ List.mem_cons_self), _, hout⟩

end Edits

/-! ## Heads -/

open Syntax Scopes Draft Binding

namespace Bound

variable {b : Bound} {x : ScopeId} {p q position : Nat} {t : Tree}

/-- What a program, or the body of a function, begins with at `p`: its directives, or a first line
that begins with `#!`, up to `q`. -/
inductive Head (b : Bound) : Nat → Nat → Prop
  | firstLine {rest : List Char} (h : b.unit.source = '#' :: '!' :: rest) :
    Head b 0 (size (b.unit.source.takeWhile fun c => !isLineBreak c))
  | program {f : NodeId} {statements : List NodeId} {comments : List Comment} {q : Nat}
    (hf : b.nodes.form? f = some (.program statements comments))
    (h : b.nodes.PrologueEnd 0 statements q) : Head b 0 q
  | function {f : NodeId} {place : FunctionPlace} {name : Option NodeId} {params : List NodeId}
    {body : NodeId} {traits : FunctionTraits} {start stop : Nat} {statements : List NodeId}
    {parent : Option NodeId} {q : Nat}
    (hf : b.nodes.form? f = some (.function place name params body traits))
    (hbody : b.nodes.get? body = some ⟨start, stop, .block statements, parent⟩)
    (h : b.nodes.PrologueEnd (start + 1) statements q) : Head b (start + 1) q

/-- The front of the text, or that of a block. -/
def AtFront (b : Bound) (position : Nat) : Prop :=
  position = 0 ∨ ∃ i n statements, b.nodes.get? i = some n ∧ n.form = .block statements ∧
    position = n.start + 1

/-- A declaration goes to the front of the text, or of a block. -/
theorem IsSeat.atFront (hns : b.nodes.WellFormed) (hgrounded : b.Grounded)
    (hunwrapped : ∀ x : ScopeId, (b.scopes.flags (some x)).loopWrapper = false) (hx : b.IsSeat x) :
    b.AtFront (b.insertPosition (some x)) := by
  obtain ⟨hkind, htakes⟩ := hx
  cases hn : b.scopes.node? (some x) with
  | none =>
    left
    rw [insertPosition, hn, Option.bind_none]
  | some f =>
    obtain ⟨form, kind, hf, hk, ho⟩ := hgrounded.made hn (hunwrapped x)
    obtain rfl : kind = .hoist := Option.some.inj (hk.symm.trans hkind)
    obtain ⟨n, hget, rfl⟩ := Option.map_eq_some_iff.1 hf
    simp only [takesVar, hn, Option.bind_some, hf, Option.elim_some, Bool.and_eq_true,
      Bool.not_eq_true'] at htakes
    generalize horigin : (b.scopes.flags (some x)).origin = flags at ho
    generalize hform : n.form = form at hf ho htakes
    cases ho with
    | program =>
      left
      simp only [insertPosition, hn, Option.bind_some, hget, hform]
    | classBody =>
      have hclass : (b.scopes.flags (some x)).class_ = true := congrArg Flags.class_ horigin
      cases hclass.symm.trans htakes.2
    | @function place name params body traits =>
      obtain hhost | ⟨_, _, _, body', _, statements, hf', hblock⟩ :=
        Grounded.isHost_of_blockBody? hns hf (Form.blockBody?_function (.inr htakes.1))
      · obtain ⟨_, _, hf'⟩ := hhost
        cases hf.symm.trans hf'
      · cases hf.symm.trans hf'
        obtain ⟨m, hm, hblock⟩ := Option.map_eq_some_iff.1 hblock
        refine .inr ⟨body, m, statements, hm, hblock, ?_⟩
        simp only [insertPosition, hn, Option.bind_some, hget, hform, hm, Option.map_some,
          Option.getD_some]

/-- A head ends in the text. -/
theorem Head.le_size (h : b.Head p q) (hparse : Grammar.parse b.unit.source = .ok t)
    (hnodes : b.nodes = .ofTree t) : q ≤ size b.unit.source := by
  have ht := Grammar.parse_wellFormed hparse
  have hns : b.nodes.WellFormed := hnodes ▸ Nodes.wellFormed_ofTree ht
  have hstop {i : NodeId} {n : Node} (hn : b.nodes.get? i = some n) :
      n.stop ≤ size b.unit.source := by
    obtain ⟨_, _, hlaminar⟩ := Grammar.parse_laminar hparse
    obtain ⟨m, _, _, hm, -, -, hsize⟩ := hlaminar.root
    rw [hnodes] at hn hns
    exact hsize ▸ ((Nodes.inside_root hn).within hns hm hn).2
  cases h with
  | firstLine =>
    have hsplit := List.takeWhile_append_dropWhile (p := fun c => !isLineBreak c) (l := b.unit.source)
    conv_rhs => rw [← hsplit, Text.size_append]
    exact Nat.le_add_right _ _
  | program _ h =>
    obtain rfl := Nodes.prologueEnd_iff.1 h
    exact Nodes.directivesEnd_le_of (Nat.zero_le _) fun c _ n hn => hstop hn
  | function _ hbody h =>
    obtain rfl := Nodes.prologueEnd_iff.1 h
    exact (Nodes.directivesEnd_le_stop hns hbody).trans (hstop hbody)

/-- Where declarations go is in front of a head, at its place or behind it. -/
theorem Head.apart (h : b.Head p q) (hparse : Grammar.parse b.unit.source = .ok t)
    (hnodes : b.nodes = .ofTree t) (hfront : b.AtFront position) :
    position < p ∨ position = p ∨ q ≤ position := by
  have ht := Grammar.parse_wellFormed hparse
  have hns : b.nodes.WellFormed := hnodes ▸ Nodes.wellFormed_ofTree ht
  rcases hfront with rfl | ⟨i, n, statements, hn, hform, rfl⟩
  · exact (Nat.eq_zero_or_pos p).elim (fun h => .inr (.inl h.symm)) .inl
  have hexpression (e : NodeId) : n.form ≠ .expression e := fun h => nomatch hform.symm.trans h
  have hliteral (raw : String) : n.form ≠ .literal .string raw := fun h => nomatch hform.symm.trans h
  cases h with
  | firstLine hfirst =>
    obtain ⟨ks, hks, hlaminar⟩ := Grammar.parse_laminar hparse
    rw [hnodes] at hn
    have hne : i ≠ Nodes.root := fun heq => by
      obtain ⟨m, _, _, hm, hprogram, -⟩ := hlaminar.root
      subst heq
      cases hm.symm.trans hn
      cases hprogram.symm.trans hform
    obtain ⟨k, hk, hstart⟩ := (hlaminar.tokens hn hne).1
    have := hks.opening_le hk
    rw [Token.offset_opening hfirst] at this
    omega
  | @program f _ _ _ hf h =>
    obtain rfl := Nodes.prologueEnd_iff.1 h
    obtain ⟨m, hm, hprogram⟩ := Option.map_eq_some_iff.1 hf
    have hin : b.nodes.Inside f i := by
      rw [hnodes] at hm hn ⊢
      rw [Grammar.parse_program_unique hparse hm (by rw [hprogram]; rfl)]
      exact Nodes.inside_root hn
    have hne : f ≠ i := fun heq => by
      cases (heq ▸ hm).symm.trans hn
      cases hprogram.symm.trans hform
    have hle : Lowering.directivesEnd b.nodes 0 _ ≤ n.start :=
      Nodes.directivesEnd_le_of_inside ht hnodes hf rfl rfl hm (Nat.zero_le _) hin hne hn hexpression
        hliteral
    exact .inr (.inr (Nat.le_succ_of_le hle))
  | @function _ _ _ _ body _ start stop statements _ _ hf hbody h =>
    obtain rfl := Nodes.prologueEnd_iff.1 h
    have hblock : b.nodes.form? body = some (.block statements) := by
      rw [Nodes.form?, hbody, Option.map_some]
    have hlt := hns.start_lt_stop_of_block hn hform
    rcases hns.block_cases hbody hn rfl hform with rfl | ⟨hne, hin, -⟩ | ⟨-, hstart, -⟩ | hle | hle
    · cases hbody.symm.trans hn
      exact .inr (.inl rfl)
    · have hle : Lowering.directivesEnd b.nodes (start + 1) statements ≤ n.start :=
        Nodes.directivesEnd_le_of_inside ht hnodes hblock rfl rfl hbody (Nat.le_refl _) hin hne hn
          hexpression hliteral
      exact .inr (.inr (Nat.le_succ_of_le hle))
    · exact .inl (Nat.succ_lt_succ hstart)
    · have := Nodes.directivesEnd_le_stop hns hbody
      exact .inr (.inr (Nat.le_succ_of_le (this.trans hle)))
    · have hle : n.stop ≤ start := hle
      exact .inl (by omega)

end Bound

/-! ## Texts that begin with a declaration -/

/-- A program or a block that begins with `var` has no directives. -/
theorem Grammar.parse_var {source rest : List Char} {t : Tree} (h : Grammar.parse source = .ok t)
    {id : NodeId} {n : Node} {p : Nat} (hn : (Nodes.ofTree t).get? id = some n)
    (hp : n.form.isProgram = true ∧ p = 0 ∨ n.form.isBlock = true ∧ p = n.start + 1)
    (hrest : Text.dropBytes? p source = some ('v' :: 'a' :: 'r' :: ' ' :: rest)) :
    (Nodes.ofTree t).PrologueEnd p n.form.children p := by
  obtain ⟨c, cs, f, hchildren, hf, hbindings⟩ := Grammar.parse_declared h hn hp hrest
  rw [hchildren]
  refine .here fun s hs ⟨e, raw, hexpression, _⟩ => ?_
  cases hs
  rw [hf, Option.some.injEq] at hexpression
  subst hexpression
  cases hbindings

/-- In the tree of a text that begins with `var` the program has no directives. -/
theorem Grammar.program_of_var {rest : List Char} {t : Tree}
    (h : Grammar.parse ('v' :: 'a' :: 'r' :: ' ' :: rest) = .ok t) : ∃ statements comments,
      (Nodes.ofTree t).form? Nodes.root = some (.program statements comments) ∧
        (Nodes.ofTree t).PrologueEnd 0 statements 0 := by
  obtain ⟨_, _, hlaminar⟩ := Grammar.parse_laminar h
  obtain ⟨n, statements, comments, hn, hform, -⟩ := hlaminar.root
  have hprologue := Grammar.parse_var h hn (.inl ⟨by rw [hform]; rfl, rfl⟩) (by rw [Text.dropBytes?])
  rw [hform] at hprologue
  exact ⟨statements, comments, by rw [Nodes.form?, hn, Option.map_some, hform], hprologue⟩

/-! ## Sessions -/

/-- The edits in effect introduce the variables. -/
theorem Kept.mem_active {b : Bound} {d : Draft} {vars : List Variable} {e : Edit}
    (h : Kept b d vars) : e ∈ d.edits.active ↔ ∃ v ∈ vars, e = v.introduction b := by
  constructor
  · intro he
    obtain ⟨hmem, hactive⟩ := List.mem_filter.1 he
    obtain ⟨i, hi⟩ := Array.getElem?_of_mem (Array.mem_toList_iff.1 hmem)
    obtain ⟨v, hv, -, heq⟩ := h.edits.1 ⟨hi, hactive⟩
    exact ⟨v, hv, heq⟩
  · rintro ⟨v, hv, rfl⟩
    obtain ⟨hi, hactive⟩ := h.edits.2 ⟨v, hv, rfl, rfl⟩
    exact List.mem_filter.2 ⟨Array.mem_toList_iff.2 (Array.mem_of_getElem? hi), hactive⟩

/-- What introduces a variable begins with `var`. -/
theorem Variable.exists_introduction (v : Variable) (b : Bound) :
    ∃ rest, (v.introduction b).text.toList = 'v' :: 'a' :: 'r' :: ' ' :: rest := by
  change ∃ rest, v.text.toList = _
  unfold Variable.text
  split
  · simp only [varText, String.toList_append]
    exact ⟨_, rfl⟩
  · simp only [initializedText, String.toList_append]
    exact ⟨_, rfl⟩

namespace Session

/-- A name that was given out is declared in a scope whose declarations go to `p`. -/
def DeclaresAt (b : Bound) (s : Session) (p : Nat) : Prop :=
  ∃ e ∈ s.past, ∃ x : ScopeId, (s.draft.scopes.declaration? (some x) e.name).isSome = true ∧
    b.insertPosition (some x) = p

theorem declaresAt_iff {b : Bound} {s : Session} {vars : List Variable} (h : Ledger b s vars)
    {p : Nat} : s.DeclaresAt b p ↔ ∃ e ∈ s.draft.edits.active, e.start = p := by
  constructor
  · rintro ⟨e, he, x, hx, rfl⟩
    obtain ⟨v, hv, hname⟩ := h.exists_name_iff.2 ⟨e, he, rfl⟩
    obtain rfl := ((h.declared hv).2 x).1 (hname ▸ hx)
    exact ⟨_, h.mem_active.2 ⟨v, hv, rfl⟩, rfl⟩
  · rintro ⟨e, he, rfl⟩
    obtain ⟨v, hv, rfl⟩ := h.mem_active.1 he
    obtain ⟨e, he, hname⟩ := h.exists_name_iff.1 ⟨v, hv, rfl⟩
    exact ⟨e, he, v.scope, hname ▸ ((h.declared hv).2 v.scope).2 rfl, rfl⟩

/-- **Heads.** In the text of a session in which nothing is given back a head comes in one piece with
what opens it exactly if no declaration goes to its place; then this part of the source is found in
the text. In the tree of the text, where the grammar accepts it, no directives are left of a head to
whose place a declaration goes: the program has none if that is at its front, and what is the body of
a function there, or any block, has none if that is behind its brace. -/
theorem heads_kept_iff {u : CompilationUnit} {t : Tree} {b : Bound}
    (hparse : Grammar.parse u.source = .ok t) (hnodes : u.nodes = .ofTree t) (hb : bind u = .ok b)
    {rs : List Request} (hrs : ∀ r ∈ rs, r.Known b ∧ r.IsRelease = false) {out : List Char}
    (hout : ((start b).run rs).draft.edits.apply = .ok out) :
    (∀ {p q : Nat}, b.Head p q → p < q →
      (((start b).run rs).draft.edits.Keeps p q ↔ ¬((start b).run rs).DeclaresAt b p)) ∧
    (∀ {p q : Nat}, b.Head p q → p < q → ¬((start b).run rs).DeclaresAt b p →
      ∃ before mid after front behind, u.source = before ++ mid ++ after ∧
        out = front ++ mid ++ behind ∧ (before = [] ∧ front = [] ∨ size before < p) ∧
        q ≤ size before + size mid) ∧
    (((start b).run rs).DeclaresAt b 0 → (∃ rest, out = "var ".toList ++ rest) ∧
      ∀ {t' : Tree}, Grammar.parse out = .ok t' → ∃ statements comments,
        (Nodes.ofTree t').form? Nodes.root = some (.program statements comments) ∧
          (Nodes.ofTree t').PrologueEnd 0 statements 0) ∧
    ∀ {p : Nat}, 0 < p → ((start b).run rs).DeclaresAt b p → ∃ e position,
      ((start b).run rs).draft.edits.Inserts e p position ∧
      (∃ rest, Text.dropBytes? position out = some ("var ".toList ++ rest)) ∧
      ∀ {t' : Tree}, Grammar.parse out = .ok t' → ∀ {i : NodeId} {n : Node} {statements : List NodeId},
        (Nodes.ofTree t').get? i = some n → n.form = .block statements → n.start + 1 = position →
          (Nodes.ofTree t').PrologueEnd position statements position := by
  have hns : u.nodes.WellFormed :=
    hnodes ▸ Nodes.wellFormed_ofTree (Grammar.parse_wellFormed hparse)
  have hroot : u.nodes.Rooted := hnodes ▸ Grammar.parse_rooted hparse
  have hfirm := bind_firm hns hroot hb
  have hgrounded := Bound.bind_grounded hns hroot hb
  have hunwrapped := (bind_layout hns hroot hb).grown.unwrapped
  have hsteady := Steady.run hfirm fun r hr => (hrs r hr).1
  obtain ⟨vars, h⟩ := (Ledger.start hfirm).run hfirm (.ofBound hfirm) hrs
  obtain rfl := bind_unit hb
  generalize (start b).run rs = s at hout hsteady h
  have hpoint : ∀ e ∈ s.draft.edits.active, e.stop = e.start := fun e he => by
    obtain ⟨v, -, rfl⟩ := h.mem_active.1 he
    rfl
  have hpoints : ∀ e ∈ s.draft.edits.active, e.IsPoint := fun e he _ => hpoint e he
  have hfollows := ((Edits.apply_eq_ok_iff hpoints).1 hout).1.toPlaced.follows hpoints
  have hkeeps {p q : Nat} (hhead : b.Head p q) (hpq : p < q) :
      s.draft.edits.Keeps p q ↔ ¬s.DeclaresAt b p := by
    rw [Edits.keeps_iff hfollows hpoint hpq (hsteady.source ▸ hhead.le_size hparse hnodes)
      fun e he => ?_, declaresAt_iff h, not_exists]
    · exact forall_congr' fun e => not_and.symm
    · obtain ⟨v, hv, rfl⟩ := h.mem_active.1 he
      exact hhead.apart hparse hnodes ((h.declared hv).1.atFront hns hgrounded hunwrapped)
  refine ⟨hkeeps, fun hhead hpq hnot => ?_, fun hdeclares => ?_, fun hpos hdeclares => ?_⟩
  · exact hsteady.source ▸ ((hkeeps hhead hpq).2 hnot).text hpq hpoints hout
  · obtain ⟨e, he, hstart⟩ := (declaresAt_iff h).1 hdeclares
    obtain ⟨a, ha, rest, heq⟩ := Edits.exists_front hpoints hout he hstart
    obtain ⟨v, -, rfl⟩ := h.mem_active.1 ha
    obtain ⟨more, hmore⟩ := v.exists_introduction b
    obtain rfl : out = 'v' :: 'a' :: 'r' :: ' ' :: (more ++ rest) := by
      rw [heq, hmore]
      rfl
    exact ⟨⟨_, rfl⟩, Grammar.program_of_var⟩
  · obtain ⟨e, he, rfl⟩ := (declaresAt_iff h).1 hdeclares
    obtain ⟨a, ha, position, rest, hinserts, hrest⟩ := Edits.exists_inserts hpoint hout he hpos
    obtain ⟨v, -, rfl⟩ := h.mem_active.1 ha
    obtain ⟨more, hmore⟩ := v.exists_introduction b
    rw [hmore] at hrest
    refine ⟨_, position, hinserts, ⟨_, hrest⟩,
      fun {t'} hparse' {i n statements} hn hform hstart => ?_⟩
    have hprologue := Grammar.parse_var hparse' hn (.inr ⟨by rw [hform]; rfl, hstart.symm⟩) hrest
    rwa [hform] at hprologue

/-- A directive and a statement. -/
def strictProgram : List Char := "'use strict'; a;".toList

/-- A temporary of the program puts an end to its directives. -/
theorem heads_lost : ∃ t b out t', Grammar.parse strictProgram = .ok t ∧
    bind ⟨"", strictProgram, .ofTree t, {}⟩ = .ok b ∧
      ((start b).run [.temporary 4 (some programScope) "$D"]).draft.edits.apply = .ok out ∧
      out = "var $D$0;'use strict'; a;".toList ∧ Grammar.parse out = .ok t' ∧
      (Nodes.ofTree t).form? Nodes.root = some (.program [1, 3] []) ∧
      (Nodes.ofTree t).PrologueEnd 0 [1, 3] 13 ∧
      (Nodes.ofTree t').form? Nodes.root = some (.program [1, 4, 6] []) ∧
      (Nodes.ofTree t').PrologueEnd 0 [1, 4, 6] 0 := by
  have hrun : okAnd (Grammar.parse strictProgram) (fun t =>
      okAnd (bind ⟨"", strictProgram, .ofTree t, {}⟩) fun b =>
        okAnd ((start b).run [.temporary 4 (some programScope) "$D"]).draft.edits.apply fun out =>
          okAnd (Grammar.parse out) fun t' => decide (out = "var $D$0;'use strict'; a;".toList ∧
            (Nodes.ofTree t).form? Nodes.root = some (.program [1, 3] []) ∧
            13 = Lowering.directivesEnd (.ofTree t) 0 [1, 3] ∧
            (Nodes.ofTree t').form? Nodes.root = some (.program [1, 4, 6] []) ∧
            0 = Lowering.directivesEnd (.ofTree t') 0 [1, 4, 6])) = true := by
    decide +kernel
  obtain ⟨t, hparse, hrun⟩ := okAnd_iff.1 hrun
  obtain ⟨b, hb, hrun⟩ := okAnd_iff.1 hrun
  obtain ⟨out, hout, hrun⟩ := okAnd_iff.1 hrun
  obtain ⟨t', hparse', hrun⟩ := okAnd_iff.1 hrun
  obtain ⟨heq, hform, hend, hform', hend'⟩ := of_decide_eq_true hrun
  exact ⟨t, b, out, t', hparse, hb, hout, heq, hparse', hform, Nodes.prologueEnd_iff.2 hend, hform',
    Nodes.prologueEnd_iff.2 hend'⟩

/-- A directive and a function. -/
def strictFunction : List Char := "'use strict'; function f() \x7b a; \x7d".toList

/-- A temporary of the function leaves the directives of the program. -/
theorem heads_kept_strictFunction : ∃ t b out, Grammar.parse strictFunction = .ok t ∧
    bind ⟨"", strictFunction, .ofTree t, {}⟩ = .ok b ∧
      ((start b).run [.temporary 7 (some 2) "$D"]).draft.edits.apply = .ok out ∧
      out = "'use strict'; function f() \x7bvar $D$0; a; \x7d".toList ∧ b.Head 0 13 ∧
      ((start b).run [.temporary 7 (some 2) "$D"]).draft.edits.Keeps 0 13 := by
  have hrun : okAnd (Grammar.parse strictFunction) (fun t =>
      okAnd (bind ⟨"", strictFunction, .ofTree t, {}⟩) fun b =>
        okAnd ((start b).run [.temporary 7 (some 2) "$D"]).draft.edits.apply fun out =>
          decide (out = "'use strict'; function f() \x7bvar $D$0; a; \x7d".toList ∧
            Request.Known b (.temporary 7 (some 2) "$D") ∧
            b.nodes.form? Nodes.root = some (.program [1, 3] []) ∧
            13 = Lowering.directivesEnd b.nodes 0 [1, 3] ∧
            ∀ e ∈ ((start b).run [.temporary 7 (some 2) "$D"]).past,
              ∀ x < ((start b).run [.temporary 7 (some 2) "$D"]).draft.scopes.size,
              (((start b).run [.temporary 7 (some 2) "$D"]).draft.scopes.declaration? (some x)
                e.name).isSome = true → b.insertPosition (some x) ≠ 0)) = true := by
    decide +kernel
  obtain ⟨t, hparse, hrun⟩ := okAnd_iff.1 hrun
  obtain ⟨b, hb, hrun⟩ := okAnd_iff.1 hrun
  obtain ⟨out, hout, hrun⟩ := okAnd_iff.1 hrun
  obtain ⟨heq, hknown, hform, hend, hnone⟩ := of_decide_eq_true hrun
  have hhead : b.Head 0 13 := .program hform (Nodes.prologueEnd_iff.2 hend)
  have hrs : ∀ r ∈ [Request.temporary 7 (some 2) "$D"], r.Known b ∧ r.IsRelease = false :=
    fun r hr => List.mem_singleton.1 hr ▸ ⟨hknown, rfl⟩
  refine ⟨t, b, out, hparse, hb, hout, heq, hhead,
    ((heads_kept_iff (u := ⟨"", strictFunction, .ofTree t, {}⟩) hparse rfl hb hrs hout).1 hhead
      (by decide)).2 ?_⟩
  rintro ⟨e, he, x, hx, hp⟩
  refine hnone e he x ?_ hx hp
  by_contra hlt
  rw [Scopes.declaration?, get?_eq_none (Nat.le_of_not_lt hlt), Option.bind_none] at hx
  cases hx

end Session

end LoopClosure
