import LoopClosure.Proofs.Lowering.Keywords
import LoopClosure.Proofs.Syntax.Spelling
import Mathlib.Data.List.TakeWhile

/-!
# Where edits lie

An edit that replaces something replaces the front of a node (`Nodes.IsCut`), and one that inserts
something stands at an end of a node, or at a brace of a block (`Nodes.Seam`). No seam lies within a
cut, and the cuts of two nodes lie apart (`IsCut.seam`, `IsCut.apart`).

Two nodes of a table may share their place: the key and the value of a property in short form. Only
the value is ever edited (`Nodes.IsPart`).
-/

namespace LoopClosure

open Syntax Syntax.Nodes Text

namespace Syntax.Nodes

/-- A `this` or a reference. -/
structure IsUse (ns : Nodes) (s : NodeId) (n : Node) : Prop where
  get : ns.get? s = some n
  form : n.form = .this ∨ (∃ name, n.form = .identifier name) ∧ Binding.isReference ns s = true

/-- What an edit can replace, or replace the front of. -/
structure IsMark (ns : Nodes) (s : NodeId) (n : Node) : Prop where
  get : ns.get? s = some n
  lt : n.start < n.stop
  form : ns.IsUse s n ∨ n.form.hasKeyword = true

/-- Neither the label of a jump nor the key of a property in short form. -/
structure IsPart (ns : Nodes) (x : NodeId) : Prop where
  notLabel : ∀ {p : NodeId} {kind : JumpKind} {label : Option NodeId}, ns.parent? x = some p →
    ns.form? p ≠ some (.jump kind label)
  notKey : ∀ s, ¬ns.Twins x s

/-- The front of the node `s` up to `stop`, which holds nothing of the nodes below but the label of
a jump. -/
structure IsCut (ns : Nodes) (s : NodeId) (n : Node) (stop : Nat) : Prop extends IsMark ns s n where
  start_lt : n.start < stop
  le : stop ≤ n.stop
  below : ∀ {c : NodeId} {m : Node}, ns.parent? c = some s → ns.get? c = some m →
    n.form.isJump = true ∨ stop ≤ m.start

/-- Where an edit can insert something. -/
inductive Seam (ns : Nodes) : Nat → Prop where
  | zero : Seam ns 0
  | start {x : NodeId} {m : Node} (hx : ns.IsPart x) (hm : ns.get? x = some m) : Seam ns m.start
  | stop {x : NodeId} {m : Node} (hx : ns.IsPart x) (hm : ns.get? x = some m) : Seam ns m.stop
  | opened {x : NodeId} {m : Node} {statements : List NodeId} (hm : ns.get? x = some m)
    (hf : m.form = .block statements) : Seam ns (m.start + 1)
  | closed {x : NodeId} {m : Node} {statements : List NodeId} (hm : ns.get? x = some m)
    (hf : m.form = .block statements) : Seam ns (m.stop - 1)

variable {ns : Nodes} {s s' x p : NodeId} {n n' m : Node} {stop stop' : Nat}

theorem form?_of_get? (h : ns.get? s = some n) : ns.form? s = some n.form := by
  rw [form?, h, Option.map_some]

/-! ## Parts -/

theorem IsPart.of_form (h : ns.WellFormed) (hx : ns.get? x = some m)
    (hname : ∀ name, m.form ≠ .identifier name) : ns.IsPart x where
  notLabel hp hf := by
    obtain ⟨name, hlabel⟩ := h.jump hp hf
    rw [identifier?_eq_none hx hname] at hlabel
    cases hlabel
  notKey s ht := by
    obtain ⟨m', -, name, hm, -, -, -, hform⟩ := h.twins ht
    cases hx.symm.trans hm
    exact hname name hform

theorem IsPart.of_parent {form : Form NodeId} (h : ns.WellFormed) (hp : ns.parent? x = some p)
    (hf : ns.form? p = some form) (hjump : ∀ kind label, form ≠ .jump kind label)
    (hprop : ∀ key value role traits, form ≠ .property key value role traits) : ns.IsPart x where
  notLabel hp' hf' := by
    cases hp.symm.trans hp'
    exact hjump _ _ (Option.some.inj (hf.symm.trans hf'))
  notKey := by
    rintro s ⟨q, value, role, traits, hq, -⟩
    cases hp.symm.trans (parent?_of_form? h hq List.mem_cons_self)
    exact hprop _ _ _ _ (Option.some.inj (hf.symm.trans hq))

/-- A reference is neither a label nor a key. -/
theorem IsUse.isPart (h : ns.WellFormed) (hs : ns.IsUse s n) : ns.IsPart s := by
  rcases hs.form with hthis | ⟨⟨name, hname⟩, href⟩
  · exact .of_form h hs.get fun name hname => by rw [hthis] at hname; cases hname
  · refine ⟨fun hp hf => ?_, fun s' ht => ?_⟩
    · simp [Binding.isReference, hp, hf] at href
    · obtain ⟨p, value, role, traits, hf, hshort, -⟩ := ht
      have hp := parent?_of_form? h hf List.mem_cons_self
      simp [Binding.isReference, hp, hf, h.short hf hshort] at href

theorem IsMark.isPart (h : ns.WellFormed) (hs : ns.IsMark s n) : ns.IsPart s := by
  rcases hs.form with huse | hk
  · exact huse.isPart h
  · exact .of_form h hs.get fun name hname => by rw [hname] at hk; cases hk

/-! ## Marks -/

theorem IsUse.children_eq (hs : ns.IsUse s n) : ns.children s = [] := by
  rcases hs.form with hf | ⟨⟨name, hf⟩, -⟩ <;> simp [children, hs.get, hf, Form.children]

theorem IsMark.not_block {statements : List NodeId} (hs : ns.IsMark s n) :
    n.form ≠ .block statements := by
  intro hblock
  rcases hs.form with huse | hk
  · rcases huse.form with hf | ⟨⟨name, hf⟩, -⟩ <;> cases hblock.symm.trans hf
  · rw [hblock] at hk
    cases hk

/-- A mark and a part lie apart unless one is inside the other. -/
theorem IsMark.laminar (h : ns.WellFormed) (hs : ns.IsMark s n) (hx : ns.IsPart x)
    (hm : ns.get? x = some m) :
    ns.Inside s x ∨ ns.Inside x s ∨ n.stop ≤ m.start ∨ m.stop ≤ n.start := by
  have hkey := (hs.isPart h).notKey
  rcases hs.form with huse | hk
  · rcases h.leaf hs.get huse.children_eq hm with hin | hle | hle | ⟨s', ht⟩ | ht
    · exact .inr (.inl hin)
    · exact .inr (.inr (.inl hle))
    · exact .inr (.inr (.inr hle))
    · exact absurd ht (hkey s')
    · exact absurd ht (hx.notKey s)
  · cases hname : ns.identifier? x with
    | none => exact h.laminar hs.get hm (identifier?_eq_none_of_hasKeyword hs.get hk) hname
    | some name =>
      have hform := identifier?_eq_some_iff.1 hname
      rw [form?_of_get? hm, Option.some.injEq] at hform
      have hleaf : ns.children x = [] := by simp [children, hm, hform, Form.children]
      rcases h.leaf hm hleaf hs.get with hin | hle | hle | ⟨s', ht⟩ | ht
      · exact .inl hin
      · exact .inr (.inr (.inr hle))
      · exact .inr (.inr (.inl hle))
      · exact absurd ht (hx.notKey s')
      · exact absurd ht (hkey x)

/-! ## Cuts -/

/-- A part other than the node of a cut lies behind the cut or in front of it, or around it with what
it begins and ends with outside. -/
theorem IsCut.place (h : ns.WellFormed) (hc : ns.IsCut s n stop) (hx : ns.IsPart x)
    (hm : ns.get? x = some m) (hne : x ≠ s) : stop ≤ m.start ∨ m.stop ≤ n.start ∨
      ns.Inside x s ∧ m.start + m.form.lead ≤ n.start ∧ n.stop ≤ m.stop - m.form.trail := by
  have hle := hc.le
  rcases hc.laminar h hx hm with hin | hin | hapart | hapart
  · rcases hin.eq_or_child with heq | ⟨c, hp, hcx⟩
    · exact absurd heq.symm hne
    · obtain ⟨o, ho⟩ := exists_get?_of_parent?_eq_some hp
      rcases hc.below hp ho with hjump | hbelow
      · -- Below a jump there is nothing but its label.
        cases hform : n.form with
        | jump kind label =>
          have hf := (form?_of_get? hc.get).trans (congrArg some hform)
          obtain ⟨name, hname⟩ := h.jump hp hf
          cases hcx.eq_of_identifier? h hname
          exact absurd hf (hx.notLabel hp)
        | _ => rw [hform] at hjump; cases hjump
      · exact .inl (Nat.le_trans hbelow (hcx.within h ho hm).1)
  · rcases hin.eq_or_child with heq | ⟨c, hp, hcs⟩
    · exact absurd heq hne
    · obtain ⟨o, ho⟩ := exists_get?_of_parent?_eq_some hp
      have hmargins := h.margins hp ho hm
      have hwithin := hcs.within h ho hc.get
      exact .inr (.inr ⟨hin, by omega, by omega⟩)
  · exact .inl (by omega)
  · exact .inr (.inl hapart)

/-- The cuts of two nodes lie apart. -/
theorem IsCut.apart (h : ns.WellFormed) (hc : ns.IsCut s n stop) (hc' : ns.IsCut s' n' stop')
    (hne : s ≠ s') : stop ≤ n'.start ∨ stop' ≤ n.start := by
  have hle := hc.le
  have hle' := hc'.le
  rcases hc.place h (hc'.isPart h) hc'.get hne.symm with hle | hle | ⟨hin, -⟩
  · exact .inl hle
  · exact .inr (by omega)
  · rcases hc'.place h (hc.isPart h) hc.get hne with hle | hle | ⟨hin', -⟩
    · exact .inr hle
    · exact .inl (by omega)
    · exact absurd (hin'.antisymm h hin) hne

/-- No seam lies within a cut. -/
theorem IsCut.seam (h : ns.WellFormed) (hc : ns.IsCut s n stop) {position : Nat}
    (hp : ns.Seam position) : position ≤ n.start ∨ stop ≤ position := by
  have hle := hc.le
  have hlt := hc.lt
  have hbrace {x : NodeId} {m : Node} {statements : List NodeId} (hm : ns.get? x = some m)
      (hf : m.form = .block statements) : m.start + 1 ≤ m.stop - 1 ∧ (stop ≤ m.start ∨
        m.stop ≤ n.start ∨ m.start + 1 ≤ n.start ∧ n.stop ≤ m.stop - 1) := by
    have hx : ns.IsPart x := .of_form h hm fun name hname => by rw [hf] at hname; cases hname
    have hne : x ≠ s := by
      rintro rfl
      cases hm.symm.trans hc.get
      exact hc.not_block hf
    have hroom := h.room hm
    have hplace := hc.place h hx hm hne
    rw [hf] at hroom hplace
    exact ⟨hroom, hplace.imp_right fun h => h.imp_right And.right⟩
  cases hp with
  | zero => exact .inl (Nat.zero_le _)
  | @start x m hx hm =>
    by_cases hne : x = s
    · subst hne
      cases hm.symm.trans hc.get
      exact .inl (Nat.le_refl _)
    · have hroom := h.room hm
      rcases hc.place h hx hm hne with hle | hle | ⟨-, hle, -⟩ <;> omega
  | @stop x m hx hm =>
    by_cases hne : x = s
    · subst hne
      cases hm.symm.trans hc.get
      exact .inr hle
    · have hroom := h.room hm
      rcases hc.place h hx hm hne with hle | hle | ⟨-, -, hle⟩ <;> omega
  | opened hm hf =>
    have := hbrace hm hf
    omega
  | closed hm hf =>
    have := hbrace hm hf
    omega

/-- Each mark begins with a character of its own. -/
theorem IsMark.isCut (h : ns.WellFormed) (hs : ns.IsMark s n) : ns.IsCut s n (n.start + 1) where
  toIsMark := hs
  start_lt := Nat.lt_succ_self _
  le := hs.lt
  below {c m} hp hm := by
    rcases hs.form with huse | hk
    · have hmem := h.parent_iff.1 hp
      rw [huse.children_eq] at hmem
      cases hmem
    · exact .inr (h.keyword hp hm hs.get hk)

/-- Two marks begin at different places. -/
theorem IsMark.start_ne (h : ns.WellFormed) (hs : ns.IsMark s n) (hs' : ns.IsMark s' n')
    (hne : s ≠ s') : n.start ≠ n'.start := by
  have := (hs.isCut h).apart h (hs'.isCut h) hne
  omega

/-! ## Characters -/

/-- Where a node begins or ends, or what its children stand between does. -/
inductive Edge (ns : Nodes) : Nat → Prop where
  | zero : Edge ns 0
  | start {x : NodeId} {m : Node} (hm : ns.get? x = some m) : Edge ns m.start
  | stop {x : NodeId} {m : Node} (hm : ns.get? x = some m) : Edge ns m.stop
  | opening {x : NodeId} {m : Node} (hm : ns.get? x = some m) : Edge ns (m.start + m.form.opening)
  | closing {x : NodeId} {m : Node} (hm : ns.get? x = some m) : Edge ns (m.stop - m.form.trail)

theorem Seam.edge {position : Nat} (hp : ns.Seam position) : ns.Edge position := by
  cases hp with
  | zero => exact .zero
  | start _ hm => exact .start hm
  | stop _ hm => exact .stop hm
  | opened hm hf =>
    have hopening := Edge.opening hm
    rwa [hf] at hopening
  | closed hm hf =>
    have hclosing := Edge.closing hm
    rwa [hf] at hclosing

/-- An edge lies between two characters if the nodes do. -/
theorem Edge.isBoundary {source : List Char} {position : Nat} (hp : ns.Edge position)
    (hedged : ∀ {id : NodeId} {n : Node}, ns.get? id = some n →
      n.form.EdgedAt source n.start n.stop) : isBoundary source position = true := by
  cases hp with
  | zero => exact isBoundary_zero
  | start hm => exact (hedged hm).front
  | stop hm => exact (hedged hm).back
  | opening hm => exact (hedged hm).opening
  | closing hm => exact (hedged hm).closing

end Syntax.Nodes

/-! ## Edits of a body -/

/-- The edit replaces the front of the node `s`. -/
structure Edit.Cuts (e : Edit) (ns : Nodes) (s : NodeId) : Prop where
  replaces : e.isReplacement = true
  cut : ∃ n, ns.IsCut s n e.stop ∧ e.start = n.start
  edge : ns.Edge e.stop

/-- The edit inserts something at a seam. -/
structure Edit.Joins (e : Edit) (ns : Nodes) : Prop where
  inserts : e.isReplacement = false
  point : e.stop = e.start
  seam : ns.Seam e.start

section Edits

variable {ns : Nodes} {names : Names} {site : NodeId} {n : Node} {e : Edit} {ps : List Piece}
  {a : Alias}

theorem Syntax.Nodes.IsMark.of_keyword (h : ns.WellFormed) (hn : ns.get? site = some n)
    (hk : n.form.hasKeyword = true) : ns.IsMark site n :=
  ⟨hn, h.nonempty hn hk, .inr hk⟩

/-- A whole mark that has nothing below, or is a jump, is cut out. -/
theorem Syntax.Nodes.IsMark.whole (hs : ns.IsMark site n) {text : String} {active : Bool}
    (hbelow : ∀ {c : NodeId} {m : Node}, ns.parent? c = some site → ns.get? c = some m →
      n.form.isJump = true) : Edit.Cuts ⟨.replace, n.start, n.stop, text, active⟩ ns site where
  replaces := rfl
  cut := ⟨n, ⟨hs, hs.lt, Nat.le_refl _, fun hp hm => .inl (hbelow hp hm)⟩, rfl⟩
  edge := .stop hs.get

theorem JumpEdit.cuts (h : ns.WellFormed) (he : JumpEdit ns names site e ps) : e.Cuts ns site := by
  cases he with
  | leaves hn => exact (IsMark.of_keyword h hn rfl).whole fun _ _ => rfl
  | raises hn => exact (IsMark.of_keyword h hn rfl).whole fun _ _ => rfl

/-- Of a `return` with an argument only the keyword is replaced. -/
theorem ReturnEdit.cuts_or_joins (h : ns.WellFormed) (he : ReturnEdit ns names site e ps) :
    e.Cuts ns site ∨ e.Joins ns := by
  cases he with
  | @raises _ _ argument _ _ hn ha =>
    refine .inl ((IsMark.of_keyword h hn rfl).whole fun {c m} hp hm => ?_)
    have hmem := h.parent_iff.1 hp
    obtain rfl : argument = some c := by simpa [children, hn, Form.children] using hmem
    cases ha.symm.trans hm
  | @front start stop argument _ a _ hn ha =>
    obtain ⟨c, rfl, ha⟩ := Option.bind_eq_some_iff.1 ha
    have hp : ns.parent? c = some site :=
      parent?_of_form? h (form?_of_get? hn) (by simp [Form.children])
    have hwithin := h.within hp ha hn
    refine .inl ⟨rfl, ⟨_, ⟨.of_keyword h hn rfl, h.keyword hp ha hn rfl,
      Nat.le_of_lt (Nat.lt_of_lt_of_le hwithin.2.1 hwithin.2.2), fun {c' m} hp' hm => ?_⟩, rfl⟩,
      .start ha⟩
    have hmem := h.parent_iff.1 hp'
    obtain rfl : c' = c := by simpa [children, hn, Form.children, eq_comm] using hmem
    cases ha.symm.trans hm
    exact .inr (Nat.le_refl _)
  | back hn =>
    exact .inr ⟨rfl, rfl, .stop (.of_form h hn fun _ hname => by cases hname) hn⟩

theorem AliasEdit.cuts (h : ns.WellFormed) (he : AliasEdit ns names a site e ps)
    (hs : ns.IsMark site n) (huse : ns.IsUse site n) : e.Cuts ns site := by
  cases he with
  | mk hn =>
    cases hn.symm.trans hs.get
    refine hs.whole fun hp _ => ?_
    have hmem := h.parent_iff.1 hp
    rw [huse.children_eq] at hmem
    cases hmem

theorem StripEdit.cuts_or_joins (h : ns.WellFormed) (he : StripEdit ns site e) :
    e.Cuts ns site ∨ e.Joins ns := by
  cases he with
  | keyword hn =>
    refine .inl ⟨rfl, ⟨_, ⟨.of_keyword h hn rfl, Nat.lt_add_of_pos_right (by decide), h.room hn,
      fun hp hm => .inr (h.margins hp hm hn).1⟩, rfl⟩, .opening hn⟩
  | @bracket x m _ hn hname =>
    refine .inr ⟨rfl, rfl, .stop (.of_form h hn fun name hform => ?_) hn⟩
    rw [identifier?_eq_some_iff.2 ((form?_of_get? hn).trans (congrArg some hform))] at hname
    cases hname

end Edits

/-! ## All edits -/

namespace Lowering

/-- Directives end where a statement ends. -/
theorem seam_directivesEnd {ns : Nodes} (h : ns.WellFormed) {start : Nat} (hstart : ns.Seam start)
    (statements : List NodeId) : ns.Seam (directivesEnd ns start statements) := by
  unfold directivesEnd
  split
  · next m hm =>
    obtain ⟨t, ht, hget⟩ := Option.bind_eq_some_iff.1 hm
    have hdirective := List.mem_takeWhile_imp (List.mem_of_getLast? ht)
    unfold isDirective at hdirective
    split at hdirective
    · next value hf =>
      rw [form?_of_get? hget, Option.some.injEq] at hf
      exact .stop (.of_form h hget fun name hname => by cases hf.symm.trans hname) hget
    · cases hdirective
  · exact hstart

/-- Declarations at the start of a scope stand at the start of the text, behind directives, or at
the start of the body of a function, behind its brace. -/
theorem seam_bodyStart {b : Bound} (h : b.nodes.WellFormed) (target : ScopeId) :
    b.nodes.Seam (bodyStart b target) := by
  unfold bodyStart
  cases hform : (b.scopes.node? target).bind b.nodes.form? with
  | none => exact .zero
  | some form =>
    cases form with
    | program statements => exact seam_directivesEnd h .zero statements
    | function place name params body traits =>
      obtain ⟨f, -, hf⟩ := Option.bind_eq_some_iff.1 hform
      have hp : b.nodes.parent? body = some f := parent?_of_form? h hf (by simp [Form.children])
      have hbodyPart : b.nodes.IsPart body :=
        .of_parent h hp hf (fun _ _ h => by cases h) fun _ _ _ _ h => by cases h
      cases hbody : b.nodes.get? body with
      | none =>
        simp only [hbody]
        exact .zero
      | some m =>
        obtain ⟨start, stop, bodyForm, parent⟩ := m
        cases bodyForm with
        | block statements =>
          simp only [hbody]
          exact seam_directivesEnd h (.opened hbody rfl) statements
        | _ =>
          simp only [hbody]
          exact .start hbodyPart hbody
    | _ => exact .zero

namespace Account

variable {source : List Char} {options : Options} {l : Lowering} {s p : NodeId} {e : Edit} {i : Nat}
  {w : Wrap} {kind : SiteKind} {ps : List Piece}

/-- What is not the root has a parent, so it is not empty. -/
theorem lt_of_get? (ha : l.Account source options) {n : Node} (hn : l.nodes.get? s = some n)
    (hform : ∀ statements comments, n.form ≠ .program statements comments) : n.start < n.stop := by
  have hns := ha.nested.nodes
  cases ha.root hn with
  | refl =>
    obtain ⟨statements, comments, hroot⟩ := ha.program
    rw [form?_of_get? hn, Option.some.injEq] at hroot
    exact absurd hroot (hform _ _)
  | up hp _ =>
    obtain ⟨o, ho⟩ := exists_get?_of_parent? hns hp
    exact (hns.within hp hn ho).2.1

/-- A keyword whose value is handed in is a use. -/
theorem isUse (ha : l.Account source options) {a : Alias} (ho : l.Occurs s a) :
    ∃ n, l.nodes.IsUse s n := by
  cases a with
  | this =>
    obtain ⟨n, hn, hform⟩ := Option.map_eq_some_iff.1 ho
    exact ⟨n, hn, .inl hform⟩
  | arguments =>
    obtain ⟨hf, hfree⟩ := ho
    obtain ⟨n, hn, hform⟩ := Option.map_eq_some_iff.1 hf
    rw [Bound.isFreeArguments, Bool.and_eq_true] at hfree
    exact ⟨n, hn, .inr ⟨⟨_, hform⟩, ha.references (List.contains_iff_mem.1 hfree.1)⟩⟩

theorem isMark_of_isUse (ha : l.Account source options) {n : Node} (hs : l.nodes.IsUse s n) :
    l.nodes.IsMark s n := by
  refine ⟨hs.get, ha.lt_of_get? hs.get fun statements comments hroot => ?_, .inl hs⟩
  rcases hs.form with hf | ⟨⟨name, hf⟩, -⟩ <;> cases hf.symm.trans hroot

theorem isCut_of_isUse (ha : l.Account source options) {n : Node} (hs : l.nodes.IsUse s n) :
    l.nodes.IsCut s n n.stop where
  toIsMark := ha.isMark_of_isUse hs
  start_lt := (ha.isMark_of_isUse hs).lt
  le := Nat.le_refl _
  below hp _ := by
    have hmem := ha.nested.nodes.parent_iff.1 hp
    rw [hs.children_eq] at hmem
    cases hmem

/-- What stands around the call of a body is inserted at its ends. -/
theorem call_joins (ha : l.Account source options) {body : Node} (hw : l.wraps[i]? = some w)
    (hb : l.nodes.get? w.body = some body) (declared : List String) (value : Option String)
    (checks : List String) :
    (w.callStart body declared value).Joins l.nodes ∧ (w.callEnd body checks).Joins l.nodes := by
  have hns := ha.nested.nodes
  obtain ⟨form, hf, hbody⟩ := ha.nested.wraps.loop hw
  have hpart : l.nodes.IsPart w.body := .of_parent hns (ha.nested.wraps.parent?_body hns hw) hf
    (fun _ _ h => by rw [h] at hbody; cases hbody) fun _ _ _ _ h => by rw [h] at hbody; cases hbody
  unfold Wrap.callStart Wrap.callEnd
  cases hblock : w.blockBody with
  | true =>
    obtain ⟨statements, hstatements⟩ := ha.blocks hw hblock
    have hform : body.form = .block statements :=
      Option.some.inj ((form?_of_get? hb).symm.trans hstatements)
    exact ⟨⟨rfl, rfl, .opened hb hform⟩, ⟨rfl, rfl, .closed hb hform⟩⟩
  | false => exact ⟨⟨rfl, rfl, .start hpart hb⟩, ⟨rfl, rfl, .stop hpart hb⟩⟩

/-- What stands around the call is inserted in the range of the body, the front of it first. -/
theorem callStart_le_callEnd (ha : l.Account source options) {m : Node} (hw : l.wraps[i]? = some w)
    (hm : l.nodes.get? w.body = some m) (declared checks : List String) (value : Option String) :
    m.start ≤ (w.callStart m declared value).start ∧
      (w.callStart m declared value).start ≤ (w.callEnd m checks).start ∧
      (w.callEnd m checks).start ≤ m.stop := by
  rw [Wrap.callStart_start, Wrap.callEnd_start]
  have hroom := ha.nested.nodes.room hm
  split
  · next hblock =>
    obtain ⟨statements, hform⟩ := ha.blocks hw hblock
    rw [Option.some.inj ((form?_of_get? hm).symm.trans hform)] at hroom
    simp only [Form.lead, Form.trail] at hroom
    omega
  · omega

/-- Each edit inserts something at a seam or replaces the front of a site. -/
theorem cuts_or_joins (ha : l.Account source options) (he : l.Inserts e p ps) :
    e.Joins l.nodes ∨ e.Cuts l.nodes p ∧ ∃ i kind, p ∈ l.sitesOf i kind := by
  have hns := ha.nested.nodes
  cases he with
  | body h =>
    cases h with
    | jump hs h => exact .inr ⟨h.cuts hns, _, _, hs⟩
    | returns hs h => exact (h.cuts_or_joins hns).symm.imp_right fun h => ⟨h, _, _, hs⟩
    | keyword a hs h =>
      obtain ⟨w, hw, hsite⟩ := mem_sitesOf hs
      obtain ⟨-, -, -, inArrow, form, hf, hkind, -⟩ := Bound.mem_sitesWithin hns hsite
      obtain ⟨n, huse⟩ := ha.isUse ((siteKind?_eq_iff hf).1 hkind)
      exact .inr ⟨h.cuts hns (ha.isMark_of_isUse huse) huse, _, _, hs⟩
    | init => exact .inl ⟨rfl, rfl, seam_bodyStart hns _⟩
  | strip hs _ h => exact (h.cuts_or_joins hns).symm.imp_right fun h => ⟨h, _, _, hs⟩
  | callStart hw hb => exact .inl (ha.call_joins hw hb _ _ []).1
  | callEnd hw hb => exact .inl (ha.call_joins hw hb [] none _).2

end Account

end Lowering

end LoopClosure
