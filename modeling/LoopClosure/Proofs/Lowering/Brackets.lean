import Mathlib.Data.List.Flatten
import LoopClosure.Proofs.Lowering.Applied
import LoopClosure.Proofs.Lowering.Prologue

/-!
# Brackets

A lowering puts brackets around the body of a wrapped loop, which becomes a function that is called,
around a `return` with a value, which becomes a block, and around a declaration that loses its
keyword and begins with an object pattern.

- `Lowering.Brackets l k s o c`: these edits are the brackets of the node `s`. The nodes that have
  some are those of `Lowering.IsBracketed` (`isBracketed_iff`).
- `Edit.StandIn`, `Edit.StandAround`: where brackets stand, told by a statement. Other brackets in
  the statement come between those around it.
- `Nested.pair_sublist_innerFirst`: of two bodies the inner one is written first, which tells the
  brackets of bodies that end at one offset apart.

In the output brackets nest as what they stand around (`compile_brackets`).
-/

namespace LoopClosure

open Syntax Syntax.Nodes Text

/-! ## Statements in sealed nodes -/

namespace Syntax

theorem Form.isStatement_of_hasKeyword {α : Type} {f : Form α} (h : f.hasKeyword = true) :
    f.isStatement = true := by
  cases f <;> first | rfl | cases h

theorem Form.isLoop_of_isSealed {α : Type} {f : Form α} (h : f.isSealed = true) :
    f.isLoop = false := by
  cases f <;> first | rfl | cases h

namespace Nodes

variable {ns : Nodes} {b s : NodeId} {form : Form NodeId} {n : Node}

/-- A statement that a keyword begins, in a sealed node, ends in front of the end of a child. -/
theorem WellFormed.exists_child_behind (hns : ns.WellFormed) (hb : ns.form? b = some form)
    (hsealed : form.isSealed = true) (hin : ns.Inside b s) (hne : b ≠ s)
    (hn : ns.get? s = some n) (hk : n.form.hasKeyword = true) :
    ∃ c m, ns.parent? c = some b ∧ ns.get? c = some m ∧ n.stop < m.stop := by
  obtain ⟨depth, hd⟩ := hns.shallow
  have hs := hd.statement (form?_of_get? hn) (Form.isStatement_of_hasKeyword hk)
  obtain ⟨f, k, form', hbf, hf, hbody, hfk, hks⟩ := hd.exists_function hns hb hsealed hin hne hs
  obtain ⟨statements, hblock⟩ := hns.block hf hbody
  have hbk := hbf.trans hfk
  obtain ⟨block, hget, hform⟩ := Option.map_eq_some_iff.1 hblock
  have hbk' : b ≠ k := by
    rintro rfl
    cases hb.symm.trans hblock
    cases hsealed
  have hks' : k ≠ s := by
    rintro rfl
    cases hn.symm.trans hget
    rw [hform] at hk
    cases hk
  obtain ⟨c, hc, hck⟩ := hbk.eq_or_child.resolve_left hbk'
  obtain ⟨d, hdk, hds⟩ := hks.eq_or_child.resolve_left hks'
  obtain ⟨m, hm⟩ := exists_get?_of_parent?_eq_some hc
  obtain ⟨i, hi⟩ := exists_get?_of_parent?_eq_some hdk
  have hmargin := (hns.margins hdk hi hget).2
  have hroom := hns.room hget
  have hinner := (hds.within hns hi hn).2
  have houter := (hck.within hns hm hget).2
  rw [hform] at hmargin hroom
  simp only [Form.lead, Form.trail] at hmargin hroom
  exact ⟨c, m, hc, hm, by omega⟩

/-- The first of the declarators declares an object pattern. -/
def BeginsWithPattern (ns : Nodes) (ds : List NodeId) : Prop :=
  ∃ d target init properties, ds.head? = some d ∧ ns.form? d = some (.declarator target init) ∧
    ns.form? target = some (.objectPattern properties)

end Nodes

end Syntax

/-! ## The brackets -/

/-- What brackets stand around. -/
inductive Construct where
  /-- The body of a wrapped loop. -/
  | body
  /-- A `return` with a value. -/
  | returns
  /-- A declaration that loses its keyword and begins with an object pattern. -/
  | pattern
deriving DecidableEq, Repr

/-- The construct `a` lies in the construct `b`. One that is itself a body lies in the body. -/
def Syntax.Nodes.Encloses (ns : Nodes) (k' : Construct) (b : NodeId) (k : Construct)
    (a : NodeId) : Prop :=
  ns.Inside b a ∧ (b = a → k' = .body ∧ k ≠ .body)

namespace Lowering

/-- What stands for the keyword of a declaration that begins with an object pattern. -/
def openPattern (ns : Nodes) (s : NodeId) (start : Nat) : Edit :=
  ⟨.replace, start, start + 3, (if varPlace ns s = .listed then ";" else "") ++ "(", true⟩

/-- What stands behind the last part of such a declaration. -/
def closePattern (stop : Nat) : Edit := ⟨.insertAfter, stop, stop, ")", true⟩

/-- The nodes that brackets stand around. -/
inductive IsBracketed (l : Lowering) : Construct → NodeId → Prop where
  | body {i : Nat} {w : Wrap} (hw : l.wraps[i]? = some w) : IsBracketed l .body w.body
  | returns {i : Nat} {s a : NodeId} (hs : s ∈ l.sitesOf i .returns)
    (hf : l.nodes.form? s = some (.returns (some a))) : IsBracketed l .returns s
  | pattern {i : Nat} {s : NodeId} {ds : List NodeId} (hs : s ∈ l.sitesOf i .var)
    (hf : l.nodes.form? s = some (.bindings .var ds)) (hp : l.nodes.BeginsWithPattern ds)
    (hplace : varPlace l.nodes s ≠ .header) : IsBracketed l .pattern s

/-- The brackets of a node, the opening one and the closing one. -/
inductive Brackets (l : Lowering) : Construct → NodeId → Edit → Edit → Prop where
  | body {i : Nat} {w : Wrap} {n : Node} (hw : l.wraps[i]? = some w)
    (hn : l.nodes.get? w.body = some n) :
    Brackets l .body w.body (w.callStart n (l.declaredNames i) (l.resultName i))
      (w.callEnd n (l.exit i).checks)
  | returns {i start stop : Nat} {s a : NodeId} {parent : Option NodeId} {m : Node} {flag : String}
    (hs : s ∈ l.sitesOf i .returns)
    (hn : l.nodes.get? s = some ⟨start, stop, .returns (some a), parent⟩)
    (ha : l.nodes.get? a = some m)
    (hflag : l.draft.names.permanent? (Relay.ofArgument m.form).flagKey = some flag) :
    Brackets l .returns s ⟨.replace, start, m.start, "\x7b" ++ flag ++ " = true;return ", true⟩
      ⟨.insertAfter, stop, stop, "\x7d", true⟩
  | pattern {i start stop : Nat} {s z : NodeId} {ds : List NodeId} {parent : Option NodeId}
    {m : Node} (hs : s ∈ l.sitesOf i .var)
    (hn : l.nodes.get? s = some ⟨start, stop, .bindings .var ds, parent⟩)
    (hp : l.nodes.BeginsWithPattern ds) (hplace : varPlace l.nodes s ≠ .header)
    (hz : ds.getLast? = some z) (hm : l.nodes.get? z = some m) :
    Brackets l .pattern s (openPattern l.nodes s start) (closePattern m.stop)

variable {l l' : Lowering} {s : NodeId} {i j : Nat}

/-! ## Declarations -/

/-- A declaration that begins with an object pattern gets brackets. -/
theorem made_stripVar {start stop : Nat} {z : NodeId} {ds : List NodeId} {parent : Option NodeId}
    {m : Node} (root : Nat) (hns : l.nodes.WellFormed)
    (hn : l.nodes.get? s = some ⟨start, stop, .bindings .var ds, parent⟩)
    (hp : l.nodes.BeginsWithPattern ds) (hplace : varPlace l.nodes s ≠ .header)
    (hz : ds.getLast? = some z) (hm : l.nodes.get? z = some m) :
    (stripVar root l s).made =
      l.made ++ [openPattern l.nodes s start, closePattern m.stop] := by
  obtain ⟨d, target, init, properties, hd, hdf, htarget⟩ := hp
  obtain ⟨⟨dstart, dstop, dform, dparent⟩, hdn, rfl⟩ := Option.map_eq_some_iff.1 hdf
  obtain ⟨target', init', hzf⟩ := hns.declarator
    (parent?_of_form? hns (form?_of_get? hn) (List.mem_of_getLast? hz)) (form?_of_get? hn)
  obtain ⟨start', zstop, form, parent'⟩ := m
  obtain rfl : form = .declarator target' init' :=
    Option.some.inj ((form?_of_get? hm).symm.trans hzf)
  unfold stripVar
  rw [hn]
  dsimp -zeta only
  extract_lets targets l₁ keywordEnd place instead isPattern last
  have hhead : targets.head? = some (target, dstop) := by
    obtain ⟨ds', rfl⟩ := List.head?_eq_some_iff.1 hd
    simp only [targets, List.filterMap_cons, hdn, List.head?_cons]
  have hlast : targets.getLast? = some (target', zstop) := by
    obtain ⟨ds', rfl⟩ := List.getLast?_eq_some_iff.1 hz
    simp [targets, List.filterMap_append, hm]
  have hpattern : isPattern = true := by
    simp only [isPattern, hhead, Option.bind_some]
    rw [show l₁.nodes = l.nodes from rfl, htarget]
  rw [if_pos (by simp [hpattern]; exact hplace), made_insertAfter, made_replace, List.append_assoc]
  simp only [last, hlast]
  rfl

/-- Each declaration in a body loses its keyword in one of the steps. -/
theorem adaptBody_exists_stripVar {w : Wrap} (hw : l.wraps[i]? = some w)
    (h : adaptBody l i = .ok l') (hs : s ∈ l.sitesOf i .var) :
    ∃ t root, t.nodes = l.nodes ∧ Writes (fun _ => True) (stripVar root t s) l' := by
  obtain ⟨l₁, l₂, l₃, l₄, h₁, h₂, h₃, h₄, rfl⟩ := adaptBody_rounds hw h
  have hadv₁ := (Records.foldlM_nothing adaptJump_records h₁).toAdvances
  have hadv₂ := (Records.foldlM_nothing adaptReturn_records h₂).toAdvances
  have hadv₄ := (adaptAlias_records h₃).toAdvances.trans (adaptAlias_records h₄).toAdvances
  obtain ⟨t, ht, ht'⟩ := foldl_exists_step (R := Writes fun _ => True) (s := l₄) Writes.refl
    Writes.trans hs fun t x =>
      ((stripVar_quiet (l₄.outermost i) t x).toWrites.mono fun _ _ => trivial)
  exact ⟨t, _, ht.nodes.trans ((hadv₁.trans hadv₂).trans hadv₄).nodes, ht'⟩

theorem finish_exists_stripVar (hsize : l.exits.size = l.wraps.size) (h : l.finish = .ok l')
    (hs : s ∈ l.sitesOf i .var) :
    ∃ t root, t.nodes = l.nodes ∧ ∀ e ∈ (stripVar root t s).made, e ∈ l'.made := by
  obtain ⟨w, hw, -⟩ := mem_sitesOf hs
  obtain ⟨l₁, l₂, h₁, -, -, -, hw₂, hw₃⟩ := finish_cases hsize h
  obtain ⟨t, t', ht, hstep, ht'⟩ := foldlM_exists_step (R := Writes fun _ => True) Writes.refl
    Writes.trans (mem_inSourceOrder.2 (Array.getElem?_eq_some_iff.1 hw).1)
    (fun _ _ _ _ _ hstep => (adaptBody_adds hstep).toWrites.mono fun _ _ => trivial) h₁
  obtain ⟨u, root, hu, hu'⟩ := adaptBody_exists_stripVar (ht.wraps ▸ hw) hstep (ht.sitesOf i _ ▸ hs)
  exact ⟨u, root, hu.trans ht.nodes, fun e he =>
    hw₃.mem_edits (hw₂.mem_edits (ht'.mem_edits (hu'.mem_edits he)))⟩

/-! ## Calls -/

/-- The calls are written last, inner bodies first. -/
theorem finish_exists_made (hsize : l.exits.size = l.wraps.size) (h : l.finish = .ok l') :
    ∃ es, l'.made = es ++ l'.innerFirst.flatMap l'.callEdits := by
  obtain ⟨l₁, l₂, -, -, h₃, -⟩ := finish_cases hsize h
  rw [(finish_keeps hsize h).innerFirst]
  exact ⟨_, writeCalls_edits h₃⟩

/-- Of two bodies the inner one comes first. -/
theorem Nested.pair_sublist_innerFirst (hn : l.Nested) {v w : Wrap} (hi : l.wraps[i]? = some v)
    (hj : l.wraps[j]? = some w) (hne : i ≠ j) (hin : l.nodes.Inside w.body v.body) :
    [i, j].Sublist l.innerFirst := by
  have hmem {k : Nat} {u : Wrap} (hk : l.wraps[k]? = some u) : [k].Sublist l.innerFirst :=
    List.singleton_sublist.2 (mem_innerFirst.2 (Array.getElem?_eq_some_iff.1 hk).1)
  refine append_sublist_of_pairwise (fun k => by simp) l.pairwise_bodyLength (hmem hi) (hmem hj)
    fun x hx y hy => ?_
  rw [List.mem_singleton.1 hx, List.mem_singleton.1 hy]
  exact decide_eq_false (Nat.not_le_of_lt (hn.bodyLength_lt hi hj hne hin))

end Lowering

/-! ## Where brackets stand -/

namespace Edit

/-- The edits stand in the statement. One at its start is a replacement. -/
structure StandIn (o c : Edit) (n : Node) : Prop where
  opening : n.start < o.start ∨ n.start = o.start ∧ o.kind = .replace
  closing : c.start ≤ n.stop

/-- The edits stand around the statement. At its start or end they are insertions. -/
structure StandAround (o c : Edit) (n : Node) : Prop where
  opening : o.start < n.start ∨ o.start = n.start ∧ o.kind = .insert
  closing : n.stop < c.start ∨ n.stop = c.start ∧ c.kind = .insert

variable {o c o' c' : Edit} {n : Node}

theorem precedes_of_insert (ho : o.kind = .insert) (hc : c.kind = .insert)
    (hle : o.start ≤ c.start) : o.precedes c = true := by
  simp only [precedes, ho, hc, Bool.or_eq_true, Bool.and_eq_true, decide_eq_true_eq]
  omega

theorem StandAround.ahead (h' : o'.StandAround c' n) (h : o.StandIn c n) : o'.Ahead o := by
  have hopening := h.opening
  rcases h'.opening with hlt | ⟨heq, hinsert⟩
  · left
    omega
  · rcases hopening with hlt | ⟨heq', hreplace⟩
    · left
      omega
    · right
      rw [hinsert, hreplace]
      exact ⟨heq.trans heq', by decide⟩

/-- The closing edits are in order, unless both are plain insertions. -/
theorem StandIn.ahead (h : o.StandIn c n) (h' : o'.StandAround c' n)
    (hkinds : c.kind = .insertAfter ∨ c.kind = .insert ∧ c'.kind = .insertAfter) : c.Ahead c' := by
  have hclosing := h.closing
  rcases h'.closing with hlt | ⟨heq, hinsert⟩
  · left
    omega
  · rcases hkinds with hafter | ⟨-, hafter⟩
    · rcases Nat.lt_or_eq_of_le (heq ▸ hclosing) with hlt | heq'
      · exact .inl hlt
      · exact .inr ⟨heq', by rw [hafter, hinsert]; decide⟩
    · rw [hinsert] at hafter
      cases hafter

end Edit

namespace Lowering

variable {l : Lowering} {source : List Char} {options : Options} {k : Construct} {s : NodeId}
  {o c : Edit} {i : Nat} {n : Node}

theorem Brackets.closing_kind (h : l.Brackets k s o c) :
    c.kind = if k = .body then .insert else .insertAfter := by
  cases h with
  | body => exact Wrap.callEnd_kind
  | _ => rfl

theorem Brackets.isSealed (h : l.Brackets k s o c) (hk : k ≠ .body) :
    ∃ form, l.nodes.form? s = some form ∧ form.isSealed = true ∧ form.hasKeyword = true := by
  cases h with
  | body => exact absurd rfl hk
  | returns _ hn => exact ⟨_, form?_of_get? hn, rfl, rfl⟩
  | pattern _ hn => exact ⟨_, form?_of_get? hn, rfl, rfl⟩

namespace Account

variable (ha : l.Account source options)
include ha

/-- The brackets of a body stand around the statements there. -/
theorem call_standAround {w : Wrap} {m : Node} (hw : l.wraps[i]? = some w)
    (hm : l.nodes.get? w.body = some m) (declared checks : List String) (value : Option String)
    (hin : l.nodes.Inside w.body s) (hn : l.nodes.get? s = some n)
    (hk : n.form.hasKeyword = true) :
    (w.callStart m declared value).StandAround (w.callEnd m checks) n := by
  have hns := ha.nested.nodes
  have hplaces : (w.callStart m declared value).start ≤ n.start ∧
      n.stop ≤ (w.callEnd m checks).start := by
    rw [Wrap.callStart_start, Wrap.callEnd_start]
    split
    · next hblock =>
      -- A statement that a keyword begins is no block, so it lies in a child of the body.
      obtain ⟨statements, hform⟩ := ha.blocks hw hblock
      have hmform : m.form = .block statements :=
        Option.some.inj ((form?_of_get? hm).symm.trans hform)
      have hne : w.body ≠ s := by
        intro heq
        cases hm.symm.trans (heq ▸ hn)
        rw [hmform] at hk
        cases hk
      obtain ⟨d, hd, hds⟩ := hin.eq_or_child.resolve_left hne
      obtain ⟨e, he⟩ := exists_get?_of_parent?_eq_some hd
      have hmargins := hns.margins hd he hm
      have hwithin := hds.within hns he hn
      rw [hmform] at hmargins
      simp only [Form.lead, Form.trail] at hmargins
      omega
    · exact hin.within hns hm hn
  refine ⟨?_, ?_⟩
  · rcases Nat.lt_or_eq_of_le hplaces.1 with hlt | heq
    · exact .inl hlt
    · exact .inr ⟨heq, Wrap.callStart_kind⟩
  · rcases Nat.lt_or_eq_of_le hplaces.2 with hlt | heq
    · exact .inl hlt
    · exact .inr ⟨heq, Wrap.callEnd_kind⟩

theorem exists_returnFlag {argument : NodeId} {m : Node} (hs : s ∈ l.sitesOf i .returns)
    (hf : l.nodes.form? s = some (.returns (some argument))) (hm : l.nodes.get? argument = some m) :
    ∃ flag, l.draft.names.permanent? (Relay.ofArgument m.form).flagKey = some flag := by
  obtain ⟨w, hw, -⟩ := mem_sitesOf hs
  have hi := (Array.getElem?_eq_some_iff.1 hw).1
  refine ha.exists_flag hi ((ha.mem_relays_iff hi).2 ⟨s, .returns hs ?_⟩)
  simp [returnRelay?, hf, hm]

/-- These are the nodes with brackets. -/
theorem isBracketed_iff : l.IsBracketed k s ↔ ∃ o c, l.Brackets k s o c := by
  have hns := ha.nested.nodes
  have hget {form : Form NodeId} (hf : l.nodes.form? s = some form) :
      ∃ start stop parent, l.nodes.get? s = some ⟨start, stop, form, parent⟩ := by
    obtain ⟨⟨start, stop, form', parent⟩, hn, rfl⟩ := Option.map_eq_some_iff.1 hf
    exact ⟨start, stop, parent, hn⟩
  constructor
  · intro h
    cases h with
    | body hw =>
      obtain ⟨n, hn⟩ := exists_get?_of_parent?_eq_some (ha.nested.wraps.parent?_body hns hw)
      exact ⟨_, _, .body hw hn⟩
    | @returns i _ argument hs hf =>
      have hmem : argument ∈ (Form.returns (some argument)).children := List.mem_singleton_self _
      obtain ⟨start, stop, parent, hn⟩ := hget hf
      obtain ⟨m, hm⟩ := exists_get?_of_parent?_eq_some (parent?_of_form? hns hf hmem)
      obtain ⟨flag, hflag⟩ := ha.exists_returnFlag hs hf hm
      exact ⟨_, _, .returns hs hn hm hflag⟩
    | pattern hs hf hp hplace =>
      obtain ⟨start, stop, parent, hn⟩ := hget hf
      obtain ⟨d, -, -, -, hd, -⟩ := id hp
      obtain ⟨z, hz⟩ := Option.isSome_iff_exists.1
        (List.getLast?_isSome.2 (List.ne_nil_of_mem (List.mem_of_head? hd)))
      obtain ⟨m, hm⟩ := exists_get?_of_parent?_eq_some
        (parent?_of_form? hns hf (List.mem_of_getLast? hz))
      exact ⟨_, _, .pattern hs hn hp hplace hz hm⟩
  · rintro ⟨o, c, hw | ⟨hs, hn⟩ | ⟨hs, hn, hp, hplace⟩⟩
    · exact .body hw
    · exact .returns hs (form?_of_get? hn)
    · exact .pattern hs (form?_of_get? hn) hp hplace

end Account

end Lowering

/-! ## The lowering of a source -/

section Source

variable {file : String} {source : List Char} {options : Options} {l : Lowering} {k k' : Construct}
  {a b s : NodeId} {o c o' c' : Edit} {n : Node} (h : lowerSource file source options = .ok l)

include h

open Lowering

/-- The last part of a declaration ends behind the others. -/
theorem stop_le_getLast? {z d : NodeId} {keyword : VarKeyword} {ds : List NodeId} {m e : Node}
    (hf : l.nodes.form? s = some (.bindings keyword ds)) (hz : ds.getLast? = some z)
    (hm : l.nodes.get? z = some m) (hd : l.nodes.parent? d = some s)
    (he : l.nodes.get? d = some e) : e.stop ≤ m.stop := by
  have hns := (account_of_lowerSource h).nested.nodes
  obtain ⟨-, t, hparse, hnodes⟩ := outcome_of_lowerSource h
  obtain ⟨ds', rfl⟩ := List.getLast?_eq_some_iff.1 hz
  have hmem := hns.parent_iff.1 hd
  rw [children_of_form? hf, Form.children] at hmem
  rcases List.mem_append.1 hmem with hmem | hmem
  · have hpairwise : (ds' ++ [z]).Pairwise l.nodes.Before := by
      rw [hnodes] at hf ⊢
      exact pairwise_children (Grammar.parse_wellFormed hparse) hf rfl
    have hbefore := (List.pairwise_append.1 hpairwise).2.2 d hmem z List.mem_cons_self e m he hm
    exact Nat.le_trans hbefore (hns.start_le_stop hm)
  · obtain rfl := List.mem_singleton.1 hmem
    rw [Option.some.inj (he.symm.trans hm)]

/-- The brackets of a `return` or a declaration begin where it does, and end behind its parts. -/
theorem brackets_of_site (hs : l.Brackets k s o c) (hk : k ≠ .body) (hn : l.nodes.get? s = some n) :
    o.start = n.start ∧ o.kind = .replace ∧ n.start < c.start ∧ c.start ≤ n.stop ∧
      ∀ d m, l.nodes.parent? d = some s → l.nodes.get? d = some m → m.stop ≤ c.start := by
  have hns := (account_of_lowerSource h).nested.nodes
  have hchild {d : NodeId} {m : Node} (hd : l.nodes.parent? d = some s)
      (hm : l.nodes.get? d = some m) : n.start < m.stop ∧ m.stop ≤ n.stop := by
    have hwithin := hns.within hd hm hn
    exact ⟨Nat.lt_of_le_of_lt hwithin.1 hwithin.2.1, hwithin.2.2⟩
  cases hs with
  | body => exact absurd rfl hk
  | returns _ hget =>
    cases hn.symm.trans hget
    exact ⟨rfl, rfl, hns.nonempty hget rfl, Nat.le_refl _, fun d m hd hm => (hchild hd hm).2⟩
  | pattern _ hget _ _ hz hm =>
    cases hn.symm.trans hget
    have hlast := hchild (parent?_of_form? hns (form?_of_get? hget) (List.mem_of_getLast? hz)) hm
    exact ⟨rfl, rfl, hlast.1, hlast.2, fun d e hd he =>
      stop_le_getLast? h (form?_of_get? hget) hz hm hd he⟩

/-- Brackets stand in a statement: those of a body in its loop, others in what they belong to. -/
theorem exists_standIn (hs : l.Brackets k a o c) : ∃ s n, l.nodes.get? s = some n ∧
    n.form.hasKeyword = true ∧ o.StandIn c n ∧
      (k = .body → l.nodes.parent? a = some s ∧ n.form.isLoop = true) ∧ (k ≠ .body → s = a) := by
  have ha := account_of_lowerSource h
  have hns := ha.nested.nodes
  by_cases hk : k = .body
  · subst hk
    cases hs with
    | @body i w m hw hm =>
      have hp := ha.nested.wraps.parent?_body hns hw
      obtain ⟨n, hn, hkeyword, hbody⟩ := ha.nested.wraps.get?_loop hw
      have hstart := hns.keyword hp hm hn hkeyword
      have hwithin := hns.within hp hm hn
      obtain ⟨hopen, -, hclose⟩ :=
        ha.callStart_le_callEnd hw hm (l.declaredNames i) (l.exit i).checks (l.resultName i)
      have hloop : n.form.isLoop = true := by rw [Form.isLoop, hbody]; rfl
      exact ⟨w.loop, n, hn, hkeyword, ⟨.inl (by omega), by omega⟩, fun _ => ⟨hp, hloop⟩,
        fun hne => absurd rfl hne⟩
  · obtain ⟨form, hf, -, hkeyword⟩ := hs.isSealed hk
    obtain ⟨n, hn, rfl⟩ := Option.map_eq_some_iff.1 hf
    obtain ⟨hstart, hkind, -, hstop, -⟩ := brackets_of_site h hs hk hn
    exact ⟨a, n, hn, hkeyword, ⟨.inr ⟨hstart.symm, hkind⟩, hstop⟩, fun heq => absurd heq hk,
      fun _ => rfl⟩

/-- Brackets stand around the statements inside. -/
theorem standAround (hb : l.Brackets k b o c) (hin : l.nodes.Inside b s)
    (hn : l.nodes.get? s = some n) (hkeyword : n.form.hasKeyword = true)
    (hne : k ≠ .body → b ≠ s) : o.StandAround c n := by
  have ha := account_of_lowerSource h
  have hns := ha.nested.nodes
  by_cases hk : k = .body
  · subst hk
    cases hb with
    | body hw hm => exact ha.call_standAround hw hm _ _ _ hin hn hkeyword
  · obtain ⟨form, hf, hsealed, hfront⟩ := hb.isSealed hk
    obtain ⟨m, hm, rfl⟩ := Option.map_eq_some_iff.1 hf
    obtain ⟨hstart, -, -, -, hbehind⟩ := brackets_of_site h hb hk hm
    obtain ⟨d, e, hd, he, hlt⟩ := hns.exists_child_behind hf hsealed hin (hne hk) hn hkeyword
    have hfirst := hin.start_lt hns (hne hk) hm hn hfront
    exact ⟨.inl (by omega), .inl (Nat.lt_of_lt_of_le hlt (hbehind d e hd he))⟩

/-! ## The order of brackets -/

theorem calls_sublist_active {is : List Nat} (his : is.Sublist l.innerFirst) :
    (is.flatMap l.callEdits).Sublist l.draft.edits.active := by
  have ha := account_of_lowerSource h
  obtain ⟨t, b, -, -, hl⟩ := lowerSource_eq_ok.1 h
  obtain ⟨⟨b', wraps⟩, -, hfinish⟩ := bind_eq_ok.1 hl
  obtain ⟨es, hes⟩ := finish_exists_made Array.size_replicate hfinish
  rw [ha.active_eq, hes]
  exact (his.flatMap _).trans (List.sublist_append_right _ _)

theorem mem_active_of_site (hs : l.Brackets k s o c) (hk : k ≠ .body) :
    o ∈ l.draft.edits.active ∧ c ∈ l.draft.edits.active := by
  have ha := account_of_lowerSource h
  rw [ha.active_eq]
  cases hs with
  | body => exact absurd rfl hk
  | returns hs hn harg hflag =>
    exact ⟨(ha.inserts _).2 ⟨_, _, .body (.returns hs (.front hn harg hflag))⟩,
      (ha.inserts _).2 ⟨_, _, .body (.returns hs (.back hn harg))⟩⟩
  | pattern hs hn hp hplace hz hm =>
    obtain ⟨t, b, -, -, hl⟩ := lowerSource_eq_ok.1 h
    obtain ⟨⟨b', wraps⟩, -, hfinish⟩ := bind_eq_ok.1 hl
    have hkeeps := finish_keeps Array.size_replicate hfinish
    rw [hkeeps.sitesOf] at hs
    obtain ⟨u, root, hu, hall⟩ := finish_exists_stripVar Array.size_replicate hfinish hs
    rw [← hkeeps.nodes] at hu
    have hmade := made_stripVar root (hu ▸ ha.nested.nodes) (hu ▸ hn) (hu ▸ hp) (hu ▸ hplace) hz
      (hu ▸ hm)
    rw [hmade, hu] at hall
    exact ⟨hall _ (by simp), hall _ (by simp)⟩

/-- Brackets are written, the opening one in front. -/
theorem pair_sublist_ordered (hs : l.Brackets k s o c) : [o, c].Sublist l.draft.edits.ordered := by
  have ha := account_of_lowerSource h
  by_cases hk : k = .body
  · subst hk
    cases hs with
    | @body i w m hw hm =>
      have hcalls := calls_sublist_active h
        (List.singleton_sublist.2 (mem_innerFirst.2 (Array.getElem?_eq_some_iff.1 hw).1))
      rw [List.flatMap_singleton, callEdits_eq hw hm] at hcalls
      have hle := (ha.callStart_le_callEnd hw hm (l.declaredNames i) (l.exit i).checks
        (l.resultName i)).2.1
      exact Edits.sublist_ordered hcalls
        (List.pairwise_pair.2 (Edit.precedes_of_insert Wrap.callStart_kind Wrap.callEnd_kind hle))
  · obtain ⟨form, hf, -⟩ := hs.isSealed hk
    obtain ⟨n, hn, -⟩ := Option.map_eq_some_iff.1 hf
    obtain ⟨hstart, -, hlt, -⟩ := brackets_of_site h hs hk hn
    obtain ⟨ho, hc⟩ := mem_active_of_site h hs hk
    have hmem {e : Edit} (he : e ∈ l.draft.edits.active) : [e].Sublist l.draft.edits.ordered :=
      List.singleton_sublist.2 (Edits.mem_ordered.2 he)
    have happend : ([] ++ o :: c :: []).Sublist l.draft.edits.ordered :=
      Edits.append_sublist_ordered (hmem ho) (hmem hc) (.inl (hstart ▸ hlt))
    exact happend

/-- Bodies that end at one offset have their closing brackets there, that of the inner one first. -/
theorem bodies_sublist_ordered (ha : l.Brackets .body a o c) (hb : l.Brackets .body b o' c')
    (hin : l.nodes.Inside b a) (hne : b ≠ a) (hle : c.start ≤ c'.start) :
    [o, c, c'].Sublist l.draft.edits.ordered := by
  have hacc := account_of_lowerSource h
  have hpairwise : [o, c, c'].Pairwise fun e e' => e.precedes e' = true := by
    have hopen := (Edits.pairwise_ordered _).sublist (pair_sublist_ordered h ha)
    have hfirst : o.precedes c = true := (List.pairwise_cons.1 hopen).1 c List.mem_cons_self
    have hlast : c.precedes c' = true :=
      Edit.precedes_of_insert ha.closing_kind hb.closing_kind hle
    simp [hfirst, hlast, Edits.precedes_trans _ _ _ hfirst hlast]
  cases ha with
  | @body i v m hv hm =>
    cases hb with
    | @body j w n hw hn =>
      have hij : i ≠ j := by
        rintro rfl
        cases hv.symm.trans hw
        exact hne rfl
      have hcalls := calls_sublist_active h (hacc.nested.pair_sublist_innerFirst hv hw hij hin)
      rw [List.flatMap_cons, List.flatMap_singleton, callEdits_eq hv hm,
        callEdits_eq hw hn] at hcalls
      -- Both bodies are written after all else, and the inner one is written first.
      refine Edits.sublist_ordered (.trans ?_ hcalls) hpairwise
      exact (List.Sublist.refl [_, _]).append (List.sublist_cons_self _ [_])

/-- Brackets nest. -/
theorem brackets_nest (ha : l.Brackets k a o c) (hb : l.Brackets k' b o' c')
    (hin : l.nodes.Encloses k' b k a) : [o', o, c, c'].Sublist l.draft.edits.ordered := by
  obtain ⟨s, n, hn, hkeyword, hstand, hbody, hself⟩ := exists_standIn h ha
  have hinside : l.nodes.Inside b s ∧ (k' ≠ .body → b ≠ s) := by
    by_cases hk : k = .body
    · obtain ⟨hp, hloop⟩ := hbody hk
      refine ⟨hin.1.parent (fun heq => (hin.2 heq).2 hk) hp, fun hk' heq => ?_⟩
      obtain ⟨form, hf, hsealed, -⟩ := hb.isSealed hk'
      rw [heq, form?_of_get? hn, Option.some.injEq] at hf
      rw [hf, Form.isLoop_of_isSealed hsealed] at hloop
      cases hloop
    · rw [hself hk]
      exact ⟨hin.1, fun hk' heq => hk' (hin.2 heq).1⟩
  have haround := standAround h hb hinside.1 hn hkeyword hinside.2
  have hmem {e : Edit} {es : List Edit} (hes : es.Sublist l.draft.edits.ordered) (he : e ∈ es) :
      [e].Sublist l.draft.edits.ordered := List.singleton_sublist.2 (hes.subset he)
  have hown := pair_sublist_ordered h ha
  have houter := pair_sublist_ordered h hb
  have hclose : [o, c, c'].Sublist l.draft.edits.ordered := by
    by_cases hk : k = .body ∧ k' = .body
    · obtain ⟨rfl, rfl⟩ := hk
      have hle : c.start ≤ c'.start := by
        have := hstand.closing
        have := haround.closing
        omega
      exact bodies_sublist_ordered h ha hb hin.1 (fun heq => (hin.2 heq).2 rfl) hle
    · have hkinds : c.kind = .insertAfter ∨ c.kind = .insert ∧ c'.kind = .insertAfter := by
        rw [ha.closing_kind, hb.closing_kind]
        by_cases hbody : k = .body
        · rw [if_pos hbody, if_neg fun hbody' => hk ⟨hbody, hbody'⟩]
          exact .inr ⟨rfl, rfl⟩
        · exact .inl (if_neg hbody)
      have happend : ([o] ++ c :: c' :: []).Sublist l.draft.edits.ordered :=
        Edits.append_sublist_ordered hown (hmem houter (by simp)) (hstand.ahead haround hkinds)
      exact happend
  have happend : ([] ++ o' :: o :: [c, c']).Sublist l.draft.edits.ordered :=
    Edits.append_sublist_ordered (hmem houter (by simp)) hclose (haround.ahead hstand)
  exact happend

end Source

/-- In the output the brackets of a node that lies in another one come between those of that. -/
theorem compile_brackets {file : String} {source : List Char} {options : Options} {out : Lowered}
    (h : compile file source options = .ok out) :
    ∃ l, Compiles file source options l out ∧
      out.code = l.draft.edits.segments.flatMap (Segment.text source) ∧
      (∀ k s, l.IsBracketed k s ↔ ∃ o c, l.Brackets k s o c) ∧
      (∀ k s o c, l.Brackets k s o c →
        [.edited o, .edited c].Sublist l.draft.edits.segments) ∧
      ∀ k a o c k' b o' c', l.Brackets k a o c → l.Brackets k' b o' c' →
        l.nodes.Encloses k' b k a →
          [.edited o', .edited o, .edited c, .edited c'].Sublist l.draft.edits.segments := by
  obtain ⟨l, hl, -⟩ := compile_outcome h
  exact ⟨l, hl, segments_of_lowerSource hl.lowered hl.code,
    fun k s => (account_of_lowerSource hl.lowered).isBracketed_iff,
    fun k s o c hs => Edits.sublist_segments (pair_sublist_ordered hl.lowered hs),
    fun k a o c k' b o' c' ha hb hin =>
      Edits.sublist_segments (brackets_nest hl.lowered ha hb hin)⟩

/-- Loops without braces around a `return` without a semicolon, so that all brackets close at one
offset. -/
def returnBody : List Char :=
  "function f() \x7b for (const x of xs) for (const y of ys) return g(() => x + y) \x7d".toList

theorem compile_brackets_returnBody : ∃ l out o₁ c₁ o₂ c₂ o₃ c₃,
    compile "" returnBody {} = .ok out ∧ Compiles "" returnBody {} l out ∧
    l.Brackets .body 9 o₁ c₁ ∧ l.Brackets .body 14 o₂ c₂ ∧ l.Brackets .returns 14 o₃ c₃ ∧
    c₁.start = 76 ∧ c₂.start = 76 ∧ c₃.start = 76 ∧
    [.edited o₁, .edited o₂, .edited c₂, .edited c₁].Sublist l.draft.edits.segments ∧
    [.edited o₂, .edited o₃, .edited c₃, .edited c₂].Sublist l.draft.edits.segments := by
  have hrun : okAnd (lowerSource "" returnBody {}) (fun l =>
      okAnd l.draft.apply (fun _ => true) && decide (l.wraps.toList.map (·.body) = [9, 14] ∧
        l.wraps.toList.map (·.blockBody) = [false, false] ∧ l.sitesOf 1 .returns = [14] ∧
        l.nodes.form? 14 = some (.returns (some 15)) ∧ l.nodes.parent? 14 = some 9 ∧
        (l.nodes.get? 9).map (·.stop) = some 76 ∧ (l.nodes.get? 14).map (·.stop) = some 76)) =
          true := by
    decide +kernel
  obtain ⟨l', out, hout, hl', hcheck⟩ := exists_compile hrun
  obtain ⟨l, hl, -, hall, -, hnest⟩ := compile_brackets hout
  obtain rfl : l = l' := Except.ok.inj (hl.lowered.symm.trans hl')
  obtain ⟨hbodies, hblocks, hsites, hreturn, hparent, hstop, hstop'⟩ := of_decide_eq_true hcheck
  have hbody {i : Nat} {s : NodeId} (hi : (l.wraps.toList.map (·.body))[i]? = some s) :
      l.IsBracketed .body s := by
    obtain ⟨w, hw, rfl⟩ := Option.map_eq_some_iff.1 (List.getElem?_map ▸ hi)
    exact .body (Array.getElem?_toList ▸ hw)
  obtain ⟨o₁, c₁, h₁⟩ := (hall .body 9).1 (hbody (i := 0) (by rw [hbodies]; rfl))
  obtain ⟨o₂, c₂, h₂⟩ := (hall .body 14).1 (hbody (i := 1) (by rw [hbodies]; rfl))
  have hsite : 14 ∈ l.sitesOf 1 .returns := hsites ▸ List.mem_singleton_self 14
  obtain ⟨o₃, c₃, h₃⟩ := (hall .returns 14).1 (.returns hsite hreturn)
  have hend {s : NodeId} {o c : Edit} (hs : l.Brackets .body s o c)
      (hn : (l.nodes.get? s).map (·.stop) = some 76) : c.start = 76 := by
    cases hs with
    | @body i w n hw hm =>
      have hblock : w.blockBody ∈ l.wraps.toList.map (·.blockBody) :=
        List.mem_map_of_mem (Array.mem_toList_iff.2 (Array.mem_of_getElem? hw))
      rw [hblocks] at hblock
      rw [hm] at hn
      rw [Wrap.callEnd_start, if_neg (by simpa using hblock)]
      exact Option.some.inj hn
  have hlast : c₃.start = 76 := by
    cases h₃ with
    | returns _ hn =>
      rw [hn] at hstop'
      exact Option.some.inj hstop'
  exact ⟨l, out, o₁, c₁, o₂, c₂, o₃, c₃, hout, hl, h₁, h₂, h₃, hend h₁ hstop, hend h₂ hstop', hlast,
    hnest _ _ _ _ _ _ _ _ h₂ h₁ ⟨.of_parent hparent, by decide⟩,
    hnest _ _ _ _ _ _ _ _ h₃ h₂ ⟨.refl, by decide⟩⟩

end LoopClosure
