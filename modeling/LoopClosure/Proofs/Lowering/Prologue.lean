import Mathlib.Data.List.TakeWhile
import LoopClosure.Lowering.Body
import LoopClosure.Proofs.Syntax.Nested

/-!
# The directives of a program or function

- `Nodes.PrologueEnd`: where the directives end that a list of statements begins with. This is what
  `directivesEnd` finds (`prologueEnd_iff`).
- `Nodes.EndsPrologue f position`: so they do in the body of the program or function `f`.
- `Nodes.Before`: the children of a node come one behind the other (`pairwise_children`), so that no
  other statement lies around the end of the directives (`EndsPrologue.apart`).
-/

namespace LoopClosure.Syntax.Nodes

open LoopClosure.Syntax.Tree Lowering

variable {ns : Nodes} {t : Tree} {c f s : NodeId} {start position : Nat} {statements : List NodeId}
  {m n : Node}

/-! ## Children in their order -/

/-- Where both are nodes, `c` ends before `d` begins. -/
def Before (ns : Nodes) (c d : NodeId) : Prop :=
  ∀ m n, ns.get? c = some m → ns.get? d = some n → m.stop ≤ n.start

/-- Subtrees that lie one after the other are numbered in that order. -/
theorem pairwise_siblingIds {id start stop : Nat} {ts : List Tree} (h : Spread start stop ts)
    (hget : ∀ pre u post, ts = pre ++ u :: post → ∀ n, ns.get? (id + sizes pre) = some n →
      n.start = u.start ∧ n.stop = u.stop) :
    (siblingIds id ts).Pairwise ns.Before := by
  induction ts generalizing id start with
  | nil => exact .nil
  | cons t ts ih =>
    obtain ⟨-, -, hrest⟩ := h
    have hnumber (pre : List Tree) : id + sizes (t :: pre) = id + t.size + sizes pre := by
      rw [sizes, Nat.add_assoc]
    refine .cons (fun c hc m n hm hn => ?_) (ih hrest fun pre u post hts n hn => ?_)
    · obtain ⟨pre, u, post, rfl, rfl⟩ := mem_siblingIds.1 hc
      obtain ⟨-, hstop⟩ := hget [] t _ rfl m (by simpa [sizes] using hm)
      obtain ⟨hstart, -⟩ := hget (t :: pre) u post rfl n (hnumber pre ▸ hn)
      rw [hstop, hstart]
      exact (hrest.of_mem (by simp)).1
    · exact hget (t :: pre) u post (hts ▸ rfl) n (hnumber pre ▸ hn)

/-- The children of a node lie one after the other, unless it is a property in short form. -/
theorem pairwise_children (ht : t.WellFormed) {form : Form NodeId}
    (hf : (ofTree t).form? f = some form) (hlong : form.isShort = false) :
    form.children.Pairwise (ofTree t).Before := by
  rw [← children_of_form? hf]
  obtain ⟨n, hn, rfl⟩ := Option.map_eq_some_iff.1 hf
  obtain ⟨p, u, hu, rfl⟩ := located_of_get? hn
  rw [children_ofTree ht hu]
  cases u with
  | node start stop form' ts =>
    have hplaced := (hu.wellFormed ht).placed
    cases hplaced with
    | spread _ h =>
      refine pairwise_siblingIds h ?_
      rintro pre u post rfl n hn
      rw [get?_ofTree hu.step, Option.some.injEq] at hn
      subst hn
      exact ⟨rfl, rfl⟩
    | short hform => exact absurd hform (Bool.eq_false_iff.1 hlong)

/-! ## Directives -/

/-- A directive is a statement that is a string. -/
def IsDirective (ns : Nodes) (s : NodeId) : Prop :=
  ∃ e raw, ns.form? s = some (.expression e) ∧ ns.form? e = some (.literal .string raw)

theorem isDirective_iff : isDirective ns s = true ↔ ns.IsDirective s := by
  unfold isDirective
  constructor
  · intro h
    split at h
    · next e hs =>
      split at h
      · next raw he => exact ⟨e, raw, hs, he⟩
      · cases h
    · cases h
  · rintro ⟨e, raw, hs, he⟩
    simp only [hs, he]

/-- A directive holds a literal and nothing else. -/
theorem IsDirective.inside (hns : ns.WellFormed) (hd : ns.IsDirective c) (hin : ns.Inside c s) :
    (∃ e, ns.form? s = some (.expression e)) ∨ ∃ raw, ns.form? s = some (.literal .string raw) := by
  obtain ⟨e, raw, hc, he⟩ := hd
  rcases hin.eq_or_child with rfl | ⟨d, hd, hin⟩
  · exact .inl ⟨e, hc⟩
  · obtain rfl : d = e := by
      have hmem := hns.parent_iff.1 hd
      rwa [children_of_form? hc, Form.children, List.mem_singleton] at hmem
    rcases hin.eq_or_child with rfl | ⟨x, hx, -⟩
    · exact .inr ⟨raw, he⟩
    · have hmem := hns.parent_iff.1 hx
      rw [children_of_form? he] at hmem
      cases hmem

/-- The directives that statements begin with end at a position: the first of them that is none
comes behind, and without directives it is `start`. -/
inductive PrologueEnd (ns : Nodes) : Nat → List NodeId → Nat → Prop where
  | here {start : Nat} {statements : List NodeId}
    (h : ∀ s, statements.head? = some s → ¬ns.IsDirective s) : PrologueEnd ns start statements start
  | behind {start position : Nat} {s : NodeId} {statements : List NodeId} {n : Node}
    (hs : ns.IsDirective s) (hn : ns.get? s = some n)
    (h : PrologueEnd ns n.stop statements position) : PrologueEnd ns start (s :: statements) position

theorem directivesEnd_cons_of_not (h : ¬ns.IsDirective s) :
    directivesEnd ns start (s :: statements) = start := by
  have hnot : isDirective ns s = false := Bool.eq_false_iff.2 (mt isDirective_iff.1 h)
  simp [directivesEnd, hnot]

theorem directivesEnd_cons (h : ns.IsDirective s) (hn : ns.get? s = some n) :
    directivesEnd ns start (s :: statements) = directivesEnd ns n.stop statements := by
  unfold directivesEnd
  rw [List.takeWhile_cons_of_pos (isDirective_iff.2 h), List.getLast?_cons]
  cases hlast : (statements.takeWhile (isDirective ns)).getLast? with
  | none => simp [hn]
  | some d =>
    have hd := List.mem_takeWhile_imp (List.mem_of_getLast? hlast)
    obtain ⟨e, raw, hform, -⟩ := isDirective_iff.1 hd
    obtain ⟨k, hk, -⟩ := Option.map_eq_some_iff.1 hform
    simp [hk]

theorem prologueEnd_directivesEnd :
    ns.PrologueEnd start statements (directivesEnd ns start statements) := by
  induction statements generalizing start with
  | nil => exact .here fun s hs => (nomatch hs)
  | cons s statements ih =>
    by_cases hs : ns.IsDirective s
    · obtain ⟨e, raw, hform, -⟩ := id hs
      obtain ⟨n, hn, -⟩ := Option.map_eq_some_iff.1 hform
      rw [directivesEnd_cons hs hn]
      exact .behind hs hn ih
    · rw [directivesEnd_cons_of_not hs]
      exact .here fun d hd => Option.some.inj hd ▸ hs

theorem prologueEnd_iff :
    ns.PrologueEnd start statements position ↔ position = directivesEnd ns start statements := by
  constructor
  · intro h
    induction h with
    | here h =>
      rename_i start statements
      cases statements with
      | nil => rfl
      | cons s statements => rw [directivesEnd_cons_of_not (h s rfl)]
    | behind hs hn _ ih => rw [directivesEnd_cons hs hn, ih]
  · rintro rfl
    exact prologueEnd_directivesEnd

theorem le_directivesEnd (h : ∀ c ∈ statements, ∀ n, ns.get? c = some n → start ≤ n.stop) :
    start ≤ directivesEnd ns start statements := by
  unfold directivesEnd
  split
  · next m hm =>
    obtain ⟨d, hd, hget⟩ := Option.bind_eq_some_iff.1 hm
    exact h d ((List.takeWhile_sublist _).subset (List.mem_of_getLast? hd)) m hget
  · exact Nat.le_refl _

theorem directivesEnd_le_of {limit : Nat} (hstart : start ≤ limit)
    (h : ∀ c ∈ statements, ∀ n, ns.get? c = some n → n.stop ≤ limit) :
    directivesEnd ns start statements ≤ limit := by
  unfold directivesEnd
  split
  · next m hm =>
    obtain ⟨d, hd, hget⟩ := Option.bind_eq_some_iff.1 hm
    exact h d ((List.takeWhile_sublist _).subset (List.mem_of_getLast? hd)) m hget
  · exact hstart

/-- A statement that is no directive stands behind the directives. -/
theorem directivesEnd_le (hp : statements.Pairwise ns.Before) (hc : c ∈ statements)
    (hnot : ¬ns.IsDirective c) (hn : ns.get? c = some n) (hstart : start ≤ n.start) :
    directivesEnd ns start statements ≤ n.start := by
  unfold directivesEnd
  split
  · next m hm =>
    obtain ⟨d, hd, hget⟩ := Option.bind_eq_some_iff.1 hm
    rw [← List.takeWhile_append_dropWhile (p := isDirective ns) (l := statements)] at hc hp
    have hrest : c ∈ statements.dropWhile (isDirective ns) :=
      (List.mem_append.1 hc).resolve_left fun htake =>
        hnot (isDirective_iff.1 (List.mem_takeWhile_imp htake))
    exact (List.pairwise_append.1 hp).2.2 d (List.mem_of_getLast? hd) c hrest m n hget hn
  · exact hstart

/-! ## Bodies -/

/-- A program, or a function with a block: what declarations can be put in. -/
def IsHost (ns : Nodes) (f : NodeId) : Prop :=
  (∃ statements comments, ns.form? f = some (.program statements comments)) ∨
    ∃ place name params body traits statements,
      ns.form? f = some (.function place name params body traits) ∧
        ns.form? body = some (.block statements)

/-- The directives of a program or of a function with a block end at a position. -/
inductive EndsPrologue (ns : Nodes) (f : NodeId) (position : Nat) : Prop where
  | program {statements : List NodeId} {comments : List Comment}
    (hf : ns.form? f = some (.program statements comments))
    (h : ns.PrologueEnd 0 statements position) : EndsPrologue ns f position
  | function {place : FunctionPlace} {name : Option NodeId} {params : List NodeId} {body : NodeId}
    {traits : FunctionTraits} {start stop : Nat} {statements : List NodeId} {parent : Option NodeId}
    (hf : ns.form? f = some (.function place name params body traits))
    (hbody : ns.get? body = some ⟨start, stop, .block statements, parent⟩)
    (h : ns.PrologueEnd (start + 1) statements position) : EndsPrologue ns f position

theorem start_le_directivesEnd {body : NodeId} {stop : Nat} {parent : Option NodeId}
    (hns : ns.WellFormed) (hbody : ns.get? body = some ⟨start, stop, .block statements, parent⟩) :
    start ≤ directivesEnd ns (start + 1) statements := by
  refine Nat.le_trans (Nat.le_succ start) (le_directivesEnd fun c hc n hn => ?_)
  have hblock : ns.form? body = some (.block statements) := by rw [form?, hbody, Option.map_some]
  have hparent := parent?_of_form? hns hblock hc
  have hmargin := (hns.margins hparent hn hbody).1
  have hwithin := (hns.within hparent hn hbody).2.1
  simp only [Form.lead] at hmargin
  omega

theorem directivesEnd_le_stop {body : NodeId} {stop : Nat} {parent : Option NodeId}
    (hns : ns.WellFormed) (hbody : ns.get? body = some ⟨start, stop, .block statements, parent⟩) :
    directivesEnd ns (start + 1) statements ≤ stop := by
  have hblock : ns.form? body = some (.block statements) := by rw [form?, hbody, Option.map_some]
  refine directivesEnd_le_of ?_ fun c hc n hn =>
    (hns.within (parent?_of_form? hns hblock hc) hn hbody).2.2
  have hroom := hns.room hbody
  simp only [Form.lead, Form.trail] at hroom
  omega

/-- The directives of a function end in it. -/
theorem EndsPrologue.within (hns : ns.WellFormed) (h : ns.EndsPrologue f position)
    (hm : ns.get? f = some m) (hroot : ∀ statements comments, m.form ≠ .program statements comments) :
    m.start ≤ position ∧ position ≤ m.stop := by
  cases h with
  | program hf =>
    rw [form?, hm, Option.map_some, Option.some.injEq] at hf
    exact absurd hf (hroot _ _)
  | function hf hbody h =>
    obtain rfl := prologueEnd_iff.1 h
    have hwithin := hns.within (parent?_of_form? hns hf (by simp [Form.children])) hbody hm
    exact ⟨Nat.le_trans hwithin.1 (start_le_directivesEnd hns hbody),
      Nat.le_trans (directivesEnd_le_stop hns hbody) hwithin.2.2⟩

section Bodies

variable (ht : t.WellFormed) (hb : ns = .ofTree t)
include ht hb

/-- What lies in statements, but in no directive, stands behind the directives. -/
theorem directivesEnd_le_of_inside {p : NodeId} {form : Form NodeId} (hf : ns.form? p = some form)
    (hchildren : form.children = statements) (hlong : form.isShort = false)
    (hm : ns.get? p = some m) (hstart : start ≤ m.start + form.lead) (hin : ns.Inside p s)
    (hne : p ≠ s) (hn : ns.get? s = some n) (hexpression : ∀ e, n.form ≠ .expression e)
    (hliteral : ∀ raw, n.form ≠ .literal .string raw) :
    directivesEnd ns start statements ≤ n.start := by
  have hns : ns.WellFormed := hb ▸ wellFormed_ofTree ht
  have hs : ns.form? s = some n.form := by rw [form?, hn, Option.map_some]
  obtain ⟨c, hc, hcs⟩ := hin.eq_or_child.resolve_left hne
  obtain ⟨k, hk⟩ := hcs.exists_get? hns hn
  have hmem := hns.parent_iff.1 hc
  rw [children_of_form? hf, hchildren] at hmem
  have hnot : ¬ns.IsDirective c := fun hd => by
    rcases hd.inside hns hcs with ⟨e, he⟩ | ⟨raw, he⟩
    · exact hexpression e (Option.some.inj (hs.symm.trans he))
    · exact hliteral raw (Option.some.inj (hs.symm.trans he))
  have hpairwise : statements.Pairwise ns.Before := by
    subst hb
    exact hchildren ▸ pairwise_children ht hf hlong
  have hform : m.form = form := by
    rw [form?, hm, Option.map_some] at hf
    exact Option.some.inj hf
  have hmargin := (hns.margins hc hk hm).1
  rw [hform] at hmargin
  exact Nat.le_trans (directivesEnd_le hpairwise hmem hnot hk (Nat.le_trans hstart hmargin))
    (hcs.within hns hk hn).1

/-- A loop or function in the program or function stands behind the directives or, as part of its
head, in front of them. -/
theorem EndsPrologue.apart (h : ns.EndsPrologue f position) (hin : ns.Inside f s) (hne : f ≠ s)
    (hn : ns.get? s = some n) (hform : n.form.isLoop = true ∨ n.form.isFunction = true) :
    position ≤ n.start ∨ n.stop ≤ position := by
  have hns : ns.WellFormed := hb ▸ wellFormed_ofTree ht
  have hexpression (e : NodeId) : n.form ≠ .expression e := fun heq => by
    rw [heq] at hform
    rcases hform with h | h <;> cases h
  have hliteral (raw : String) : n.form ≠ .literal .string raw := fun heq => by
    rw [heq] at hform
    rcases hform with h | h <;> cases h
  cases h with
  | program hf h =>
    obtain ⟨m, hm⟩ := hin.exists_get? hns hn
    obtain rfl := prologueEnd_iff.1 h
    exact .inl (directivesEnd_le_of_inside ht hb hf rfl rfl hm (Nat.zero_le _) hin hne hn
      hexpression hliteral)
  | @function place name params body traits start stop statements parent hf hbody h =>
    obtain rfl := prologueEnd_iff.1 h
    have hblock : ns.form? body = some (.block statements) := by rw [form?, hbody, Option.map_some]
    by_cases hinside : ns.Inside body s
    · have hbne : body ≠ s := by
        rintro rfl
        rw [form?, hn, Option.map_some, Option.some.injEq] at hblock
        rw [hblock] at hform
        rcases hform with h | h <;> cases h
      exact .inl (directivesEnd_le_of_inside ht hb hblock rfl rfl hbody (Nat.le_refl _) hinside hbne
        hn hexpression hliteral)
    · right
      obtain ⟨c, hc, hcs⟩ := hin.eq_or_child.resolve_left hne
      obtain ⟨k, hk⟩ := hcs.exists_get? hns hn
      have hmem := hns.parent_iff.1 hc
      rw [children_of_form? hf, Form.children] at hmem
      have hfront : c ∈ name.toList ++ params := (List.mem_append.1 hmem).resolve_right fun h =>
        hinside (List.mem_singleton.1 h ▸ hcs)
      have hpairwise : (name.toList ++ params ++ [body]).Pairwise ns.Before := by
        subst hb
        exact pairwise_children ht hf rfl
      have hbefore : k.stop ≤ start := (List.pairwise_append.1 hpairwise).2.2 c hfront body
        List.mem_cons_self k _ hk hbody
      have hle := (start_le_directivesEnd hns hbody).trans' hbefore
      exact Nat.le_trans (hcs.within hns hk hn).2 hle

end Bodies

end LoopClosure.Syntax.Nodes

/-! ## Where declarations go -/

namespace LoopClosure.Lowering

open Syntax Syntax.Nodes

variable {b : Bound} {target : ScopeId} {f body : NodeId} {statements : List NodeId}

theorem bodyStart_block {place : FunctionPlace} {name : Option NodeId} {params : List NodeId}
    {traits : FunctionTraits} {start stop : Nat} {parent : Option NodeId}
    (hnode : b.scopes.node? target = some f)
    (hf : b.nodes.form? f = some (.function place name params body traits))
    (hm : b.nodes.get? body = some ⟨start, stop, .block statements, parent⟩) :
    bodyStart b target = directivesEnd b.nodes (start + 1) statements := by
  simp only [bodyStart, hnode, Option.bind_some, hf, hm]

/-- Declarations in a program or in a function with a block go behind the directives. -/
theorem endsPrologue_bodyStart (hnode : b.scopes.node? target = some f)
    (hf : b.nodes.IsHost f) : b.nodes.EndsPrologue f (bodyStart b target) := by
  rcases hf with ⟨statements, comments, hf⟩ |
    ⟨place, name, params, body, traits, statements, hf, hblock⟩
  · refine .program hf (prologueEnd_iff.2 ?_)
    simp only [bodyStart, hnode, Option.bind_some, hf]
  · obtain ⟨⟨start, stop, form, parent⟩, hm, rfl⟩ := Option.map_eq_some_iff.1 hblock
    exact .function hf hm (prologueEnd_iff.2 (bodyStart_block hnode hf hm))

end LoopClosure.Lowering
