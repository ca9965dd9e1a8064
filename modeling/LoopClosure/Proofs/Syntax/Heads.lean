import LoopClosure.Binding.Role
import LoopClosure.Proofs.Syntax.Nested

/-!
# Heads of loops

- `Nodes.Directly ns outer inner`: `inner` lies inside `outer`, with no function in between.
- `Nodes.Directly.statement`: what lies directly in a loop and is a statement lies in the body, or
  is the declaration that the head begins with.
- `Nodes.inside_of_contains`: a reference in the range of a body lies inside the body.
-/

namespace LoopClosure.Syntax

/-- The parts of a loop. -/
theorem Form.loop_part {form : Form NodeId} {body c : NodeId} (h : form.loopBody? = some body)
    (hc : c ∈ form.children) :
    c = body ∨ form.loopStart? = some c ∨ c ∈ form.loopExpressions := by
  cases form with
  | forLoop init test step body' =>
    cases h
    simp only [children, List.mem_append, List.mem_singleton, Option.mem_toList] at hc
    simp only [loopStart?, loopExpressions, List.mem_append, Option.mem_toList]
    tauto
  | forEach each left right body' =>
    cases h
    simp only [children, List.mem_cons, List.not_mem_nil, or_false] at hc
    simp only [loopStart?, loopExpressions, List.mem_singleton, Option.some.injEq]
    rcases hc with rfl | rfl | rfl <;> simp
  | whileLoop test body' | doWhile body' test =>
    cases h
    simp only [children, List.mem_cons, List.not_mem_nil, or_false] at hc
    simp only [loopExpressions, List.mem_singleton]
    tauto
  | _ => cases h

namespace Nodes

open Binding

variable {ns : Nodes} {a b c p loop body s ident : NodeId} {form f : Form NodeId}

inductive Directly (ns : Nodes) (outer : NodeId) : NodeId → Prop
  | refl : Directly ns outer outer
  | up {id p : NodeId} {form : Form NodeId} (hf : ns.form? id = some form)
    (hfun : form.isFunction = false) (hp : ns.parent? id = some p) (h : Directly ns outer p) :
    Directly ns outer id

namespace Directly

theorem inside (h : ns.Directly a b) : ns.Inside a b := by
  induction h with
  | refl => exact .refl
  | up _ _ hp _ ih => exact .up hp ih

theorem trans (h : ns.Directly a b) (h' : ns.Directly b c) : ns.Directly a c := by
  induction h' with
  | refl => exact h
  | up hf hfun hp _ ih => exact .up hf hfun hp ih

/-- It is enough that each function in between is the outer node. -/
theorem of_inside (h : ns.Inside a b) (hfun : ∀ f form, ns.form? f = some form →
    form.isFunction = true → ns.Inside a f → ns.Inside f b → f = a) : ns.Directly a b := by
  induction h with
  | refl => exact .refl
  | @up id p hp h ih =>
    by_cases hid : id = a
    · exact hid ▸ .refl
    · obtain ⟨n, hn⟩ := exists_get?_of_parent?_eq_some hp
      have hf : ns.form? id = some n.form := by rw [form?, hn]; rfl
      refine .up hf (Bool.eq_false_iff.2 fun hid' => ?_) hp
        (ih fun f form hf hfun' ha hb => hfun f form hf hfun' ha (.up hp hb))
      exact hid (hfun id n.form hf hid' (.up hp h) .refl)

theorem eq_or_child (h : ns.Directly a b) : a = b ∨ ∃ c form, ns.parent? c = some a ∧
    ns.form? c = some form ∧ form.isFunction = false ∧ ns.Directly c b := by
  induction h with
  | refl => exact .inl rfl
  | @up id p form hf hfun hp _ ih =>
    rcases ih with rfl | ⟨c, form', hc, hf', hfun', hd⟩
    · exact .inr ⟨id, form, hp, hf, hfun, .refl⟩
    · exact .inr ⟨c, form', hc, hf', hfun', .up hf hfun hp hd⟩

variable {depth : NodeId → Nat} (hd : ns.IsDepth depth)
include hd

/-- Around what is above a statement there are only such nodes. -/
theorem depth_pos (h : ns.Directly a b) (hf : ns.form? a = some form)
    (hfun : form.isFunction = false) (hpos : 0 < depth b) : 0 < depth a := by
  induction h with
  | refl => exact hpos
  | @up id p _ _ _ hp h ih =>
    refine ih ?_
    have hstep : ∃ form, ns.form? p = some form ∧ form.isFunction = false := by
      cases h with
      | refl => exact ⟨form, hf, hfun⟩
      | up hf hfun => exact ⟨_, hf, hfun⟩
    obtain ⟨form', hf', hfun'⟩ := hstep
    exact Nat.lt_trans hpos (hd.step hp hf' hfun' hpos).2

end Directly

/-- In the head of a loop the only statement is the declaration that it may begin with. -/
theorem Directly.statement (hns : ns.WellFormed) (h : ns.Directly loop s)
    (hloop : ns.form? loop = some form) (hbody : form.loopBody? = some body) (hne : s ≠ loop)
    (hs : ns.form? s = some f) (hstatement : f.isStatement = true) :
    ns.Inside body s ∨ form.loopStart? = some s ∧ f.isBindings = true := by
  obtain ⟨depth, hd⟩ := hns.shallow
  have hpos : 0 < depth s := hd.statement hs hstatement
  rcases h.eq_or_child with rfl | ⟨c, g, hc, hg, hfun, hcs⟩
  · exact absurd rfl hne
  have hcpos : 0 < depth c := hcs.depth_pos hd hg hfun hpos
  obtain ⟨form', hform', hmem⟩ := exists_form?_of_parent? hns hc
  rw [hloop, Option.some.injEq] at hform'
  subst form'
  rcases Form.loop_part hbody hmem with rfl | hstart | hexpr
  · exact .inl hcs.inside
  · right
    rcases hd.first hloop hstart with hzero | ⟨⟨f', hf', hbindings⟩, hchildren⟩
    · omega
    · rcases hcs.eq_or_child with rfl | ⟨d, g', hdc, hg', hfun', hds⟩
      · rw [hs, Option.some.injEq] at hf'
        exact ⟨hstart, hf' ▸ hbindings⟩
      · have := hds.depth_pos hd hg' hfun' hpos
        have := hchildren d hdc
        omega
  · have := hd.expressions hloop hexpr
    omega

/-! ## Names that a target binds -/

theorem inside_of_mem_bindingIdsWithin (hns : ns.WellFormed) {depth : Nat} {target : NodeId}
    (h : ident ∈ ns.bindingIdsWithin depth target) : ns.Inside target ident := by
  induction depth generalizing target with
  | zero => cases h
  | succ depth ih =>
    have hchild {c : NodeId} {form : Form NodeId} (hf : ns.form? target = some form)
        (hc : c ∈ form.children) (hi : ns.Inside c ident) : ns.Inside target ident :=
      (Inside.of_parent (parent?_of_form? hns hf hc)).trans hi
    unfold bindingIdsWithin at h
    split at h
    · rw [List.mem_singleton.1 h]
      exact .refl
    · next elements hf =>
      obtain ⟨e, he, h⟩ := List.mem_flatMap.1 h
      exact hchild hf he (ih h)
    · next properties hf =>
      obtain ⟨q, hq, h⟩ := List.mem_flatMap.1 h
      split at h
      · next hp =>
        refine hchild hf hq ((Inside.of_parent (parent?_of_form? hns hp ?_)).trans (ih h))
        exact List.mem_cons_of_mem _ List.mem_cons_self
      · next hp =>
        exact hchild hf hq ((Inside.of_parent (parent?_of_form? hns hp List.mem_cons_self)).trans
          (ih h))
      · cases h
    · next hf => exact hchild hf List.mem_cons_self (ih h)
    · next hf => exact hchild hf List.mem_cons_self (ih h)
    · next hf => exact hchild hf List.mem_cons_self (ih h)
    · cases h

theorem inside_of_mem_bindingIds (hns : ns.WellFormed) {target : NodeId}
    (h : ident ∈ ns.bindingIds target) : ns.Inside target ident :=
  inside_of_mem_bindingIdsWithin hns h

/-! ## References in a range -/

/-- A name in the range of a node lies inside it, unless one of the two is the key of a property in
short form; those are no references. -/
theorem inside_of_contains (hns : ns.WellFormed) (hc : ns.contains a ident = true)
    (href : isReference ns ident = true) (hname : ∃ name, ns.identifier? ident = some name)
    (ha : ∀ q key value role traits, ns.parent? a = some q →
      ns.form? q ≠ some (.property key value role traits))
    (hp : ns.parent? ident = some p) : ns.Inside a ident := by
  obtain ⟨name, hname⟩ := hname
  obtain ⟨m, hm, hform⟩ := Option.map_eq_some_iff.1 (identifier?_eq_some_iff.1 hname)
  obtain ⟨o, ho⟩ := exists_get?_of_parent? hns hp
  have hwithin := hns.within hp hm ho
  unfold contains at hc
  cases hn : ns.get? a with
  | none => simp [hn] at hc
  | some n =>
    simp only [hn, hm, Bool.and_eq_true, decide_eq_true_eq] at hc
    have hleaf : ns.children ident = [] := by simp [children, hm, hform, Form.children]
    rcases hns.leaf hm hleaf hn with hin | hlt | hlt | ⟨s', htwins⟩ | htwins
    · exact hin
    · omega
    · omega
    · obtain ⟨q, value, role, traits, hq, hshort, -⟩ := htwins
      have hparent : ns.parent? ident = some q := parent?_of_form? hns hq List.mem_cons_self
      have hcomputed := hns.short hq hshort
      simp [isReference, hparent, hq, hcomputed] at href
    · obtain ⟨q, value, role, traits, hq, -⟩ := htwins
      have hparent : ns.parent? a = some q := parent?_of_form? hns hq List.mem_cons_self
      exact absurd hq (ha q a value role traits hparent)

end Nodes

end LoopClosure.Syntax
