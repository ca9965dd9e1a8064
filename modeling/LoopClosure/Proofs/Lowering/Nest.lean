import LoopClosure.Lowering.Basic
import LoopClosure.Proofs.Syntax.Nested

/-!
# How wraps nest

Parents of wraps are found by the ranges of the bodies. In a well-formed table the bodies around a
loop lie inside one another, and the parent is the innermost of them (`parentOf?_eq_some`), so a
wrap without parent lies in no other body (`parentOf?_eq_none`).
-/

namespace LoopClosure

open Syntax Syntax.Nodes

theorem leastBy?_eq_none {α : Type} {key : α → Nat} {as : List α} (h : leastBy? key as = none) :
    as = [] := by
  cases as with
  | nil => rfl
  | cons a as =>
    unfold leastBy? at h
    split at h
    · cases h
    · split at h <;> cases h

theorem leastBy?_eq_some {α : Type} {key : α → Nat} {as : List α} {a : α}
    (h : leastBy? key as = some a) : a ∈ as ∧ ∀ b ∈ as, key a ≤ key b := by
  induction as generalizing a with
  | nil => cases h
  | cons x as ih =>
    unfold leastBy? at h
    split at h
    · next hnone =>
      cases h
      simp [leastBy?_eq_none hnone]
    · next y hy =>
      obtain ⟨hmem, hle⟩ := ih hy
      split at h
      · next hlt =>
        cases h
        refine ⟨List.mem_cons_of_mem _ hmem, fun b hb => ?_⟩
        rcases List.mem_cons.1 hb with rfl | hb
        · exact Nat.le_of_lt hlt
        · exact hle b hb
      · next hge =>
        cases h
        refine ⟨List.mem_cons_self, fun b hb => ?_⟩
        rcases List.mem_cons.1 hb with rfl | hb
        · exact Nat.le_refl _
        · exact Nat.le_trans (Nat.le_of_not_lt hge) (hle b hb)

/-- The wraps are of loops of the table, each wrapped once. -/
structure WrapsOf (ns : Nodes) (wraps : Array Wrap) : Prop where
  loop : ∀ {i : Nat} {w : Wrap}, wraps[i]? = some w →
    ∃ form, ns.form? w.loop = some form ∧ form.loopBody? = some w.body
  unique : ∀ {i j : Nat} {v w : Wrap}, wraps[i]? = some v → wraps[j]? = some w →
    v.loop = w.loop → i = j

namespace WrapsOf

variable {ns : Nodes} {wraps : Array Wrap} {i j p : Nat} {v w o : Wrap}

theorem empty (ns : Nodes) : WrapsOf ns #[] := ⟨fun h => (nomatch h), fun h => (nomatch h)⟩

theorem push (hw : WrapsOf ns wraps) {form : Form NodeId} (hf : ns.form? w.loop = some form)
    (hbody : form.loopBody? = some w.body) (hnew : ∀ v ∈ wraps.toList, v.loop ≠ w.loop) :
    WrapsOf ns (wraps.push w) := by
  have hcases : ∀ {k : Nat} {v : Wrap}, (wraps.push w)[k]? = some v →
      wraps[k]? = some v ∨ k = wraps.size ∧ v = w := by
    intro k v hk
    rw [Array.getElem?_push] at hk
    split at hk
    · next h =>
      cases hk
      exact .inr ⟨h, rfl⟩
    · exact .inl hk
  refine ⟨fun {k v} hk => ?_, fun {k k' v v'} hk hk' heq => ?_⟩
  · rcases hcases hk with hk | ⟨-, rfl⟩
    · exact hw.loop hk
    · exact ⟨form, hf, hbody⟩
  · have hold : ∀ {m : Nat} {u : Wrap}, wraps[m]? = some u → u.loop ≠ w.loop := fun hm =>
      hnew _ (Array.mem_toList_iff.2 (Array.mem_of_getElem? hm))
    rcases hcases hk with hv | ⟨hk, hv⟩ <;> rcases hcases hk' with hv' | ⟨hk', hv'⟩
    · exact hw.unique hv hv' heq
    · exact absurd (heq.trans (congrArg Wrap.loop hv')) (hold hv)
    · exact absurd (heq.symm.trans (congrArg Wrap.loop hv)) (hold hv')
    · exact hk.trans hk'.symm

variable (hns : ns.WellFormed) (hw : WrapsOf ns wraps)

include hw in
theorem get?_loop (hi : wraps[i]? = some w) : ∃ n, ns.get? w.loop = some n ∧
    n.form.hasKeyword = true ∧ n.form.loopBody? = some w.body := by
  obtain ⟨form, hf, hbody⟩ := hw.loop hi
  obtain ⟨n, hn, rfl⟩ := Option.map_eq_some_iff.1 hf
  exact ⟨n, hn, Form.hasKeyword_of_loopBody? hbody, hbody⟩

include hns hw

theorem parent?_body (hi : wraps[i]? = some w) : ns.parent? w.body = some w.loop := by
  obtain ⟨form, hf, hbody⟩ := hw.loop hi
  exact parent?_of_form? hns hf (Form.mem_children_of_loopBody? hbody)

theorem loop_lt_body (hi : wraps[i]? = some w) : w.loop < w.body :=
  hns.parent_lt (hw.parent?_body hns hi)

/-- A body lies around a loop exactly if the range of the loop is in its range. -/
theorem contains_iff (hi : wraps[i]? = some w) {body : NodeId} :
    ns.contains body w.loop = true ↔ ns.Inside body w.loop := by
  obtain ⟨n, hn, hk, -⟩ := hw.get?_loop hi
  exact Nodes.contains_iff hns hn hk

/-- A body that lies inside another one is shorter. -/
theorem length_lt (hi : wraps[i]? = some v) (hj : wraps[j]? = some w) (hne : i ≠ j)
    (hin : ns.Inside w.body v.body) (hb : ∃ n, ns.get? v.body = some n) :
    ns.length v.body < ns.length w.body := by
  obtain ⟨b, hb⟩ := hb
  obtain ⟨c, hc⟩ := hin.exists_get? hns hb
  obtain ⟨n, hn, hk, -⟩ := hw.get?_loop hi
  have hp := hw.parent?_body hns hi
  have hbody : w.body ≠ v.body := by
    intro heq
    have hp' := hw.parent?_body hns hj
    rw [heq, hp, Option.some.injEq] at hp'
    exact hne (hw.unique hi hj hp')
  have hloop := (hin.parent hbody hp).within hns hc hn
  have hstart := hns.keyword hp hb hn hk
  have hwithin := hns.within hp hb hn
  simp only [Nodes.length, hb, hc, Option.map_some, Option.getD_some]
  omega

omit hns hw in
theorem mem_around : p ∈ (List.range wraps.size).filter (fun j =>
      j ≠ i && ((wraps[j]?).map fun o => ns.contains o.body w.loop).getD false) ↔
    p ≠ i ∧ ∃ o, wraps[p]? = some o ∧ ns.contains o.body w.loop = true := by
  rw [List.mem_filter, List.mem_range, Bool.and_eq_true]
  constructor
  · rintro ⟨hlt, hne, hc⟩
    refine ⟨of_decide_eq_true hne, wraps[p], Array.getElem?_eq_getElem hlt, ?_⟩
    rwa [Array.getElem?_eq_getElem hlt] at hc
  · rintro ⟨hne, o, ho, hc⟩
    refine ⟨(Array.getElem?_eq_some_iff.1 ho).1, decide_eq_true hne, ?_⟩
    rw [ho]
    exact hc

/-- A wrap without parent lies in the body of no other. -/
theorem parentOf?_eq_none (hi : wraps[i]? = some w) (h : parentOf? ns wraps i = none)
    (hj : wraps[j]? = some v) (hne : j ≠ i) : ¬ns.Inside v.body w.loop := by
  intro hin
  simp only [parentOf?, hi, Option.bind_eq_bind, Option.bind_some] at h
  have hmem := mem_around.2 ⟨hne, v, hj, (hw.contains_iff hns hi).2 hin⟩
  rw [leastBy?_eq_none h] at hmem
  cases hmem

/-- The parent is the innermost wrap around. -/
theorem parentOf?_eq_some (hi : wraps[i]? = some w) (h : parentOf? ns wraps i = some p) :
    p ≠ i ∧ ∃ o, wraps[p]? = some o ∧ ns.Inside o.body w.loop ∧
      ∀ {j : Nat} {v : Wrap}, wraps[j]? = some v → j ≠ i → ns.Inside v.body w.loop →
        ns.Inside v.body o.body := by
  simp only [parentOf?, hi, Option.bind_eq_bind, Option.bind_some] at h
  obtain ⟨hmem, hleast⟩ := leastBy?_eq_some h
  obtain ⟨hne, o, ho, hc⟩ := mem_around.1 hmem
  have hin := (hw.contains_iff hns hi).1 hc
  refine ⟨hne, o, ho, hin, fun {j v} hj hji hv => ?_⟩
  rcases hv.comparable hin with hvo | hov
  · exact hvo
  · -- The other body lies inside that of the parent, which has the least length.
    by_cases hjp : j = p
    · rw [hjp, ho, Option.some.injEq] at hj
      exact hj ▸ .refl
    · obtain ⟨n, hn, -⟩ := hw.get?_loop hi
      have hlt := hw.length_lt hns hj ho hjp hov (hv.exists_get? hns hn)
      have hle := hleast j (mem_around.2 ⟨hji, v, hj, (hw.contains_iff hns hi).2 hv⟩)
      rw [hj, ho] at hle
      exact absurd hlt (Nat.not_lt_of_le hle)

end WrapsOf

end LoopClosure
