import LoopClosure.Lowering.Calls
import LoopClosure.Lowering.Site
import LoopClosure.Proofs.Syntax.Nested

/-!
# Where jumps end

`Nodes.TargetFrom kind label target id`: on the way up from `id`, in its function, `target` is the
first statement that a jump ends at. Two searches of the lowering are for it: whether a jump leaves
a body (`leavesBody_iff`), and whether a relay leaves the next body, too (`crosses_iff`).
-/

namespace LoopClosure

open Syntax Syntax.Nodes LoopClosure.Bound Lowering

namespace Syntax.Nodes

variable {ns : Nodes} {kind : JumpKind} {label : Option String}
  {id target target' body s x : NodeId}

inductive TargetFrom (ns : Nodes) (kind : JumpKind) (label : Option String) (target : NodeId) :
    NodeId → Prop where
  | here {form : Form NodeId} (hf : ns.form? target = some form)
    (ht : isTarget ns kind label form = true) : TargetFrom ns kind label target target
  | up {id p : NodeId} {form : Form NodeId} (hf : ns.form? id = some form)
    (ht : isTarget ns kind label form = false) (hfun : form.isFunction = false)
    (hp : ns.parent? id = some p) (h : TargetFrom ns kind label target p) :
    TargetFrom ns kind label target id

/-- The search for a target, over at most `steps` nodes. -/
def targetWithin (ns : Nodes) (kind : JumpKind) (label : Option String) :
    Nat → NodeId → Option NodeId
  | 0, _ => none
  | steps + 1, id =>
    match ns.form? id with
    | some form =>
      if isTarget ns kind label form then some id
      else if form.isFunction then none
      else (ns.parent? id).bind (ns.targetWithin kind label steps)
    | none => none

theorem targetFrom_of_targetWithin {steps : Nat}
    (h : ns.targetWithin kind label steps id = some target) :
    TargetFrom ns kind label target id := by
  induction steps generalizing id with
  | zero => cases h
  | succ steps ih =>
    unfold targetWithin at h
    split at h
    · next form hf =>
      split at h
      · next ht =>
        cases h
        exact .here hf ht
      · next ht =>
        split at h
        · cases h
        · next hfun =>
          obtain ⟨p, hp, h⟩ := Option.bind_eq_some_iff.1 h
          exact .up hf (Bool.eq_false_iff.2 ht) (Bool.eq_false_iff.2 hfun) hp (ih h)
    · cases h

theorem isFunction_of_isTarget {form : Form NodeId} (h : isTarget ns kind label form = true) :
    form.isFunction = false := by
  cases form with
  | function place name params body traits => cases label <;> cases h
  | _ => rfl

theorem isTarget_jump {kind' : JumpKind} {label' : Option NodeId} :
    isTarget ns kind label (.jump kind' label') = false := by
  cases label <;> rfl

theorem isTarget_of_isLoop {form : Form NodeId} {name : String} (h : form.isLoop = true) :
    isTarget ns kind (some name) form = false := by
  cases form <;> first | rfl | cases h

namespace TargetFrom

theorem inside (h : TargetFrom ns kind label target id) : ns.Inside target id := by
  induction h with
  | here => exact .refl
  | up _ _ _ hp _ ih => exact .up hp ih

theorem exists_target_form (h : TargetFrom ns kind label target id) :
    ∃ form, ns.form? target = some form ∧ isTarget ns kind label form = true := by
  induction h with
  | here hf ht => exact ⟨_, hf, ht⟩
  | up _ _ _ _ _ ih => exact ih

theorem unique (h : TargetFrom ns kind label target id) (h' : TargetFrom ns kind label target' id) :
    target = target' := by
  induction h with
  | here hf ht =>
    cases h' with
    | here => rfl
    | up hf' ht' =>
      rw [hf, Option.some.injEq] at hf'
      rw [hf', ht'] at ht
      cases ht
  | up hf ht _ hp _ ih =>
    cases h' with
    | here hf' ht' =>
      rw [hf, Option.some.injEq] at hf'
      rw [hf', ht'] at ht
      cases ht
    | up _ _ _ hp' h' =>
      rw [hp, Option.some.injEq] at hp'
      exact ih (hp' ▸ h')

/-- No node on the way to the target is a function. -/
theorem exists_form (h : TargetFrom ns kind label target id) :
    ∃ form, ns.form? id = some form ∧ form.isFunction = false := by
  cases h with
  | here hf ht => exact ⟨_, hf, isFunction_of_isTarget ht⟩
  | up hf _ hfun => exact ⟨_, hf, hfun⟩

/-- From a node on the way the target is the same. -/
theorem above (h : TargetFrom ns kind label target id)
    (hx : ns.Inside x id) (hnot : ns.Inside x target → x = target) :
    TargetFrom ns kind label target x := by
  induction h with
  | here hf ht => exact (hnot hx).symm ▸ .here hf ht
  | @up id p form hf ht hfun hp h ih =>
    by_cases hxid : x = id
    · exact hxid ▸ .up hf ht hfun hp h
    · exact ih (hx.parent hxid hp)

section Depth

variable {depth : NodeId → Nat} (hd : ns.IsDepth depth)
include hd

theorem depth_lt {p : NodeId} (h : TargetFrom ns kind label target p) (hp : ns.parent? id = some p)
    (hpos : 0 < depth id) : depth id < depth p := by
  obtain ⟨form, hf, hfun⟩ := h.exists_form
  exact (hd.step hp hf hfun hpos).2

theorem depth_le (h : TargetFrom ns kind label target id) (hpos : 0 < depth id) :
    depth id ≤ depth target := by
  induction h with
  | here => exact Nat.le_refl _
  | up _ _ _ hp h ih =>
    have hlt := h.depth_lt hd hp hpos
    exact Nat.le_trans (Nat.le_of_lt hlt) (ih (Nat.lt_trans hpos hlt))

theorem depth_pos (hns : ns.WellFormed) (h : TargetFrom ns kind label target id)
    (hpos : 0 < depth id) (hx : ns.Inside x id) (htx : ns.Inside target x) : 0 < depth x := by
  induction h with
  | here => exact (htx.antisymm hns hx) ▸ hpos
  | @up id p _ _ _ _ hp h ih =>
    by_cases hxid : x = id
    · exact hxid ▸ hpos
    · exact ih (Nat.lt_trans hpos (h.depth_lt hd hp hpos)) (hx.parent hxid hp)

/-- The target is found by a climb of that many levels. -/
theorem find?_climb (h : TargetFrom ns kind label target id) (hpos : 0 < depth id) {n : Nat}
    (hn : depth target ≤ depth id + n) {P : NodeId → Bool}
    (hP : ∀ x form, ns.form? x = some form → P x = isTarget ns kind label form) :
    (id :: ns.climb n id).find? P = some target := by
  induction h generalizing n with
  | here hf ht => rw [List.find?_cons_of_pos (by rw [hP _ _ hf, ht])]
  | @up id p form hf ht hfun hp h ih =>
    rw [List.find?_cons_of_neg (by rw [hP _ _ hf, ht]; exact Bool.false_ne_true)]
    have hlt := h.depth_lt hd hp hpos
    have hle := h.depth_le hd (Nat.lt_trans hpos hlt)
    cases n with
    | zero => exact absurd (Nat.lt_of_lt_of_le hlt hle) (Nat.not_lt_of_le hn)
    | succ n =>
      rw [climb, hp]
      exact ih (Nat.lt_trans hpos hlt) (by omega)

/-- A jump does not leave a body that is no nearer than its target. -/
theorem leavesAmong_eq_false (hns : ns.WellFormed) (h : TargetFrom ns kind label target id)
    (hpos : 0 < depth id) {n : Nat} (hn : depth target ≤ depth id + n)
    (hbody : ns.Inside body id → ns.Inside body target) :
    leavesAmong ns kind label body (id :: ns.climb n id) = false := by
  induction h generalizing n with
  | here hf ht =>
    unfold leavesAmong
    rw [hf]
    exact if_pos ht
  | @up id p form hf ht hfun hp h ih =>
    have hne : id ≠ body := by
      rintro rfl
      have heq := (hbody .refl).antisymm hns (.up hp h.inside)
      obtain ⟨form', hf', ht'⟩ := h.exists_target_form
      rw [← heq, hf, Option.some.injEq] at hf'
      rw [← hf', ht] at ht'
      cases ht'
    have hlt := h.depth_lt hd hp hpos
    have hle := h.depth_le hd (Nat.lt_trans hpos hlt)
    unfold leavesAmong
    rw [hf]
    dsimp only
    rw [if_neg (by rw [ht]; exact Bool.false_ne_true), if_neg (by simp [hne, hfun])]
    cases n with
    | zero => exact absurd (Nat.lt_of_lt_of_le hlt hle) (Nat.not_lt_of_le hn)
    | succ n =>
      rw [climb, hp]
      exact ih (Nat.lt_trans hpos hlt) (by omega) fun hin => hbody (.up hp hin)

end Depth

/-- A jump leaves a body that is nearer than its target. -/
theorem leavesAmong_eq_true (h : TargetFrom ns kind label target id) (hin : ns.Inside body id)
    (hnot : ¬ns.Inside body target) (n : Nat) :
    leavesAmong ns kind label body (id :: ns.climb n id) = true := by
  induction h generalizing n with
  | here => exact absurd hin hnot
  | @up id p form hf ht hfun hp h ih =>
    unfold leavesAmong
    rw [hf]
    dsimp only
    rw [if_neg (by rw [ht]; exact Bool.false_ne_true)]
    by_cases hbody : id = body
    · rw [if_pos (by simp [hbody])]
    · rw [if_neg (by simp [hbody, hfun])]
      cases n with
      | zero => rfl
      | succ n =>
        rw [climb, hp]
        exact ih (hin.parent (Ne.symm hbody) hp) n

end TargetFrom

/-- A jump leaves a body exactly if it lies below the body, and its target does not lie in it. -/
theorem leavesBody_iff (hns : ns.WellFormed) {jump : NodeId} {label : Option NodeId}
    (hf : ns.form? jump = some (.jump kind label))
    (h : TargetFrom ns kind (label.bind ns.identifier?) target jump) :
    leavesBody ns jump kind label body = true ↔
      body ≠ jump ∧ ns.Inside body jump ∧ ¬ns.Inside body target := by
  obtain ⟨depth, hd⟩ := hns.shallow
  have hpos := hd.jump hf
  cases h with
  | here hf' ht =>
    rw [hf, Option.some.injEq] at hf'
    rw [← hf', isTarget_jump] at ht
    cases ht
  | @up _ p form _ _ _ hp h =>
    have hlt := h.depth_lt hd hp hpos
    have hle := hd.le target
    rw [leavesBody, ancestors, show maxClimb = 9999 + 1 from rfl, climb, hp]
    constructor
    · intro hleaves
      by_contra hno
      rw [h.leavesAmong_eq_false hd hns (Nat.lt_trans hpos hlt) (by
        rw [Tree.maxStatementDepth] at hle
        omega) fun hin => ?_] at hleaves
      · cases hleaves
      · have hne : body ≠ jump := by
          rintro rfl
          exact absurd (hin.le hns) (Nat.not_le_of_lt (hns.parent_lt hp))
        exact Classical.not_not.1 fun hnot => hno ⟨hne, .up hp hin, hnot⟩
    · rintro ⟨hne, hin, hnot⟩
      exact h.leavesAmong_eq_true (hin.parent hne hp) hnot _

/-- A statement with a label lies in the range of a loop body around its jump exactly if it lies
inside. -/
theorem contains_iff_of_labeled (hns : ns.WellFormed) {l b q : NodeId} {form : Form NodeId}
    {name : String} (hf : ns.form? target = some (.labeled l b)) (hl : ns.identifier? l = some name)
    (ht : ns.Inside target s) (hb : ns.Inside body s) (hq : ns.parent? body = some q)
    (hqf : ns.form? q = some form) (hloop : form.isLoop = true) :
    ns.contains body target = true ↔ ns.Inside body target := by
  obtain ⟨n, hn, hform⟩ := Option.map_eq_some_iff.1 hf
  refine ⟨fun hc => ?_, fun hin => contains_of_inside hns hin hn⟩
  rcases ht.comparable hb with htb | hbt
  · rcases htb.eq_or_child with rfl | ⟨c, hp, hcb⟩
    · exact .refl
    · exfalso
      obtain ⟨form', hf', hmem⟩ := exists_form?_of_parent? hns hp
      rw [hf, Option.some.injEq] at hf'
      subst hf'
      rcases (by simpa [Form.children] using hmem : c = l ∨ c = b) with rfl | rfl
      · -- The label has nothing inside, and is no loop body.
        obtain rfl := hcb.eq_of_identifier? hns hl
        obtain rfl : target = q := Option.some.inj (hp.symm.trans hq)
        rw [hf, Option.some.injEq] at hqf
        subst hqf
        cases hloop
      · obtain ⟨o, ho⟩ := exists_get?_of_parent?_eq_some hq
        obtain ⟨m, hm⟩ := hcb.exists_get? hns ho
        have hlt := hns.label hn hform hm
        have hle := (hcb.within hns hm ho).1
        simp only [contains, ho, hn, Bool.and_eq_true, decide_eq_true_eq] at hc
        omega
  · exact hbt

/-- A statement with that label. -/
def isLabeledAs (ns : Nodes) (name : String) (id : NodeId) : Bool :=
  match ns.form? id with
  | some (.labeled l _) => ns.identifier? l = some name
  | _ => false

/-- A labeled relay leaves the body around a loop exactly if its target does not lie in the body. -/
theorem crosses_iff (hns : ns.WellFormed) {loop q : NodeId} {name : String} {r : Relay}
    {lform qform : Form NodeId} (hr : r = .break_ (some name) ∨ r = .continue_ name)
    (h : TargetFrom ns kind (some name) target loop) (hloop : ns.form? loop = some lform)
    (hisLoop : lform.isLoop = true) {depth : NodeId → Nat} (hd : ns.IsDepth depth)
    (hpos : 0 < depth loop) (hb : ns.Inside body loop) (hq : ns.parent? body = some q)
    (hqf : ns.form? q = some qform) (hqloop : qform.isLoop = true) :
    crosses ns loop body r = true ↔ ¬ns.Inside body target := by
  obtain ⟨form, hf, ht⟩ := h.exists_target_form
  obtain ⟨l, b, rfl, hl⟩ : ∃ l b, form = .labeled l b ∧ ns.identifier? l = some name := by
    cases form with
    | labeled l b => exact ⟨l, b, rfl, of_decide_eq_true ht⟩
    | _ => cases ht
  cases h with
  | here hf' ht' =>
    rw [hloop, Option.some.injEq] at hf'
    rw [← hf', isTarget_of_isLoop hisLoop] at ht'
    cases ht'
  | @up _ p _ _ _ _ hp h =>
    have hlt := h.depth_lt hd hp hpos
    have hle := hd.le target
    have hancestors : ns.ancestors loop = p :: ns.climb 9999 p := by
      rw [ancestors, show maxClimb = 9999 + 1 from rfl, climb, hp]
    have hfind := h.find?_climb hd (Nat.lt_trans hpos hlt) (n := 9999) (by
      rw [Tree.maxStatementDepth] at hle
      omega) (P := ns.isLabeledAs name) fun x form hx => by
        rw [isLabeledAs, hx]
        cases form <;> rfl
    have hcontains := contains_iff_of_labeled hns hf hl (.up hp h.inside) hb hq hqf hqloop
    have hcrosses : crosses ns loop body r = !(ns.contains body target) := by
      have hlast := congrArg (fun o => !(o.map (ns.contains body)).getD false) hfind
      rcases hr with rfl | rfl
      · rw [crosses, hancestors]
        exact hlast
      · rw [crosses, hancestors]
        exact hlast
    rw [hcrosses, ← hcontains, Bool.not_eq_true', Bool.not_eq_true]

end Syntax.Nodes

end LoopClosure
