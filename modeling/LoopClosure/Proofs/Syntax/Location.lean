import LoopClosure.Syntax.Nodes
import Mathlib.Tactic.Common

/-!
# Children and their numbers

`mapIdx` and `map` change the children of a form one by one, and `number` numbers them from zero on.

`Located id parent t i p u`: when the nodes of `t` are numbered in preorder from `id` on, `t` being
a child of `parent`, the subtree `u` has number `i` and parent `p`. The table `Nodes.ofTree t` holds
at `i` what `u` says (`get?_ofTree`), and nothing else (`located_of_get?`).
-/

namespace LoopClosure.Syntax

/-! ## Children of forms -/

namespace Form

variable {α β : Type} {f : Form α}

attribute [local simp] map mapIdx

theorem toList_map_eq_mapIdx (g : Nat → α → β) (i : Nat) (o : Option α) :
    (o.map (g i)).toList = o.toList.mapIdx fun j a => g (i + j) a := by
  cases o <;> rfl

theorem children_mapIdx (g : Nat → α → β) (f : Form α) :
    (f.mapIdx g).children = f.children.mapIdx g := by
  cases f <;> simp only [mapIdx, children, mapList, List.mapIdx_append, List.mapIdx_cons,
    List.mapIdx_nil, toList_map_eq_mapIdx, filterMap_mapHoles, List.length_append, count,
    Nat.zero_add, Nat.add_zero, List.cons_append,
    List.nil_append, Nat.add_comm, Nat.add_assoc, Nat.add_left_comm]

theorem children_map (g : α → β) (f : Form α) : (f.map g).children = f.children.map g := by
  rw [map, children_mapIdx]
  refine List.ext_getElem? fun i => ?_
  rw [List.getElem?_mapIdx, List.getElem?_map]

theorem children_number (f : Form α) : f.number.children = List.range f.children.length := by
  rw [number, children_mapIdx]
  refine List.ext_getElem (by simp) fun i hi _ => ?_
  rw [List.getElem_mapIdx, List.getElem_range]

/-! ### What `map` keeps -/

section Map

variable {g : α → β}

theorem map_eq_identifier_iff {name : String} :
    f.map g = .identifier name ↔ f = .identifier name := by
  cases f <;> simp

theorem map_eq_labeled {l b : β} (h : f.map g = .labeled l b) :
    ∃ l' b', f = .labeled l' b' ∧ l = g l' ∧ b = g b' := by
  cases f with
  | labeled l' b' =>
    obtain ⟨rfl, rfl⟩ := Form.labeled.inj h
    exact ⟨l', b', rfl, rfl, rfl⟩
  | _ => exact absurd h (by simp)

theorem map_eq_jump {kind : JumpKind} {label : Option β} (h : f.map g = .jump kind label) :
    ∃ label', f = .jump kind label' ∧ label = label'.map g := by
  cases f with
  | jump kind' label' =>
    obtain ⟨rfl, rfl⟩ := Form.jump.inj h
    exact ⟨label', rfl, rfl⟩
  | _ => exact absurd h (by simp)

theorem map_eq_property {key value : β} {role : PropertyRole} {traits : PropertyTraits}
    (h : f.map g = .property key value role traits) :
    ∃ key' value', f = .property key' value' role traits ∧ key = g key' ∧ value = g value' := by
  cases f with
  | property key' value' role' traits' =>
    obtain ⟨rfl, rfl, rfl, rfl⟩ := Form.property.inj h
    exact ⟨key', value', rfl, rfl, rfl⟩
  | _ => exact absurd h (by simp)

@[simp] theorem isFunction_map : (f.map g).isFunction = f.isFunction := by
  cases f <;> rfl

end Map

/-! ### What `number` keeps -/

theorem number_eq_identifier_iff {name : String} :
    f.number = .identifier name ↔ f = .identifier name := by
  cases f <;> simp [number]

@[simp] theorem isFunction_number : f.number.isFunction = f.isFunction := by
  cases f <;> rfl

end Form

/-! ## Numbers of subtrees -/

namespace Tree

variable {id i : Nat} {parent p : Option NodeId} {t u : Tree}

inductive Located : Nat → Option NodeId → Tree → Nat → Option NodeId → Tree → Prop where
  | here (id : Nat) (parent : Option NodeId) (t : Tree) : Located id parent t id parent t
  | child {id i : Nat} {parent p : Option NodeId} {start stop : Nat} {form : Form Nat}
    {pre post : List Tree} {c u : Tree} (h : Located (id + 1 + sizes pre) (some id) c i p u) :
    Located id parent (.node start stop form (pre ++ c :: post)) i p u

theorem sizes_append (ts us : List Tree) : sizes (ts ++ us) = sizes ts + sizes us := by
  induction ts with
  | nil => simp [sizes]
  | cons t ts ih => simp [sizes, ih, Nat.add_assoc]

theorem Located.bounds (h : Located id parent t i p u) : id ≤ i ∧ i < id + t.size := by
  induction h with
  | here id parent t => exact ⟨Nat.le_refl _, Nat.lt_add_of_pos_right t.size_pos⟩
  | child h ih =>
    obtain ⟨hle, hlt⟩ := ih
    simp only [size, sizes_append, sizes]
    omega

/-- A child of a located subtree is located. -/
theorem Located.step {start stop : Nat} {form : Form Nat} {pre post : List Tree} {c : Tree}
    (h : Located id parent t i p (.node start stop form (pre ++ c :: post))) :
    Located id parent t (i + 1 + sizes pre) (some i) c := by
  generalize hu : Tree.node start stop form (pre ++ c :: post) = u at h
  induction h with
  | here id parent t =>
    subst hu
    exact .child (.here _ _ _)
  | child _ ih => exact .child (ih hu)

theorem Located.first {start stop : Nat} {form : Form Nat} {post : List Tree} {c : Tree}
    (h : Located id parent t i p (.node start stop form (c :: post))) :
    Located id parent t (i + 1) (some i) c := by
  have h' : Located id parent t i p (.node start stop form ([] ++ c :: post)) := h
  exact h'.step

theorem Located.second {start stop : Nat} {form : Form Nat} {post : List Tree} {b c : Tree}
    (h : Located id parent t i p (.node start stop form (b :: c :: post))) :
    Located id parent t (i + 1 + b.size) (some i) c := by
  have h' : Located id parent t i p (.node start stop form ([b] ++ c :: post)) := h
  exact h'.step

mutual

theorem exists_located (id : Nat) (parent : Option NodeId) : ∀ (t : Tree) (i : Nat),
    id ≤ i → i < id + t.size → ∃ p u, Located id parent t i p u
  | .node start stop form ts, i, hle, hlt => by
    by_cases hi : i = id
    · subst i
      exact ⟨parent, _, .here _ _ _⟩
    · obtain ⟨pre, c, post, p, u, rfl, h⟩ :=
        exists_located_child (id + 1) (some id) ts i (by omega) (by simp only [size] at hlt; omega)
      exact ⟨p, u, .child h⟩

theorem exists_located_child (id : Nat) (parent : Option NodeId) : ∀ (ts : List Tree)
    (i : Nat), id ≤ i → i < id + sizes ts → ∃ pre c post p u, ts = pre ++ c :: post ∧
      Located (id + sizes pre) parent c i p u
  | [], i, hle, hlt => by simp only [sizes] at hlt; omega
  | t :: ts, i, hle, hlt => by
    by_cases hi : i < id + t.size
    · obtain ⟨p, u, h⟩ := exists_located id parent t i hle hi
      exact ⟨[], t, ts, p, u, rfl, h⟩
    · obtain ⟨pre, c, post, p, u, rfl, h⟩ :=
        exists_located_child (id + t.size) parent ts i (by omega)
          (by simp only [sizes] at hlt; omega)
      exact ⟨t :: pre, c, post, p, u, rfl, by rwa [sizes, ← Nat.add_assoc]⟩

end

/-! ## The table -/

/-- The node of a subtree with number `i` and parent `p`. -/
def nodeAt (i : NodeId) (p : Option NodeId) (u : Tree) : Node :=
  ⟨u.start, u.stop, u.form.map fun k => (siblingIds (i + 1) u.children).toArray.getD k 0, p⟩

mutual

theorem nodesFrom_eq_append (behind : List Node) : ∀ (id : NodeId) (parent : Option NodeId)
    (t : Tree), nodesFrom id parent behind t = nodesFrom id parent [] t ++ behind
  | id, parent, .node start stop form ts => by
    rw [nodesFrom, nodesFrom, siblingNodes_eq_append behind]
    rfl

theorem siblingNodes_eq_append (behind : List Node) : ∀ (id parent : NodeId) (ts : List Tree),
    siblingNodes id parent behind ts = siblingNodes id parent [] ts ++ behind
  | id, parent, [] => by rw [siblingNodes, siblingNodes, List.nil_append]
  | id, parent, t :: ts => by
    rw [siblingNodes, siblingNodes, siblingNodes_eq_append behind, nodesFrom_eq_append (_ ++ _),
      nodesFrom_eq_append (siblingNodes _ _ _ _), List.append_assoc]

end

mutual

theorem length_nodesFrom : ∀ (id : NodeId) (parent : Option NodeId) (t : Tree),
    (nodesFrom id parent [] t).length = t.size
  | id, parent, .node start stop form ts => by
    rw [nodesFrom, size, List.length_cons, length_siblingNodes]

theorem length_siblingNodes : ∀ (id parent : NodeId) (ts : List Tree),
    (siblingNodes id parent [] ts).length = sizes ts
  | id, parent, [] => rfl
  | id, parent, t :: ts => by
    rw [siblingNodes, nodesFrom_eq_append, List.length_append, length_nodesFrom,
      length_siblingNodes, sizes]

end

theorem siblingNodes_append (id parent : NodeId) (behind : List Node) (ts us : List Tree) :
    siblingNodes id parent behind (ts ++ us) =
      siblingNodes id parent [] ts ++ siblingNodes (id + sizes ts) parent behind us := by
  induction ts generalizing id with
  | nil => rfl
  | cons t ts ih =>
    rw [List.cons_append, siblingNodes, siblingNodes, ih, nodesFrom_eq_append (_ ++ _),
      nodesFrom_eq_append (siblingNodes _ _ _ _), List.append_assoc, sizes, Nat.add_assoc]

theorem Located.getElem? (h : Located id parent t i p u) (behind : List Node) :
    (nodesFrom id parent behind t)[i - id]? = some (nodeAt i p u) := by
  induction h generalizing behind with
  | here id parent t =>
    cases t
    rw [nodesFrom, Nat.sub_self]
    rfl
  | @child id i parent p start stop form pre post c u h ih =>
    have hle := h.bounds.1
    rw [nodesFrom, siblingNodes_append, siblingNodes]
    obtain ⟨k, rfl⟩ := Nat.exists_eq_add_of_le hle
    have hk : id + 1 + sizes pre + k - id = (sizes pre + k) + 1 := by omega
    rw [hk, List.getElem?_cons_succ, List.getElem?_append_right (by
      rw [length_siblingNodes]; omega), length_siblingNodes, Nat.add_sub_cancel_left]
    have := ih (siblingNodes (id + 1 + sizes pre + c.size) id behind post)
    rwa [Nat.add_sub_cancel_left] at this

end Tree

namespace Nodes

open LoopClosure.Syntax.Tree

variable {t u : Tree} {i : Nat} {p : Option NodeId}

theorem size_ofTree (t : Tree) : (ofTree t).size = t.size := length_nodesFrom 0 none t

theorem get?_ofTree (h : Located 0 none t i p u) : (ofTree t).get? i = some (nodeAt i p u) := by
  have hi := h.getElem? []
  rw [Nat.sub_zero] at hi
  rwa [get?, ofTree, List.getElem?_toArray]

theorem located_of_get? {n : Node} (h : (ofTree t).get? i = some n) :
    ∃ p u, Located 0 none t i p u ∧ n = nodeAt i p u := by
  have hlt : i < (ofTree t).size := (Array.getElem?_eq_some_iff.1 h).1
  rw [size_ofTree] at hlt
  obtain ⟨p, u, hu⟩ := exists_located 0 none t i (Nat.zero_le i) (by rwa [Nat.zero_add])
  rw [get?_ofTree hu, Option.some.injEq] at h
  exact ⟨p, u, hu, h.symm⟩

end Nodes

end LoopClosure.Syntax
