import LoopClosure.Proofs.Syntax.WellFormed

/-!
# Leaves lie apart

The range of a leaf (a name, a keyword) lies apart from those of the nodes that are not around it.
The one exception is a property in short form, whose key and whose value have the same name at their
front: two nodes in one place (`Tree.leaf_apart`). Leaves begin in the order of their numbers
(`Tree.leaf_start_le`).
-/

namespace LoopClosure.Syntax.Tree

variable {id i j k : Nat} {parent p q : Option NodeId} {t u v key value : Tree}

/-- Node number `k` is a property in short form. -/
def ShortAt (id : Nat) (parent : Option NodeId) (t : Tree) (k : Nat) (key value : Tree) : Prop :=
  ∃ q start stop role traits, traits.shorthand = true ∧
    Located id parent t k q (.node start stop (.property 0 1 role traits) [key, value])

theorem ShortAt.child {start stop : Nat} {form : Form Nat} {pre post : List Tree} {c : Tree}
    (h : ShortAt (id + 1 + sizes pre) (some id) c k key value) :
    ShortAt id parent (.node start stop form (pre ++ c :: post)) k key value := by
  obtain ⟨q, start', stop', role, traits, hshort, h⟩ := h
  exact ⟨q, start', stop', role, traits, hshort, .child h⟩

/-- The number, below a property with number `k`, of the name at the front of its value. -/
def frontOf (k : Nat) (value : Tree) : Nat := if value.children = [] then k + 2 else k + 3

theorem IsName.size_eq (h : t.IsName) : t.size = 1 := by
  cases t with
  | node start stop form ts =>
    cases form with
    | identifier name =>
      obtain rfl : ts = [] := h.2
      rfl
    | _ => exact h.elim

/-- A leaf in the value of a property in short form is the name at its front, or lies behind the
key. -/
theorem IsShort.leaf_cases (hname : key.IsName) (hshort : key.IsShort value) (hwf : value.WellFormed)
    (hu : Located (k + 2) parent value i p u) (hleaf : u.children = []) :
    i = frontOf k value ∧ u = key ∨ key.stop ≤ u.start := by
  rcases hshort.cases_form with rfl | ⟨start, stop, form, w, -, hle, rfl⟩
  · obtain rfl := hu.eq_of_isName hname
    cases hu with
    | here => exact .inl ⟨(if_pos hleaf).symm, rfl⟩
    | child h => exact absurd hleaf (by simp [Tree.children])
  · generalize hn : Tree.node start stop form [key, w] = n at hu
    cases hu with
    | here =>
      subst hn
      cases hleaf
    | @child _ _ _ _ _ _ _ pre post c _ h =>
      obtain ⟨rfl, rfl, rfl, hkids⟩ := Tree.node.inj hn
      have hpair : [] ++ key :: [w] = pre ++ c :: post := hkids
      rcases split_cases hpair with ⟨rfl, rfl, -⟩ | ⟨mid, hmid⟩ |
        ⟨mid, hmid⟩
      · obtain rfl := h.eq_of_isName hname
        refine .inl ⟨?_, rfl⟩
        have hb := h.bounds
        rw [hname.size_eq] at hb
        simp only [sizes] at hb
        rw [frontOf, if_neg (by simp [Tree.children])]
        omega
      · have hcw : c ∈ [w] := by rw [hmid]; simp
        obtain rfl := List.mem_singleton.1 hcw
        exact .inr (Nat.le_trans hle (h.within (hwf.kid (by simp))).1)
      · have hlen := congrArg List.length hkids
        rw [hmid] at hlen
        simp only [List.length_append, List.length_cons, List.length_nil] at hlen
        omega

/-- The range of a leaf lies apart from that of a node that is not around it, unless the one is the
key of a property in short form, and the leaf its key or the name at the front of its value. -/
theorem leaf_apart (ht : t.WellFormed) (hu : Located id parent t i p u)
    (hv : Located id parent t j q v) (hleaf : u.children = []) :
    Located j q v i p u ∨ u.stop ≤ v.start ∨ v.stop ≤ u.start ∨
      ∃ k key value, ShortAt id parent t k key value ∧
        (i = k + 1 ∨ i = frontOf k value ∧ j = k + 1) := by
  induction hu generalizing j q v with
  | here =>
    cases hv with
    | here => exact .inl (.here _ _ _)
    | child h => exact absurd hleaf (by simp [Tree.children])
  | @child id i parent p start stop form pre post c u hu ih =>
    generalize hn : Tree.node start stop form (pre ++ c :: post) = n at hv ht
    cases hv with
    | here =>
      subst hn
      exact .inl (.child hu)
    | @child _ _ _ _ start' stop' form' pre' post' c' v hv =>
      obtain ⟨rfl, rfl, rfl, hkids⟩ := Tree.node.inj hn
      have ht' : (Tree.node start stop form (pre ++ c :: post)).WellFormed := hkids ▸ ht
      have hc := ht'.kid (t := c) (by simp)
      have hc' := ht.kid (t := c') (by simp)
      rcases split_cases hkids with ⟨rfl, rfl, rfl⟩ | ⟨mid, rfl⟩ | ⟨mid, rfl⟩
      · rcases ih hc hv hleaf with h | h | h | ⟨k, key, value, h, hk⟩
        · exact .inl h
        · exact .inr (.inl h)
        · exact .inr (.inr (.inl h))
        · exact .inr (.inr (.inr ⟨k, key, value, h.child, hk⟩))
      · rcases ht'.placed.apart_or_short with h | ⟨role, traits, rfl, hform, rfl, rfl, rfl, hname, -⟩
        · have := (hu.within hc).2
          have := (hv.within hc').1
          exact .inr (.inl (by omega))
        · -- The leaf is the key.
          have hpair : [c] ++ [c'] = pre' ++ [c'] := hkids
          obtain rfl := List.append_cancel_right hpair
          have hb := hu.bounds
          rw [hname.size_eq] at hb
          simp only [sizes] at hb
          exact .inr (.inr (.inr ⟨id, c, c', ⟨_, _, _, _, _, hform, .here _ _ _⟩, .inl (by omega)⟩))
      · rcases ht.placed.apart_or_short with h | ⟨role, traits, rfl, hform, rfl, rfl, rfl, hname, hshort⟩
        · have := (hu.within hc).1
          have := (hv.within hc').2
          exact .inr (.inr (.inl (by omega)))
        · -- The leaf lies in the value, and the other node is the key.
          obtain rfl : pre = [c'] := List.append_cancel_right hkids
          have hsize := hname.size_eq
          have hbv := hv.bounds
          have hu' : Located (id + 2) (some id) c i p u := by
            have hnumber : id + 1 + sizes [c'] = id + 2 := by simp [sizes, hsize]
            exact hnumber ▸ hu
          obtain rfl := hv.eq_of_isName hname
          rcases hshort.leaf_cases hname hc hu' hleaf with ⟨hi, -⟩ | hle
          · refine .inr (.inr (.inr ⟨id, _, _, ⟨_, _, _, _, _, hform, .here _ _ _⟩, .inr ⟨hi, ?_⟩⟩))
            rw [hsize] at hbv
            simp only [sizes] at hbv
            omega
          · exact .inr (.inr (.inl hle))

theorem WellFormed.start_le_stop (ht : t.WellFormed) : t.start ≤ t.stop := by
  cases t with
  | node start stop form ts =>
    have hroom := ht.placed.room
    simp only [Tree.start, Tree.stop]
    omega

/-- A leaf does not begin in front of a node with a lower number. -/
theorem leaf_start_le (ht : t.WellFormed) (hu : Located id parent t i p u)
    (hv : Located id parent t j q v) (hleaf : v.children = []) (hle : i ≤ j) :
    u.start ≤ v.start := by
  induction hu generalizing j q v with
  | here => exact (hv.within ht).1
  | @child id i parent p start stop form pre post c u hu ih =>
    generalize hn : Tree.node start stop form (pre ++ c :: post) = n at hv ht
    have hbu := hu.bounds
    cases hv with
    | here => omega
    | @child _ _ _ _ start' stop' form' pre' post' c' v hv =>
      obtain ⟨rfl, rfl, rfl, hkids⟩ := Tree.node.inj hn
      have ht' : (Tree.node start stop form (pre ++ c :: post)).WellFormed := hkids ▸ ht
      have hc := ht'.kid (t := c) (by simp)
      have hc' := ht.kid (t := c') (by simp)
      have hbv := hv.bounds
      rcases split_cases hkids with ⟨rfl, rfl, rfl⟩ | ⟨mid, rfl⟩ | ⟨mid, rfl⟩
      · exact ih hc hv hleaf hle
      · rcases ht'.placed.apart_or_short with h | ⟨role, traits, rfl, hform, rfl, rfl, rfl, hname, hshort⟩
        · have := (hu.wellFormed hc).start_le_stop
          have := (hu.within hc).2
          have := (hv.within hc').1
          omega
        · -- The node is the key, and the leaf lies in the value.
          obtain rfl : [c] = pre' := List.append_cancel_right hkids
          have hv' : Located (id + 2) (some id) c' j q v := by
            have hnumber : id + 1 + sizes [c] = id + 2 := by simp [sizes, hname.size_eq]
            exact hnumber ▸ hv
          obtain rfl := hu.eq_of_isName hname
          rcases hshort.leaf_cases hname hc' hv' hleaf with ⟨-, rfl⟩ | hstop
          · exact Nat.le_refl _
          · exact Nat.le_trans hc.start_le_stop hstop
      · -- The leaf lies in a child in front of that with the node, so its number is lower.
        have hparts : pre ++ c :: post = (pre' ++ c' :: mid) ++ c :: post := by simpa using hkids
        obtain rfl := List.append_cancel_right hparts
        simp only [sizes_append, sizes] at hbu
        omega

end LoopClosure.Syntax.Tree
