import LoopClosure.Proofs.Binding.Steps
import LoopClosure.Proofs.Syntax.Inside

/-!
# Binding sites

Where the names of a unit are bound, told by its tree alone. A `Site` is an identifier that binds a
name at a place of the tree. What is hoisted goes to the nearest program, function or class around
that place, anything else to the nearest node with a scope (`Site.home?`).

`Clash u a b`: `b`, declared behind `a`, is refused for `a`. The two have one name, and they go to
one scope where one of them is a `let` or `const`, or `b` is hoisted past the scope of a `let` or
`const` (`Passes`).
-/

namespace LoopClosure

open Syntax

namespace Syntax

/-- What is hoisted stops at programs, functions and classes. -/
def Form.isHoist {α : Type} : Form α → Bool
  | .program .. | .function .. | .classBody .. => true
  | _ => false

namespace Nodes

variable {ns : Nodes} {i p : NodeId} {n : Nat}

/-- A node and the nodes around it, innermost first. -/
def outward (ns : Nodes) (i : NodeId) : List NodeId := i :: ns.climb i i

theorem climb_of_le (hns : ns.WellFormed) (h : i ≤ n) : ns.climb n i = ns.climb i i := by
  induction i using Nat.strongRecOn generalizing n with
  | _ i ih =>
    cases hp : ns.parent? i with
    | none => cases n <;> cases i <;> simp [climb, hp]
    | some p =>
      have hlt : p < i := hns.parent_lt hp
      obtain ⟨j, rfl⟩ := Nat.exists_eq_succ_of_ne_zero (Nat.ne_of_gt (Nat.zero_lt_of_lt hlt))
      obtain ⟨m, rfl⟩ := Nat.exists_eq_succ_of_ne_zero (Nat.ne_of_gt (Nat.zero_lt_of_lt h))
      have hj : p ≤ j := Nat.le_of_lt_succ hlt
      simp only [climb, hp]
      rw [ih p hlt (Nat.le_trans hj (Nat.le_of_succ_le_succ h)), ih p hlt hj]

theorem outward_of_parent (hns : ns.WellFormed) (hp : ns.parent? i = some p) :
    ns.outward i = i :: ns.outward p := by
  have hlt : p < i := hns.parent_lt hp
  obtain ⟨j, rfl⟩ := Nat.exists_eq_succ_of_ne_zero (Nat.ne_of_gt (Nat.zero_lt_of_lt hlt))
  simp only [outward, climb, hp]
  rw [climb_of_le hns (Nat.le_of_lt_succ hlt)]

theorem outward_of_root (hp : ns.parent? i = none) : ns.outward i = [i] := by
  cases i <;> simp [outward, climb, hp]

theorem inside_of_mem_outward {a : NodeId} (h : a ∈ ns.outward i) : ns.Inside a i := by
  rcases List.mem_cons.1 h with rfl | h
  · exact .refl
  · exact .of_mem_climb h

end Nodes

end Syntax

namespace Binding

variable {u : CompilationUnit} {i p : NodeId}

/-! ## Places -/

/-- Whether a node has a scope of its own. -/
def opens (u : CompilationUnit) (i : NodeId) : Bool := (u.nodes.form? i).any (opensScope u i)

/-- Whether what is hoisted stops at a node. -/
def hoists (u : CompilationUnit) (i : NodeId) : Bool := (u.nodes.form? i).any (·.isHoist)

/-- The node whose scope a node has. -/
def opener? (u : CompilationUnit) (i : NodeId) : Option NodeId :=
  (u.nodes.outward i).find? (opens u)

/-- The node whose scope takes what is hoisted from a node. -/
def hoister? (u : CompilationUnit) (i : NodeId) : Option NodeId :=
  (u.nodes.outward i).find? (hoists u)

/-- The nodes whose scopes are passed on the way there. -/
def passed (u : CompilationUnit) (i : NodeId) : List NodeId :=
  ((u.nodes.outward i).takeWhile (!hoists u ·)).filter (opens u)

theorem opensScope_of_isHoist {form : Form NodeId} (h : form.isHoist = true) :
    opensScope u i form = true := by
  cases form <;> first | rfl | cases h

theorem opens_of_hoists (h : hoists u i = true) : opens u i = true := by
  obtain ⟨form, hf, h⟩ := (Option.any_eq_true _ _).1 h
  exact (Option.any_eq_true _ _).2 ⟨form, hf, opensScope_of_isHoist h⟩

theorem opener?_of_opens (h : opens u i = true) : opener? u i = some i := by
  rw [opener?, Nodes.outward, List.find?_cons_of_pos h]

theorem opener?_of_parent (hns : u.nodes.WellFormed) (hp : u.nodes.parent? i = some p)
    (h : opens u i = false) : opener? u i = opener? u p := by
  rw [opener?, Nodes.outward_of_parent hns hp, List.find?_cons_of_neg (by simp [h])]
  rfl

theorem hoister?_of_hoists (h : hoists u i = true) : hoister? u i = some i := by
  rw [hoister?, Nodes.outward, List.find?_cons_of_pos h]

theorem hoister?_of_parent (hns : u.nodes.WellFormed) (hp : u.nodes.parent? i = some p)
    (h : hoists u i = false) : hoister? u i = hoister? u p := by
  rw [hoister?, Nodes.outward_of_parent hns hp, List.find?_cons_of_neg (by simp [h])]
  rfl

theorem passed_of_hoists (h : hoists u i = true) : passed u i = [] := by
  rw [passed, Nodes.outward, List.takeWhile_cons, if_neg (by simp [h]), List.filter_nil]

theorem passed_of_parent (hns : u.nodes.WellFormed) (hp : u.nodes.parent? i = some p)
    (h : hoists u i = false) :
    passed u i = if opens u i then i :: passed u p else passed u p := by
  rw [passed, Nodes.outward_of_parent hns hp, List.takeWhile_cons, if_pos (by simp [h]),
    List.filter_cons]
  rfl

/-! ## Sites -/

/-- An identifier that binds a name. -/
structure Site where
  kind : BindingKind
  name : String
  ident : NodeId
  /-- The node where the name is declared. -/
  place : NodeId
deriving DecidableEq, Repr

namespace Site

/-- The node whose scope receives the name. -/
def home? (u : CompilationUnit) (s : Site) : Option NodeId :=
  if s.kind.isHoisted then hoister? u s.place else opener? u s.place

theorem inside_of_home? {a : Site} {n : NodeId} (h : a.home? u = some n) :
    u.nodes.Inside n a.place := by
  unfold home? at h
  split at h <;> exact Nodes.inside_of_mem_outward (List.mem_of_find?_eq_some h)

theorem opens_of_home? {a : Site} {n : NodeId} (h : a.home? u = some n) : opens u n = true := by
  unfold home? at h
  split at h
  · exact opens_of_hoists (List.find?_some h)
  · exact List.find?_some h

end Site

/-- Sites of identifiers at a place. -/
def sitesOf (u : CompilationUnit) (place : NodeId) (kind : BindingKind) (idents : List NodeId) :
    List Site :=
  idents.filterMap fun ident =>
    (u.nodes.identifier? ident).map fun name => { kind, name, ident, place }

/-- What a declarator binds. -/
def declaratorSites (u : CompilationUnit) (place : NodeId) (kind : BindingKind)
    (declarator : NodeId) : List Site :=
  match u.nodes.form? declarator with
  | some (.declarator target _) => sitesOf u place kind (u.nodes.bindingIds target)
  | _ => []

/-- What a node of a form declares where it stands, which is at `place`. -/
def outerSites (u : CompilationUnit) (place : NodeId) : Form NodeId → List Site
  | .function .declaration name _ _ _ => sitesOf u place .function name.toList
  | .classBody .declaration name _ _ => sitesOf u place .let_ name.toList
  | .bindings keyword declarators =>
    declarators.flatMap (declaratorSites u place (bindingKind keyword))
  | _ => []

/-- What the node `i` of a form declares in its own scope. -/
def innerSites (u : CompilationUnit) (i : NodeId) : Form NodeId → List Site
  | .function .expression name params _ _ =>
    sitesOf u i .param (params.flatMap u.nodes.bindingIds) ++ sitesOf u i .function name.toList
  | .function _ _ params _ _ => sitesOf u i .param (params.flatMap u.nodes.bindingIds)
  | .classBody .expression name _ _ => sitesOf u i .const name.toList
  | .catchClause param _ => sitesOf u i .caught ((param.map u.nodes.bindingIds).getD [])
  | _ => []

/-- What a node declares, in order. -/
def sitesAt (u : CompilationUnit) (i : NodeId) : List Site :=
  match u.nodes.form? i with
  | some form =>
    outerSites u ((u.nodes.parent? i).getD Nodes.root) form ++ innerSites u i form
  | none => []

/-- The sites of a unit, in the order of their declarations. -/
def sites (u : CompilationUnit) : List Site := (List.range u.nodes.size).flatMap (sitesAt u)

theorem place_of_mem_sitesOf {place : NodeId} {kind : BindingKind} {idents : List NodeId}
    {a : Site} (h : a ∈ sitesOf u place kind idents) : a.place = place := by
  obtain ⟨ident, -, h⟩ := List.mem_filterMap.1 h
  obtain ⟨name, -, rfl⟩ := Option.map_eq_some_iff.1 h
  rfl

theorem place_of_mem_outerSites {place : NodeId} {form : Form NodeId} {a : Site}
    (h : a ∈ outerSites u place form) : a.place = place := by
  unfold outerSites at h
  split at h
  · exact place_of_mem_sitesOf h
  · exact place_of_mem_sitesOf h
  · obtain ⟨d, -, h⟩ := List.mem_flatMap.1 h
    unfold declaratorSites at h
    split at h
    · exact place_of_mem_sitesOf h
    · cases h
  · cases h

theorem place_of_mem_innerSites {form : Form NodeId} {a : Site} (h : a ∈ innerSites u i form) :
    a.place = i := by
  unfold innerSites at h
  split at h
  · rcases List.mem_append.1 h with h | h <;> exact place_of_mem_sitesOf h
  · exact place_of_mem_sitesOf h
  · exact place_of_mem_sitesOf h
  · exact place_of_mem_sitesOf h
  · cases h

/-! ## Clashes -/

/-- `b` is hoisted past a scope that has `a` as a `let` or `const`. -/
def Passes (u : CompilationUnit) (b a : Site) : Prop :=
  b.kind.isHoisted = true ∧ a.kind.isBlockScoped = true ∧
    ∃ m ∈ passed u b.place, a.home? u = some m

/-- The sites go to one scope, and one of them is a `let` or `const`. -/
def Meets (u : CompilationUnit) (a b : Site) : Prop :=
  a.home? u = b.home? u ∧ (a.kind.isBlockScoped = true ∨ b.kind.isBlockScoped = true)

/-- The declaration of `b`, which follows that of `a`, is refused for it. -/
def Clash (u : CompilationUnit) (a b : Site) : Prop :=
  a.name = b.name ∧ (Meets u a b ∨ Passes u b a)

instance (b a : Site) : Decidable (Passes u b a) := inferInstanceAs (Decidable (_ ∧ _))

instance (a b : Site) : Decidable (Meets u a b) := inferInstanceAs (Decidable (_ ∧ _))

instance (a b : Site) : Decidable (Clash u a b) := inferInstanceAs (Decidable (_ ∧ _))

end Binding

end LoopClosure
