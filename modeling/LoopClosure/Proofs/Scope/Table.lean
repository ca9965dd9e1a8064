import LoopClosure.Scope.Scopes
import Mathlib.Tactic.Common

/-!
# Reading a table of scopes after a change

What the views of a table (`get?`, `parent?`, `node?`, …) show after the primitives that change it
(`update`, `alloc`, `reparent`).

- `Scope.Tame f`: `f` keeps the parent, the children and the node of a scope. Declarations, flags,
  uses and marks are changed by tame functions only.
- `Scopes.WellFormed`: parents are scopes of the table, and the children that a scope lists have it
  as their parent.
- `Scopes.SameShape s t`: the tables agree on parents, children and nodes.
-/

namespace LoopClosure

open Syntax (NodeId)

/-- `f` keeps the place of a scope in the tree. -/
structure Scope.Tame (f : Scope → Scope) : Prop where
  parent : ∀ c, (f c).parent = c.parent
  children : ∀ c, (f c).children = c.children
  node : ∀ c, (f c).node = c.node

namespace Scope

def addChild (c : Scope) (child : ScopeId) : Scope := { c with children := c.children ++ [child] }

def dropChild (c : Scope) (child : ScopeId) : Scope :=
  { c with children := c.children.filter (· ≠ child) }

def moveTo (c : Scope) (parent : Option ScopeId) : Scope := { c with parent }

@[simp] theorem children_addChild (child : ScopeId) (c : Scope) :
    (c.addChild child).children = c.children ++ [child] := rfl

@[simp] theorem children_dropChild (child : ScopeId) (c : Scope) :
    (c.dropChild child).children = c.children.filter (· ≠ child) := rfl

@[simp] theorem children_moveTo (parent : Option ScopeId) (c : Scope) :
    (c.moveTo parent).children = c.children := rfl

@[simp] theorem parent_moveTo (parent : Option ScopeId) (c : Scope) :
    (c.moveTo parent).parent = parent := rfl

end Scope

theorem lookup_map_entry {β : Type} (name other : String) (f : β → β) (l : List (String × β)) :
    (l.map fun e => if e.1 = name then (e.1, f e.2) else e).lookup other =
      if other = name then (l.lookup other).map f else l.lookup other := by
  induction l with
  | nil => simp
  | cons e l ih =>
    obtain ⟨k, v⟩ := e
    rw [List.map_cons, List.lookup_cons, List.lookup_cons]
    by_cases ho : other = k
    · subst ho
      by_cases hk : other = name <;> simp [hk]
    · have hkey : (other == (if k = name then (k, f v) else (k, v)).1) = false := by
        split <;> simpa using ho
      rw [hkey, ih, beq_false_of_ne ho]

theorem lookup_filter_ne {β : Type} (name other : String) (l : List (String × β)) :
    (l.filter (·.1 ≠ name)).lookup other = if other = name then none else l.lookup other := by
  induction l with
  | nil => simp
  | cons e l ih =>
    rw [List.filter_cons]
    by_cases hk : e.1 = name
    · rw [if_neg (by simpa using hk), ih, List.lookup_cons]
      split
      · rfl
      · rename_i h
        rw [beq_false_of_ne (hk ▸ h)]
    · rw [if_pos (by simpa using hk), List.lookup_cons, List.lookup_cons]
      by_cases ho : other = e.1
      · simp [ho, hk]
      · rw [beq_false_of_ne ho, ih]

theorem Scope.referencesTo_addReference (c : Scope) (name other : String) (ident : NodeId) :
    (c.addReference name ident).referencesTo other =
      if other = name then c.referencesTo other ++ [ident] else c.referencesTo other := by
  unfold Scope.referencesTo Scope.addReference
  by_cases hany : c.references.any (·.1 = name) = true
  · rw [if_pos hany, lookup_map_entry name other (· ++ [ident])]
    split
    · subst name
      cases hl : c.references.lookup other with
      | some idents => rfl
      | none =>
        obtain ⟨e, he, hname⟩ := List.any_eq_true.1 hany
        have hne := List.lookup_eq_none_iff.1 hl e he
        rw [decide_eq_true_eq] at hname
        simp [hname] at hne
    · rfl
  · rw [if_neg hany, List.lookup_append]
    split
    · subst name
      have hnone : c.references.lookup other = none := by
        refine List.lookup_eq_none_iff.2 fun e he => bne_iff_ne.2 fun h => hany ?_
        exact List.any_eq_true.2 ⟨e, he, decide_eq_true h.symm⟩
      simp [hnone]
    · rename_i h
      simp [List.lookup_cons, beq_false_of_ne h]

theorem Scope.referencesTo_dropReferences (c : Scope) (name other : String) :
    (c.dropReferences name).referencesTo other =
      if other = name then [] else c.referencesTo other := by
  unfold Scope.referencesTo Scope.dropReferences
  dsimp only
  rw [lookup_filter_ne]
  split <;> rfl

theorem Scope.Tame.addReference (name : String) (ident : NodeId) :
    Tame (·.addReference name ident) := by
  refine ⟨fun c => ?_, fun c => ?_, fun c => ?_⟩ <;>
    · unfold Scope.addReference
      split <;> rfl

namespace Scopes

variable {s t : Scopes} {f : Scope → Scope}

/-! ## Views -/

/-- The scopes that a scope lists below it. -/
def childIds (s : Scopes) (id : Option ScopeId) : List ScopeId :=
  ((s.get? id).map (·.children)).getD []

/-- The uses of a name that a scope lists. -/
def usesOf (s : Scopes) (id : Option ScopeId) (name : String) : List NodeId :=
  ((s.get? id).map (·.referencesTo name)).getD []

theorem get?_some (s : Scopes) (id : ScopeId) : s.get? (some id) = s.table[id]? := rfl

theorem get?_eq_none {id : ScopeId} (h : s.size ≤ id) : s.get? (some id) = none := by
  simpa [get?, size] using h

theorem get?_of_lt {id : ScopeId} (h : id < s.size) : ∃ c, s.get? (some id) = some c :=
  Option.isSome_iff_exists.1 (by simpa [get?, size] using h)

theorem lt_size_of_get? {id : ScopeId} {c : Scope} (h : s.get? (some id) = some c) :
    id < s.size := by
  by_contra hn
  rw [get?_eq_none (Nat.le_of_not_lt hn)] at h
  cases h

theorem lt_size_of_parent? {id p : ScopeId} (h : s.parent? (some id) = some p) : id < s.size := by
  obtain ⟨c, hc, -⟩ := Option.bind_eq_some_iff.1 h
  exact lt_size_of_get? hc

theorem lt_size_of_node? {id : ScopeId} {n : NodeId} (h : s.node? (some id) = some n) :
    id < s.size := by
  obtain ⟨c, hc, -⟩ := Option.bind_eq_some_iff.1 h
  exact lt_size_of_get? hc

theorem lt_size_of_declaration? {id : ScopeId} {name : String} {d : Declaration}
    (h : s.declaration? (some id) name = some d) : id < s.size := by
  obtain ⟨c, hc, -⟩ := Option.bind_eq_some_iff.1 h
  exact lt_size_of_get? hc

theorem declares_eq (s : Scopes) (id : Option ScopeId) (name : String) :
    ((s.get? id).map (·.declares name)).getD false = (s.declaration? id name).isSome := by
  rw [declaration?]
  cases s.get? id <;> rfl

theorem not_declares_iff {s : Scopes} {id : Option ScopeId} {name : String} :
    ¬((s.get? id).map (·.declares name)).getD false = true ↔ s.declaration? id name = none := by
  rw [declares_eq, Bool.not_eq_true, Option.isSome_eq_false_iff, Option.isNone_iff_eq_none]

/-! ## Updates -/

theorem get?_update (s : Scopes) (id j : Option ScopeId) (f : Scope → Scope) :
    (s.update id f).get? j = if id = j then (s.get? j).map f else s.get? j := by
  cases j with
  | none => cases id <;> simp [get?]
  | some j =>
    cases id with
    | none => simp [update]
    | some id => simp [update, get?, Array.getElem?_modify]

theorem get?_update_self (s : Scopes) (id : Option ScopeId) (f : Scope → Scope) :
    (s.update id f).get? id = (s.get? id).map f := by
  rw [get?_update, if_pos rfl]

theorem get?_update_of_ne {id j : Option ScopeId} (h : id ≠ j) :
    (s.update id f).get? j = s.get? j := by
  rw [get?_update, if_neg h]

@[simp] theorem size_update (s : Scopes) (id : Option ScopeId) (f : Scope → Scope) :
    (s.update id f).size = s.size := by
  cases id <;> simp [update, size]

/-- A view of single scopes that `f` does not change is not changed by an update with `f`. -/
theorem view_update {α : Type} (view : Scope → α) (hf : ∀ c, view (f c) = view c)
    (id j : Option ScopeId) : ((s.update id f).get? j).map view = (s.get? j).map view := by
  rw [get?_update]
  split
  · rw [Option.map_map]
    exact congrArg (fun g => (s.get? j).map g) (funext hf)
  · rfl

theorem bind_eq_of_map_eq {α : Type} {view : Scope → Option α} {o o' : Option Scope}
    (h : o.map view = o'.map view) : o.bind view = o'.bind view := by
  cases o <;> cases o' <;> simp_all

theorem bind_view_update {α : Type} (view : Scope → Option α) (hf : ∀ c, view (f c) = view c)
    (id j : Option ScopeId) : ((s.update id f).get? j).bind view = (s.get? j).bind view :=
  bind_eq_of_map_eq (view_update view hf id j)

/-- A view of flags that `f` does not change is not changed by an update with `f`. -/
theorem flags_view_update {α : Type} (view : Flags → α) (hf : ∀ c, view (f c).flags = view c.flags)
    (id j : Option ScopeId) : view ((s.update id f).flags j) = view (s.flags j) := by
  have h := view_update (s := s) (fun c => view c.flags) hf id j
  unfold Scopes.flags
  cases hu : (s.update id f).get? j <;> cases hs : s.get? j <;> simp_all

theorem declaration?_update {name : String}
    (hf : ∀ c, (f c).declaration? name = c.declaration? name) (id j : Option ScopeId) :
    (s.update id f).declaration? j name = s.declaration? j name :=
  bind_view_update (·.declaration? name) hf id j

/-- A declaration is put behind those that are there. -/
theorem declaration?_append {x y : ScopeId} {name other : String} {e : Declaration}
    (hy : y < s.size) :
    (s.update (some y) (·.append other e)).declaration? (some x) name =
      if x = y ∧ name = other then (s.declaration? (some x) name).or (some e)
      else s.declaration? (some x) name := by
  rw [declaration?, get?_update]
  by_cases hxy : y = x
  · subst hxy
    obtain ⟨c, hc⟩ := get?_of_lt hy
    rw [if_pos rfl, declaration?, hc, Option.map_some, Option.bind_some, Option.bind_some]
    have happend : (c.append other e).declaration? name =
        (c.declaration? name).or (if name = other then some e else none) := by
      rw [Scope.declaration?, Scope.append, List.lookup_append, List.lookup_cons, List.lookup_nil]
      by_cases hn : name = other
      · rw [if_pos hn, beq_iff_eq.2 hn]
        rfl
      · rw [if_neg hn, beq_eq_false_iff_ne.2 hn]
        rfl
    rw [happend]
    by_cases hn : name = other <;> simp [hn]
  · rw [if_neg (fun h => hxy (Option.some.inj h)), if_neg (fun h => hxy h.1.symm), declaration?]

theorem isSome_declaration?_append {x y : ScopeId} {name other : String} {e : Declaration}
    (hy : y < s.size) :
    ((s.update (some y) (·.append other e)).declaration? (some x) name).isSome =
      (decide (x = y ∧ name = other) || (s.declaration? (some x) name).isSome) := by
  rw [declaration?_append hy]
  by_cases h : x = y ∧ name = other
  · rw [if_pos h, decide_eq_true h]
    cases s.declaration? (some x) name <;> rfl
  · rw [if_neg h, decide_eq_false h, Bool.false_or]

theorem usesOf_update {name : String}
    (hf : ∀ c, (f c).referencesTo name = c.referencesTo name) (id j : Option ScopeId) :
    (s.update id f).usesOf j name = s.usesOf j name := by
  unfold usesOf
  rw [view_update (·.referencesTo name) hf]

@[simp] theorem usesOf_setKind (id j : Option ScopeId) (kind : ScopeKind) (name : String) :
    (s.setKind id kind).usesOf j name = s.usesOf j name :=
  usesOf_update (f := fun c => { c with kind }) (fun _ => rfl) id j

@[simp] theorem usesOf_addFlags (id j : Option ScopeId) (flags : Flags) (name : String) :
    (s.addFlags id flags).usesOf j name = s.usesOf j name :=
  usesOf_update (f := fun c => { c with flags := c.flags.union flags }) (fun _ => rfl) id j

theorem mem_usesOf_addReference {id j : Option ScopeId} {name other : String} {ident x : NodeId}
    (h : x ∈ (s.addReference id name ident).usesOf j other) :
    x ∈ s.usesOf j other ∨ (x = ident ∧ j = id ∧ other = name) := by
  unfold usesOf addReference at h
  rw [get?_update] at h
  split at h
  · subst j
    cases hc : s.get? id with
    | none => simp [hc] at h
    | some c =>
      simp only [hc, Option.map_some, Option.getD_some, Scope.referencesTo_addReference] at h
      split at h
      · simp only [usesOf, hc, Option.map_some, Option.getD_some]
        simpa [‹other = name›] using h
      · exact .inl (by simpa [usesOf, hc] using h)
  · exact .inl h

theorem usesOf_addReference {id : ScopeId} (hid : id < s.size) (j : Option ScopeId)
    (name other : String) (ident : NodeId) :
    (s.addReference (some id) name ident).usesOf j other =
      if j = some id ∧ other = name then s.usesOf j other ++ [ident] else s.usesOf j other := by
  unfold usesOf addReference
  rw [get?_update]
  by_cases hj : some id = j
  · subst j
    obtain ⟨c, hc⟩ := get?_of_lt hid
    simp only [hc, Option.map_some, Option.getD_some, Scope.referencesTo_addReference, if_true,
      true_and]
  · rw [if_neg hj, if_neg fun h => hj h.1.symm]

theorem usesOf_subset_addReference (id j : Option ScopeId) (name other : String) (ident : NodeId) :
    s.usesOf j other ⊆ (s.addReference id name ident).usesOf j other := by
  cases id with
  | none => exact fun _ h => h
  | some id =>
    by_cases hid : id < s.size
    · rw [usesOf_addReference hid]
      split
      · exact List.subset_append_left _ _
      · exact List.Subset.refl _
    · have hnone := get?_eq_none (Nat.le_of_not_lt hid)
      unfold usesOf addReference
      rw [get?_update]
      split
      · next hj => simp [← hj, hnone]
      · exact List.Subset.refl _

theorem mem_usesOf_takeReferences {id j : Option ScopeId} {name other : String} {x : NodeId} :
    x ∈ (s.takeReferences id name).1.usesOf j other ↔
      x ∈ s.usesOf j other ∧ ¬(j = id ∧ other = name) := by
  unfold usesOf takeReferences
  rw [get?_update]
  by_cases hj : id = j
  · subst j
    cases hc : s.get? id with
    | none => simp
    | some c => by_cases hn : other = name <;> simp [Scope.referencesTo_dropReferences, hn]
  · simp [hj, Ne.symm hj]

/-- A declaration that is accepted adds an entry to the scope that receives it, unless the name is
there. -/
theorem declare_cases {id target : Option ScopeId} {name : String} {kind : BindingKind}
    {node : Option NodeId} {fromPos : Option Nat}
    (h : s.declare id name kind node fromPos = .ok (t, target)) :
    t = s ∨ ∃ j c, target = some j ∧ s.get? (some j) = some c ∧ c.declaration? name = none ∧
      t = s.update (some j) (·.append name { kind, node, fromPos }) := by
  unfold declare at h
  simp only at h
  generalize (if kind.isHoisted = true then s.hoistTarget name (s.walk id) else .ok id) = e at h
  split at h
  · cases h
  · cases h
    exact .inl rfl
  · split at h
    · cases h
      exact .inl rfl
    · split at h
      · split at h
        · cases h
        · cases h
          exact .inl rfl
      · cases h
        exact .inr ⟨_, _, rfl, ‹_›, ‹_›, rfl⟩

/-- Both tables have the same tree of scopes. -/
structure SameShape (s t : Scopes) : Prop where
  size : t.size = s.size
  parent? : ∀ id, t.parent? id = s.parent? id
  childIds : ∀ id, t.childIds id = s.childIds id
  node? : ∀ id, t.node? id = s.node? id

namespace SameShape

theorem refl (s : Scopes) : SameShape s s := ⟨rfl, fun _ => rfl, fun _ => rfl, fun _ => rfl⟩

theorem trans {r : Scopes} (h : SameShape r s) (h' : SameShape s t) : SameShape r t where
  size := h'.size.trans h.size
  parent? id := (h'.parent? id).trans (h.parent? id)
  childIds id := (h'.childIds id).trans (h.childIds id)
  node? id := (h'.node? id).trans (h.node? id)

theorem update (s : Scopes) (id : Option ScopeId) (hf : Scope.Tame f) :
    SameShape s (s.update id f) where
  size := size_update s id f
  parent? j := bind_view_update (·.parent) hf.parent id j
  childIds j := congrArg (Option.getD · []) (view_update (·.children) hf.children id j)
  node? j := bind_view_update (·.node) hf.node id j

end SameShape

/-! ## Allocation -/

section Alloc

variable {kind : ScopeKind} {node : Option NodeId} {parent : Option ScopeId} {flags : Flags}

@[simp] theorem snd_alloc : (s.alloc kind node parent flags).2 = s.size := rfl

@[simp] theorem size_alloc : (s.alloc kind node parent flags).1.size = s.size + 1 := by
  simp only [alloc, size_update]
  simp [size]

/-- The scope that an allocation adds. -/
theorem get?_alloc_size (hp : parent ≠ some s.size) :
    (s.alloc kind node parent flags).1.get? (some s.size) = some { kind, node, parent, flags } := by
  simp only [alloc]
  rw [get?_update_of_ne hp]
  simp [get?, size]

/-- Of the old scopes an allocation changes only the parent, which lists one more child. -/
theorem get?_alloc_of_ne {id : ScopeId} (h : id ≠ s.size) :
    (s.alloc kind node parent flags).1.get? (some id) =
      if parent = some id then
        (s.get? (some id)).map fun p => { p with children := p.children ++ [s.size] }
      else s.get? (some id) := by
  have hpush : (Scopes.mk (s.table.push { kind, node, parent, flags })).get? (some id) =
      s.get? (some id) := by
    simp only [get?_some, size] at h ⊢
    rw [Array.getElem?_push, if_neg h]
  simp only [alloc, get?_update, hpush]

theorem view_alloc_of_ne {α : Type} (view : Scope → α)
    (hv : ∀ c l, view { c with children := l } = view c) {id : ScopeId} (h : id ≠ s.size) :
    ((s.alloc kind node parent flags).1.get? (some id)).map view =
      (s.get? (some id)).map view := by
  rw [get?_alloc_of_ne h]
  split
  · cases s.get? (some id) <;> simp [hv]
  · rfl

theorem parent?_alloc (hp : parent ≠ some s.size) (id : ScopeId) :
    (s.alloc kind node parent flags).1.parent? (some id) =
      if id = s.size then parent else s.parent? (some id) := by
  split
  · subst id
    simp [parent?, get?_alloc_size hp]
  · exact bind_eq_of_map_eq (view_alloc_of_ne (·.parent) (fun _ _ => rfl) ‹_›)

theorem node?_alloc (hp : parent ≠ some s.size) (id : ScopeId) :
    (s.alloc kind node parent flags).1.node? (some id) =
      if id = s.size then node else s.node? (some id) := by
  split
  · subst id
    simp [node?, get?_alloc_size hp]
  · exact bind_eq_of_map_eq (view_alloc_of_ne (·.node) (fun _ _ => rfl) ‹_›)

theorem flags_alloc (hp : parent ≠ some s.size) (id : ScopeId) :
    (s.alloc kind node parent flags).1.flags (some id) =
      if id = s.size then flags else s.flags (some id) := by
  split
  · subst id
    simp [Scopes.flags, get?_alloc_size hp]
  · unfold Scopes.flags
    rw [view_alloc_of_ne (·.flags) (fun _ _ => rfl) ‹_›]

theorem kind?_alloc (hp : parent ≠ some s.size) (id : ScopeId) :
    (s.alloc kind node parent flags).1.kind? (some id) =
      if id = s.size then some kind else s.kind? (some id) := by
  split
  · subst id
    simp [kind?, get?_alloc_size hp]
  · exact view_alloc_of_ne (·.kind) (fun _ _ => rfl) ‹_›

theorem declaration?_alloc (hp : parent ≠ some s.size) (id : ScopeId) (name : String) :
    (s.alloc kind node parent flags).1.declaration? (some id) name =
      s.declaration? (some id) name := by
  by_cases h : id = s.size
  · subst id
    simp [declaration?, get?_alloc_size hp, get?_eq_none, Scope.declaration?]
  · exact bind_eq_of_map_eq (view_alloc_of_ne (·.declaration? name) (fun _ _ => rfl) h)

theorem usesOf_alloc (hp : parent ≠ some s.size) (id : ScopeId) (name : String) :
    (s.alloc kind node parent flags).1.usesOf (some id) name = s.usesOf (some id) name := by
  by_cases h : id = s.size
  · subst id
    simp [usesOf, get?_alloc_size hp, get?_eq_none, Scope.referencesTo]
  · unfold usesOf
    rw [view_alloc_of_ne (·.referencesTo name) (fun _ _ => rfl) h]

theorem hasPropagated_alloc (hp : parent ≠ some s.size) (id : ScopeId) (name : String) :
    (s.alloc kind node parent flags).1.hasPropagated (some id) name =
      s.hasPropagated (some id) name := by
  by_cases h : id = s.size
  · subst h
    simp [hasPropagated, get?_alloc_size hp, get?_eq_none]
  · unfold hasPropagated
    rw [view_alloc_of_ne (fun c => decide (name ∈ c.propagates)) (fun _ _ => rfl) h]

theorem childIds_alloc (hp : parent ≠ some s.size) (id : ScopeId) :
    (s.alloc kind node parent flags).1.childIds (some id) =
      if parent = some id ∧ id < s.size then s.childIds (some id) ++ [s.size]
      else s.childIds (some id) := by
  by_cases h : id = s.size
  · subst id
    simp [childIds, get?_alloc_size hp, get?_eq_none]
  · unfold childIds
    rw [get?_alloc_of_ne h]
    by_cases hlt : id < s.size
    · obtain ⟨c, hc⟩ := get?_of_lt hlt
      by_cases hpid : parent = some id <;> simp [hpid, hlt, hc]
    · rw [get?_eq_none (Nat.le_of_not_lt hlt)]
      simp [hlt]

end Alloc

/-! ## Moving a scope -/

section Reparent

variable {child : ScopeId} {parent : Option ScopeId}

/-- A move in three updates: of the old parent, of the scope itself and of the new parent. -/
theorem reparent_of_ne (h : s.parent? child ≠ parent) : s.reparent child parent =
    ((s.update (s.parent? child) (·.dropChild child)).update child (·.moveTo parent)).update parent
      (·.addChild child) :=
  if_neg h

theorem reparent_of_eq (h : s.parent? child = parent) : s.reparent child parent = s := if_pos h

@[simp] theorem size_reparent : (s.reparent child parent).size = s.size := by
  by_cases h : s.parent? child = parent
  · rw [reparent_of_eq h]
  · rw [reparent_of_ne h]
    simp only [size_update]

/-- A view that shows neither parent nor children is not changed by a move. -/
theorem view_reparent {α : Type} (view : Scope → α)
    (hc : ∀ c l, view { c with children := l } = view c)
    (hp : ∀ c p, view { c with parent := p } = view c) (id : Option ScopeId) :
    ((s.reparent child parent).get? id).map view = (s.get? id).map view := by
  by_cases h : s.parent? child = parent
  · rw [reparent_of_eq h]
  · rw [reparent_of_ne h, view_update (f := (·.addChild child)) view (fun c => hc c _),
      view_update (f := (·.moveTo parent)) view (fun c => hp c _),
      view_update (f := (·.dropChild child)) view (fun c => hc c _)]

theorem flags_reparent (id : Option ScopeId) :
    (s.reparent child parent).flags id = s.flags id := by
  unfold Scopes.flags
  rw [view_reparent (·.flags) (fun _ _ => rfl) (fun _ _ => rfl)]

theorem parent?_reparent (hlt : child < s.size) (id : ScopeId) :
    (s.reparent child parent).parent? (some id) =
      if id = child then parent else s.parent? (some id) := by
  by_cases h : s.parent? child = parent
  · rw [reparent_of_eq h]
    split
    · subst id
      exact h
    · rfl
  · rw [reparent_of_ne h, parent?,
      bind_view_update (f := (·.addChild child)) (·.parent) (fun _ => rfl), get?_update]
    by_cases hid : id = child
    · subst id
      obtain ⟨c, hc⟩ := get?_of_lt (s := s.update (s.parent? child) (·.dropChild child))
        (by simpa using hlt)
      simp [hc]
    · rw [if_neg (by simpa using Ne.symm hid), if_neg hid,
        bind_view_update (f := (·.dropChild child)) (·.parent) (fun _ => rfl)]
      rfl

/-- A child that is listed after a move was listed there before, or is the scope that moved. -/
theorem mem_childIds_reparent (h : s.parent? child ≠ parent) {id c : ScopeId}
    (hc : c ∈ (s.reparent child parent).childIds (some id)) :
    (c = child ∧ parent = some id) ∨
      (c ∈ s.childIds (some id) ∧ (s.parent? child = some id → c ≠ child)) := by
  rw [reparent_of_ne h] at hc
  obtain ⟨x, hx⟩ | hn : (∃ x, s.get? (some id) = some x) ∨ s.get? (some id) = none := by
    cases s.get? (some id) <;> simp
  · simp only [childIds, get?_update, hx] at hc ⊢
    by_cases hp : parent = some id
    · have ho : s.parent? child ≠ some id := fun e => h (e.trans hp.symm)
      rw [if_pos hp, if_neg ho] at hc
      by_cases hid : child = id
      · subst id
        simpa [hp, ho, or_comm] using hc
      · simpa [hp, hid, ho, or_comm, eq_comm] using hc
    · rw [if_neg hp] at hc
      by_cases hid : child = id <;> by_cases ho : s.parent? child = some id <;>
        simp_all
  · simp [childIds, get?_update, hn] at hc

end Reparent

/-! ## Well-formed tables -/

structure WellFormed (s : Scopes) : Prop where
  parent_lt : ∀ {id p : ScopeId}, s.parent? (some id) = some p → p < s.size
  parent_child : ∀ {id c : ScopeId}, c ∈ s.childIds (some id) → s.parent? (some c) = some id

namespace WellFormed

theorem of_sameShape (h : SameShape s t) (hs : WellFormed s) : WellFormed t where
  parent_lt hp := by rw [h.size]; exact hs.parent_lt (h.parent? _ ▸ hp)
  parent_child hc := by rw [h.parent?]; exact hs.parent_child (h.childIds _ ▸ hc)

theorem empty : WellFormed {} where
  parent_lt h := by simp [Scopes.parent?, get?] at h
  parent_child h := by simp [childIds, get?] at h

theorem alloc (hs : WellFormed s) {kind : ScopeKind} {node : Option NodeId}
    {parent : Option ScopeId} {flags : Flags} (hp : ∀ p, parent = some p → p < s.size) :
    WellFormed (s.alloc kind node parent flags).1 := by
  have hne : parent ≠ some s.size := fun e => Nat.lt_irrefl _ (hp _ e)
  refine ⟨fun {id p} h => ?_, fun {id c} h => ?_⟩
  · rw [parent?_alloc hne] at h
    rw [size_alloc]
    split at h
    · exact Nat.lt_succ_of_lt (hp p h)
    · exact Nat.lt_succ_of_lt (hs.parent_lt h)
  · rw [childIds_alloc hne] at h
    rw [parent?_alloc hne]
    have hold : c ∈ s.childIds (some id) → (if c = s.size then parent else s.parent? (some c)) =
        some id := by
      intro hc
      have := hs.parent_child hc
      rw [if_neg (Nat.ne_of_lt (lt_size_of_parent? this)), this]
    split at h
    · rcases List.mem_append.1 h with hc | hc
      · exact hold hc
      · rw [if_pos (List.mem_singleton.1 hc)]
        exact ‹parent = some id ∧ _›.1
    · exact hold h

theorem reparent (hs : WellFormed s) {child : ScopeId} (hc : child < s.size)
    {parent : Option ScopeId} (hp : ∀ p, parent = some p → p < s.size) :
    WellFormed (s.reparent child parent) := by
  by_cases h : s.parent? child = parent
  · rwa [reparent_of_eq h]
  refine ⟨fun {id p} hid => ?_, fun {id c} hid => ?_⟩
  · rw [parent?_reparent hc] at hid
    rw [size_reparent]
    split at hid
    · exact hp p hid
    · exact hs.parent_lt hid
  · rw [parent?_reparent hc]
    rcases mem_childIds_reparent h hid with ⟨rfl, rfl⟩ | ⟨hmem, hne⟩
    · rw [if_pos rfl]
    · have hpar := hs.parent_child hmem
      rw [if_neg, hpar]
      rintro rfl
      exact hne hpar rfl

end WellFormed

end Scopes

end LoopClosure
