import Mathlib.Data.List.Nodup
import LoopClosure.Proofs.Scope.Moves

/-!
# Lists of uses

For each of its names a scope lists where it is used (`Scopes.listsOf`). `Scopes.useCount` is the
number of entries over all scopes. It goes up by one with each use that is added, and down by the
length of a list that is taken out, provided that no scope has two lists for one name
(`Scopes.Keyed`).

`Scopes.SameLists s t`: the scopes of `t` list what those of `s` do; scopes that `t` has besides list
nothing.
-/

namespace LoopClosure

open Syntax (NodeId)

namespace Scope

variable {c : Scope} {name : String}

/-- All uses that the scope lists. -/
def uses (c : Scope) : List NodeId := c.references.flatMap (·.2)

/-- There is one list for each name. -/
def Keyed (c : Scope) : Prop := (c.references.map (·.1)).Nodup

theorem length_flatMap_entry (name : String) (ident : NodeId) (l : List (String × List NodeId)) :
    ((l.map fun e => if e.1 = name then (e.1, e.2 ++ [ident]) else e).flatMap (·.2)).length =
      (l.flatMap (·.2)).length + (l.map (·.1)).count name := by
  induction l with
  | nil => rfl
  | cons e l ih =>
    simp only [List.map_cons, List.flatMap_cons, List.length_append, ih, List.count_cons]
    by_cases h : e.1 = name
    · simp only [h, if_true, beq_self_eq_true, List.length_append, List.length_singleton]
      omega
    · simp only [h, if_false, beq_eq_false_iff_ne.2 h, Bool.false_eq_true]
      omega

theorem length_flatMap_filter_ne {l : List (String × List NodeId)} (h : (l.map (·.1)).Nodup) :
    ((l.filter (·.1 ≠ name)).flatMap (·.2)).length + ((l.lookup name).getD []).length =
      (l.flatMap (·.2)).length := by
  induction l with
  | nil => rfl
  | cons e l ih =>
    obtain ⟨hnew, hnodup⟩ := List.nodup_cons.1 h
    have ih := ih hnodup
    by_cases he : e.1 = name
    · have hrest : l.lookup name = none := List.lookup_eq_none_iff.2 fun x hx =>
        bne_iff_ne.2 fun hname => hnew (List.mem_map.2 ⟨x, hx, (he.trans hname).symm⟩)
      rw [hrest, Option.getD_none, List.length_nil, Nat.add_zero] at ih
      rw [List.filter_cons_of_neg (by simpa using he), ih, List.lookup_cons, he, beq_self_eq_true,
        List.flatMap_cons, List.length_append]
      exact Nat.add_comm _ _
    · rw [List.filter_cons_of_pos (by simpa using he), List.lookup_cons,
        beq_eq_false_iff_ne.2 (Ne.symm he), List.flatMap_cons, List.length_append,
        List.flatMap_cons, List.length_append, ← ih, Nat.add_assoc]

theorem Keyed.addReference (h : c.Keyed) (name : String) (ident : NodeId) :
    (c.addReference name ident).Keyed := by
  unfold Keyed Scope.addReference
  split
  · have hkeys : (c.references.map fun e => if e.1 = name then (e.1, e.2 ++ [ident]) else e).map
        (·.1) = c.references.map (·.1) := by
      rw [List.map_map]
      refine List.map_congr_left fun e _ => ?_
      rw [Function.comp_apply]
      split <;> rfl
    rwa [hkeys]
  · next hany =>
    rw [List.map_append, List.nodup_append]
    refine ⟨h, List.nodup_singleton _, ?_⟩
    rintro key hkey other hother rfl
    obtain ⟨e, he, rfl⟩ := List.mem_map.1 hkey
    exact hany (List.any_eq_true.2 ⟨e, he, decide_eq_true (List.mem_singleton.1 hother)⟩)

theorem Keyed.dropReferences (h : c.Keyed) (name : String) : (c.dropReferences name).Keyed :=
  List.Nodup.sublist (List.Sublist.map _ List.filter_sublist) h

theorem length_uses_addReference (h : c.Keyed) (name : String) (ident : NodeId) :
    (c.addReference name ident).uses.length = c.uses.length + 1 := by
  unfold uses Scope.addReference
  split
  · next hany =>
    obtain ⟨e, he, hname⟩ := List.any_eq_true.1 hany
    have hmem : name ∈ c.references.map (·.1) := of_decide_eq_true hname ▸ List.mem_map_of_mem he
    exact (length_flatMap_entry name ident c.references).trans
      (congrArg _ (List.count_eq_one_of_mem h hmem))
  · rw [List.flatMap_append, List.length_append]
    rfl

theorem length_uses_dropReferences (h : c.Keyed) (name : String) :
    (c.dropReferences name).uses.length + (c.referencesTo name).length = c.uses.length :=
  length_flatMap_filter_ne h

end Scope

namespace Scopes

variable {s t r : Scopes} {x y : ScopeId} {name : String} {ident : NodeId} {f : Scope → Scope}

/-- The lists of a scope. -/
def listsOf (s : Scopes) (id : Option ScopeId) : List (String × List NodeId) :=
  ((s.get? id).map (·.references)).getD []

theorem usesOf_eq (s : Scopes) (id : Option ScopeId) (name : String) :
    s.usesOf id name = ((s.listsOf id).lookup name).getD [] := by
  unfold usesOf listsOf
  cases s.get? id <;> rfl

theorem update_of_get?_eq_none (h : s.get? (some x) = none) : s.update (some x) f = s := by
  have hsize : s.table.size ≤ x := by simpa [get?] using h
  have hsame : s.table.modify x f = s.table := by
    refine Array.ext (by simp) fun i hi hi' => ?_
    rw [Array.getElem_modify, if_neg (by omega)]
  rw [update, hsame]

/-- The number of uses that all scopes together list. -/
def useCount (s : Scopes) : Nat := (s.table.toList.flatMap (·.uses)).length

/-- No scope has two lists for one name. -/
def Keyed (s : Scopes) : Prop := ∀ x : ScopeId, ((s.listsOf x).map (·.1)).Nodup

theorem Keyed.of_get? (h : s.Keyed) {c : Scope} (hc : s.get? (some x) = some c) : c.Keyed := by
  have hx := h x
  rwa [listsOf, hc] at hx

theorem length_flatMap_modify {α β : Type} (f : α → List β) (g : α → α) {l : List α} {i : Nat}
    {a : α} (h : l[i]? = some a) : ((l.modify i g).flatMap f).length + (f a).length =
      (l.flatMap f).length + (f (g a)).length := by
  induction l generalizing i with
  | nil => cases h
  | cons b l ih =>
    cases i with
    | zero =>
      cases h
      simp only [List.modify_zero_cons, List.flatMap_cons, List.length_append]
      omega
    | succ i =>
      have hrest := ih (i := i) h
      simp only [List.modify_succ_cons, List.flatMap_cons, List.length_append]
      omega

theorem useCount_update {c : Scope} (hc : s.get? (some x) = some c) (f : Scope → Scope) :
    (s.update (some x) f).useCount + c.uses.length = s.useCount + (f c).uses.length := by
  have hget : s.table.toList[x]? = some c := by rwa [Array.getElem?_toList]
  have hsum := length_flatMap_modify Scope.uses f hget
  rwa [← Array.toList_modify] at hsum

/-! ## Tables with the same lists -/

structure SameLists (s t : Scopes) : Prop where
  listsOf : ∀ x : ScopeId, t.listsOf x = s.listsOf x
  useCount : t.useCount = s.useCount

namespace SameLists

theorem refl (s : Scopes) : SameLists s s := ⟨fun _ => rfl, rfl⟩

theorem trans (h : SameLists r s) (h' : SameLists s t) : SameLists r t :=
  ⟨fun x => (h'.listsOf x).trans (h.listsOf x), h'.useCount.trans h.useCount⟩

theorem usesOf (h : SameLists s t) (id : Option ScopeId) (name : String) :
    t.usesOf id name = s.usesOf id name := by
  cases id with
  | none => rfl
  | some x => rw [usesOf_eq, usesOf_eq, h.listsOf]

theorem keyed (h : SameLists s t) (hs : s.Keyed) : t.Keyed := fun x => by
  rw [h.listsOf]
  exact hs x

theorem update (s : Scopes) (id : Option ScopeId) (hf : ∀ c, (f c).references = c.references) :
    SameLists s (s.update id f) := by
  refine ⟨fun x => congrArg (Option.getD · []) (view_update (·.references) hf id _), ?_⟩
  cases id with
  | none => rfl
  | some y =>
    cases hc : s.get? (some y) with
    | none => rw [update_of_get?_eq_none hc]
    | some c =>
      have hsum := useCount_update hc f
      have hcount : (f c).uses = c.uses := by rw [Scope.uses, hf, Scope.uses]
      rw [hcount] at hsum
      omega

theorem alloc (s : Scopes) (kind : ScopeKind) (node : Option NodeId) (parent : Option ScopeId)
    (flags : Flags) : SameLists s (s.alloc kind node parent flags).1 := by
  have hpush : SameLists s ⟨s.table.push { kind, node, parent, flags }⟩ := by
    refine ⟨fun x => ?_, ?_⟩
    · simp only [Scopes.listsOf, get?_some, Array.getElem?_push]
      split
      · next h =>
        rw [h, Array.getElem?_eq_none (Nat.le_refl _)]
        rfl
      · rfl
    · rw [Scopes.useCount, Array.toList_push, List.flatMap_append, List.length_append]
      rfl
  exact hpush.trans (.update (f := fun p => { p with children := p.children ++ [s.size] }) _ parent
    fun _ => rfl)

theorem reparent (s : Scopes) (child : ScopeId) (parent : Option ScopeId) :
    SameLists s (s.reparent child parent) := by
  by_cases h : s.parent? child = parent
  · rw [reparent_of_eq h]
    exact .refl s
  · rw [reparent_of_ne h]
    have hdrop := SameLists.update s (s.parent? child) (f := (·.dropChild child)) fun _ => rfl
    have hmove := hdrop.trans (.update _ (some child) (f := (·.moveTo parent)) fun _ => rfl)
    exact hmove.trans (.update _ parent (f := (·.addChild child)) fun _ => rfl)

theorem reparents (s : Scopes) (children : List ScopeId) (parent : Option ScopeId) :
    SameLists s (children.foldl (fun s c => s.reparent c parent) s) := by
  induction children generalizing s with
  | nil => exact .refl s
  | cons c children ih => exact (SameLists.reparent s c parent).trans (ih _)

end SameLists

/-! ## Adding and taking out -/

theorem listsOf_update (s : Scopes) (id : Option ScopeId) (f : Scope → Scope) {c : Scope}
    (hc : s.get? (some x) = some c) :
    (s.update id f).listsOf x = if id = some x then (f c).references else s.listsOf x := by
  unfold listsOf
  rw [get?_update, hc]
  split <;> rfl

theorem Keyed.update (h : s.Keyed) (id : Option ScopeId) (hf : ∀ c : Scope, c.Keyed → (f c).Keyed) :
    (s.update id f).Keyed := by
  intro x
  cases hc : s.get? (some x) with
  | none =>
    rw [listsOf, get?_update, hc, Option.map_none, ite_self]
    exact List.nodup_nil
  | some c =>
    rw [listsOf_update s id f hc]
    split
    · exact hf c (h.of_get? hc)
    · exact h x

theorem Keyed.addReference (h : s.Keyed) (id : Option ScopeId) (name : String) (ident : NodeId) :
    (s.addReference id name ident).Keyed := h.update id fun _ hc => hc.addReference name ident

theorem Keyed.takeReferences (h : s.Keyed) (id : Option ScopeId) (name : String) :
    (s.takeReferences id name).1.Keyed := h.update id fun _ hc => hc.dropReferences name

theorem useCount_addReference (h : s.Keyed) (hx : x < s.size) (name : String) (ident : NodeId) :
    (s.addReference (some x) name ident).useCount = s.useCount + 1 := by
  obtain ⟨c, hc⟩ := get?_of_lt hx
  have hsum := useCount_update hc (·.addReference name ident)
  rw [Scope.length_uses_addReference (h.of_get? hc)] at hsum
  rw [Scopes.addReference]
  omega

theorem useCount_takeReferences (h : s.Keyed) (id : Option ScopeId) (name : String) :
    (s.takeReferences id name).1.useCount + (s.usesOf id name).length = s.useCount := by
  cases id with
  | none => rfl
  | some x =>
    cases hc : s.get? (some x) with
    | none =>
      rw [takeReferences, update_of_get?_eq_none hc, usesOf, hc]
      rfl
    | some c =>
      have hsum := useCount_update hc (·.dropReferences name)
      have hdrop := Scope.length_uses_dropReferences (h.of_get? hc) name
      rw [usesOf, hc, takeReferences]
      simp only [Option.map_some, Option.getD_some]
      omega

theorem usesOf_takeReferences (s : Scopes) (id : Option ScopeId) (x : ScopeId)
    (name other : String) : (s.takeReferences id name).1.usesOf x other =
      if id = some x ∧ other = name then [] else s.usesOf x other := by
  unfold usesOf takeReferences
  rw [get?_update]
  by_cases hid : id = some x
  · subst hid
    cases hc : s.get? (some x) with
    | none => simp
    | some c => by_cases ho : other = name <;> simp [Scope.referencesTo_dropReferences, ho]
  · simp [hid]

/-! ## Adding several uses of one name -/

variable {place : NodeId → ScopeId} {idents : List NodeId}

theorem usesOf_addReferences (hlt : ∀ i ∈ idents, place i < s.size) (x : ScopeId)
    (name other : String) :
    (idents.foldl (fun s i => s.addReference (some (place i)) name i) s).usesOf x other =
      s.usesOf x other ++ idents.filter fun i => other = name ∧ place i = x := by
  induction idents generalizing s with
  | nil => rw [List.foldl_nil, List.filter_nil, List.append_nil]
  | cons i idents ih =>
    have hrest (j : NodeId) (hj : j ∈ idents) :
        place j < (s.addReference (some (place i)) name i).size := by
      rw [addReference, size_update]
      exact hlt j (List.mem_cons_of_mem _ hj)
    rw [List.foldl_cons, ih hrest, usesOf_addReference (hlt i List.mem_cons_self)]
    by_cases h : other = name ∧ place i = x
    · rw [if_pos ⟨congrArg some h.2.symm, h.1⟩, List.filter_cons_of_pos (by simpa using h),
        List.append_assoc, List.singleton_append]
    · rw [if_neg fun e => h ⟨e.2, (Option.some.inj e.1).symm⟩, List.filter_cons_of_neg (by simpa using h)]

theorem Keyed.addReferences (h : s.Keyed) (place : NodeId → ScopeId) (name : String)
    (idents : List NodeId) :
    (idents.foldl (fun s i => s.addReference (some (place i)) name i) s).Keyed := by
  induction idents generalizing s with
  | nil => exact h
  | cons i idents ih => exact ih (h.addReference _ _ _)

theorem useCount_addReferences (h : s.Keyed) (hlt : ∀ i ∈ idents, place i < s.size)
    (name : String) :
    (idents.foldl (fun s i => s.addReference (some (place i)) name i) s).useCount =
      s.useCount + idents.length := by
  induction idents generalizing s with
  | nil => rfl
  | cons i idents ih =>
    have hrest (j : NodeId) (hj : j ∈ idents) :
        place j < (s.addReference (some (place i)) name i).size := by
      rw [addReference, size_update]
      exact hlt j (List.mem_cons_of_mem _ hj)
    rw [List.foldl_cons, ih (h.addReference _ _ _) hrest,
      useCount_addReference h (hlt i List.mem_cons_self), List.length_cons]
    omega

end Scopes

end LoopClosure
