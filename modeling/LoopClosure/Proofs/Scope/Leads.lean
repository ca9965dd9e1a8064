import LoopClosure.Proofs.Binding.Regions
import LoopClosure.Proofs.Scope.Moves

/-!
# Ways to a name

`Scopes.Leads s name target x`: looked up from scope `x`, the name is found in `target`, and the
hoisting scopes that the way passes have the mark of the name, so that nothing is declared there in
between. Scopes of wrapped bodies, which become hoisting scopes later, have no marks.

A way is as before where scopes are inserted that declare nothing (`Leads.inserted`). A declaration
on the way ends it there (`Leads.declared_or`).
-/

namespace LoopClosure.Scopes

open Syntax (NodeId)

variable {s t : Scopes} {name : String} {target target' x y : ScopeId}

/-- A hoisting scope that a name passes has the mark of the name. -/
def Marked (s : Scopes) (x : ScopeId) (name : String) : Prop :=
  s.kind? (some x) = some .hoist →
    s.hasPropagated (some x) name = true ∨ (s.flags (some x)).loopWrapper = true

theorem marked_iff : s.Marked x name ↔ ∀ c, s.get? (some x) = some c → c.kind = .hoist →
    name ∈ c.propagates ∨ c.flags.loopWrapper = true := by
  unfold Marked kind? hasPropagated flags
  cases s.get? (some x) <;> simp

theorem Marked.update {f : Scope → Scope} (h : s.Marked x name) (id : Option ScopeId)
    (hk : ∀ c, (f c).kind = c.kind) (hp : ∀ c, c.propagates ⊆ (f c).propagates)
    (hw : ∀ c, c.flags.loopWrapper = true → (f c).flags.loopWrapper = true) :
    (s.update id f).Marked x name := by
  rw [marked_iff] at h ⊢
  intro c hc hkind
  rw [get?_update] at hc
  split at hc
  · obtain ⟨d, hd, rfl⟩ := Option.map_eq_some_iff.1 hc
    exact (h d hd ((hk d).symm.trans hkind)).imp (fun hm => hp d hm) (hw d)
  · exact h c hc hkind

/-- The way up from a scope to the scope that declares a name. -/
inductive Leads (s : Scopes) (name : String) (target : ScopeId) : ScopeId → Prop
  | here (h : (s.declaration? (some target) name).isSome = true) : Leads s name target target
  | up {x p : ScopeId} (hx : (s.declaration? (some x) name).isSome = false) (hm : s.Marked x name)
    (hp : s.parent? (some x) = some p) (h : Leads s name target p) : Leads s name target x

theorem Finds.unique (h : s.Finds name target x) (h' : s.Finds name target' x) :
    target = target' := by
  induction h with
  | here hd =>
    cases h' with
    | here => rfl
    | up hx => simp [hd] at hx
  | up hx hp _ ih =>
    cases h' with
    | here hd => simp [hd] at hx
    | up _ hp' h' =>
      rw [hp, Option.some.injEq] at hp'
      exact ih (hp' ▸ h')

namespace Leads

theorem finds (h : s.Leads name target x) : s.Finds name target x := by
  induction h with
  | here h => exact .here h
  | up hx _ hp _ ih => exact .up hx hp ih

/-- From a scope that declares the name the way leads nowhere else. -/
theorem eq_of_isSome (h : s.Leads name target x)
    (hx : (s.declaration? (some x) name).isSome = true) : target = x :=
  h.finds.unique (.here hx)

theorem congr (h : s.Leads name target x)
    (hp : ∀ id : ScopeId, t.parent? (some id) = s.parent? (some id))
    (hd : ∀ id : ScopeId, (t.declaration? (some id) name).isSome =
      (s.declaration? (some id) name).isSome)
    (hm : ∀ id, s.Marked id name → t.Marked id name) : t.Leads name target x := by
  induction h with
  | here h => exact .here ((hd _).trans h)
  | up hx hmark hup _ ih => exact .up ((hd _).trans hx) (hm _ hmark) ((hp _).trans hup) ih

/-- Scopes that declare nothing are put between a scope and some of those below it. -/
theorem inserted {outer : ScopeId} (h : s.Leads name target x) (ht : Inserted s t outer)
    (hd : ∀ id : ScopeId, t.declaration? (some id) name = s.declaration? (some id) name)
    (hnone : t.declaration? (some s.size) name = none)
    (hm : ∀ id < s.size, s.Marked id name → t.Marked id name) (hnew : t.Marked s.size name) :
    t.Leads name target x := by
  induction h with
  | here h => exact .here (by rw [hd, h])
  | @up x p hx hmark hup _ ih =>
    have hlt := lt_size_of_parent? hup
    have hx' : (t.declaration? (some x) name).isSome = false := by rw [hd, hx]
    rcases ht.parent_old hlt with hsame | ⟨hmoved, hold⟩
    · exact .up hx' (hm x hlt hmark) (hsame.trans hup) ih
    · rw [hup, Option.some.injEq] at hold
      subst hold
      refine .up hx' (hm x hlt hmark) hmoved (.up ?_ hnew ht.parent_new ih)
      rw [hnone, Option.isSome_none]

/-- A name that a scope declares newly is found there on all ways that lead through the scope. -/
theorem declared_or (h : s.Leads name target x)
    (hp : ∀ id : ScopeId, t.parent? (some id) = s.parent? (some id))
    (hd : ∀ id : ScopeId, (t.declaration? (some id) name).isSome =
      (decide (id = y) || (s.declaration? (some id) name).isSome))
    (hm : ∀ id, s.Marked id name → t.Marked id name) :
    t.Leads name target x ∨ t.Leads name y x ∧ s.Leads name target y := by
  induction h with
  | here h => exact .inl (.here (by rw [hd, h, Bool.or_true]))
  | @up x p hx hmark hup hlead ih =>
    by_cases hxy : x = y
    · subst hxy
      exact .inr ⟨.here (by rw [hd, decide_eq_true rfl, Bool.true_or]), .up hx hmark hup hlead⟩
    · have hx' : (t.declaration? (some x) name).isSome = false := by
        rw [hd, decide_eq_false hxy, hx, Bool.false_or]
      have hup' := (hp x).trans hup
      rcases ih with h | ⟨h, h'⟩
      · exact .inl (.up hx' (hm x hmark) hup' h)
      · exact .inr ⟨.up hx' (hm x hmark) hup' h, h'⟩

end Leads

/-! ## Looking up -/

theorem le_of_mem_walkUp (hs : s.Grown) {n : Nat} (h : y ∈ s.walkUp n (some x)) : y ≤ x := by
  induction n generalizing x with
  | zero => cases h
  | succ n ih =>
    rw [walkUp_succ] at h
    rcases List.mem_cons.1 h with rfl | h
    · exact Nat.le_refl _
    · cases hp : s.parent? (some x) with
      | none =>
        rw [hp, walkUp_none] at h
        cases h
      | some p => exact Nat.le_trans (ih (hp ▸ h)) (Nat.le_of_lt (hs.parent_lt hp))

/-- What is passed on a way up to a scope is younger than the scope. -/
theorem lt_of_mem_takeWhile (hs : s.Grown) {n : Nat} (htarget : target ∈ s.walkUp n (some x))
    (hy : y ∈ (s.walkUp n (some x)).takeWhile (· ≠ target)) : target < y := by
  induction n generalizing x with
  | zero => cases hy
  | succ n ih =>
    rw [walkUp_succ] at htarget hy
    rw [List.takeWhile_cons] at hy
    split at hy
    · next hx =>
      have hne : target ≠ x := fun e => by simp [e] at hx
      have hup := (List.mem_cons.1 htarget).resolve_left hne
      cases hp : s.parent? (some x) with
      | none =>
        rw [hp, walkUp_none] at hup
        cases hup
      | some p =>
        rw [hp] at hup hy
        rcases List.mem_cons.1 hy with rfl | hy
        · exact Nat.lt_of_le_of_lt (le_of_mem_walkUp hs hup) (hs.parent_lt hp)
        · exact ih hup hy
    · cases hy

/-- If the nearest hoisting scopes are the same, no hoisting scope is passed. -/
theorem kind?_ne_of_closestHoist? (hs : s.Grown) (htarget : target ∈ s.walk (some x))
    (hsame : s.closestHoist? (some x) = s.closestHoist? (some target))
    (hy : y ∈ (s.walk (some x)).takeWhile (· ≠ target)) : s.kind? (some y) ≠ some .hoist := by
  intro hk
  obtain ⟨z, hz, hzy⟩ : ∃ z, s.closestHoist? (some x) = some z ∧
      z ∈ (s.walk (some x)).takeWhile (· ≠ target) := by
    obtain ⟨z, hz⟩ := Option.isSome_iff_exists.1 ((List.find?_isSome
      (p := fun z : ScopeId => decide (s.kind? z = some .hoist))).2 ⟨y, hy, decide_eq_true hk⟩)
    refine ⟨z, ?_, List.mem_of_find?_eq_some hz⟩
    have happend := List.takeWhile_append_dropWhile (p := (· ≠ target)) (l := s.walk (some x))
    rw [closestHoist?, ← happend, List.find?_append, hz, Option.some_or]
  have hle : z ≤ target := le_of_mem_walkUp hs (List.mem_of_find?_eq_some (hsame.symm.trans hz))
  exact Nat.not_le_of_lt (lt_of_mem_takeWhile hs htarget hzy) hle

/-- A lookup leads to what it finds, in a table with marks where it passes. -/
theorem leads_of_walkUp {n : Nat} (h : (s.walkUp n (some x)).find? (fun id =>
      ((s.get? (some id)).map (·.declares name)).getD false) = some target)
    (hp : ∀ id : ScopeId, t.parent? (some id) = s.parent? (some id))
    (hd : ∀ id : ScopeId, (t.declaration? (some id) name).isSome =
      (s.declaration? (some id) name).isSome)
    (hm : ∀ y ∈ (s.walkUp n (some x)).takeWhile (· ≠ target), t.Marked y name) :
    t.Leads name target x := by
  induction n generalizing x with
  | zero => cases h
  | succ n ih =>
    have htarget := List.find?_some h
    rw [declares_eq] at htarget
    rw [walkUp_succ, List.find?_cons, declares_eq] at h
    rw [walkUp_succ] at hm
    split at h
    · next hx =>
      obtain rfl := Option.some.inj h
      exact .here ((hd _).trans hx)
    · next hx =>
      have hne : x ≠ target := fun e => by simp [e, htarget] at hx
      rw [List.takeWhile_cons, if_pos (decide_eq_true hne)] at hm
      cases hup : s.parent? (some x) with
      | none =>
        rw [hup, walkUp_none] at h
        cases h
      | some p =>
        rw [hup] at h hm
        exact .up ((hd _).trans hx) (hm x List.mem_cons_self) ((hp _).trans hup)
          (ih h fun y hy => hm y (List.mem_cons_of_mem _ hy))

end LoopClosure.Scopes
