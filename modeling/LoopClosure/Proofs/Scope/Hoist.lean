import LoopClosure.Proofs.Scope.Uses

/-!
# What keeps a `var` from being declared

A `var` goes up to the nearest hoisting scope. It is refused exactly if a scope on that way has a
`let` or `const` of the name (`declare_var_iff`), and where it is accepted nothing else is refused
for it later (`VarsAdded`).
-/

namespace LoopClosure.Scopes

open Syntax (NodeId)

variable {s t r : Scopes} {id : Option ScopeId} {j : ScopeId} {name other : String}

/-- The scope has a `let` or `const` of the name. -/
def bars (s : Scopes) (id : Option ScopeId) (name : String) : Bool :=
  ((s.declaration? id name).map (·.kind.isBlockScoped)).getD false

/-- The way of a `var`: up to the nearest hoisting scope, which is part of it. -/
def hoistWay (s : Scopes) (id : Option ScopeId) : List ScopeId :=
  (s.walk id).takeWhile (fun (j : ScopeId) => s.kind? j ≠ some .hoist) ++ (s.closestHoist? id).toList

/-- On the way of a `var` lies a `let` or `const` of its name. -/
def Barred (s : Scopes) (id : Option ScopeId) (name : String) : Prop :=
  ∃ j ∈ s.hoistWay id, s.bars (some j) name = true

/-! ## Declaring -/

theorem bars_iff {c : Scope} (hc : s.get? id = some c) : s.bars id name = true ↔
    ∃ d, c.declaration? name = some d ∧ d.kind.isBlockScoped = true := by
  rw [bars, declaration?, hc, Option.bind_some]
  cases c.declaration? name <;> simp

/-- A walk in a well-formed table shows scopes of the table. -/
theorem get?_of_mem_walkUp (hs : s.WellFormed) {n : Nat} (hid : ∀ i, id = some i → i < s.size)
    (hj : j ∈ s.walkUp n id) : ∃ c, s.get? (some j) = some c := by
  induction n generalizing id with
  | zero => cases hj
  | succ n ih =>
    cases id with
    | none => cases hj
    | some i =>
      rcases List.mem_cons.1 hj with rfl | hj
      · exact get?_of_lt (hid j rfl)
      · exact ih (fun p hp => hs.parent_lt hp) hj

/-- A walk from what is no scope of the table ends there. -/
theorem walk_of_get?_eq_none {i : ScopeId} (h : s.get? (some i) = none) : s.walk (some i) = [i] := by
  have hp : s.parent? (some i) = none := by rw [parent?, h, Option.bind_none]
  have hwalk : s.walk (some i) = i :: s.walkUp 9999 (s.parent? (some i)) := rfl
  rw [hwalk, hp]
  rfl

/-- A hoisted name goes to the first hoisting scope, or is stopped before. -/
theorem hoistTarget_cases (name : String) {ids : List ScopeId}
    (hids : ∀ j ∈ ids.takeWhile (fun (j : ScopeId) => s.kind? j ≠ some .hoist),
      ∃ c, s.get? (some j) = some c) :
    (s.hoistTarget name ids =
        .ok (ids.find? fun (j : ScopeId) => s.kind? j = some .hoist) ∧
      ∀ j ∈ ids.takeWhile (fun (j : ScopeId) => s.kind? j ≠ some .hoist),
        s.bars (some j) name = false) ∨
    ((∃ d, s.hoistTarget name ids = .error d) ∧
      ∃ j ∈ ids.takeWhile (fun (j : ScopeId) => s.kind? j ≠ some .hoist),
        s.bars (some j) name = true) := by
  induction ids with
  | nil => exact .inl ⟨rfl, by simp⟩
  | cons j ids ih =>
    unfold hoistTarget
    by_cases hhoist : s.kind? (some j) = some .hoist
    · obtain ⟨c, hc, hkind⟩ := Option.map_eq_some_iff.1 hhoist
      left
      simp [hc, Scope.isHoist, hkind, hhoist]
    · have hnot : decide (s.kind? (some j) ≠ some .hoist) = true := decide_eq_true hhoist
      have hfind : decide (s.kind? (some j) = some .hoist) = false := decide_eq_false hhoist
      have htake : (j :: ids).takeWhile (fun (j : ScopeId) => s.kind? j ≠ some .hoist) =
          j :: ids.takeWhile (fun (j : ScopeId) => s.kind? j ≠ some .hoist) :=
        List.takeWhile_cons_of_pos hnot
      rw [htake] at hids ⊢
      obtain ⟨c, hc⟩ := hids j List.mem_cons_self
      have hkind : c.kind ≠ .hoist := fun hk => hhoist (by rw [kind?, hc, Option.map_some, hk])
      have hbars : s.bars (some j) name =
          ((c.declaration? name).map (·.kind.isBlockScoped)).getD false := by
        rw [bars, declaration?, hc, Option.bind_some]
      simp only [hc, Scope.isHoist, hkind, decide_false, Bool.false_eq_true, if_false,
        List.find?_cons, hfind]
      rw [← hbars]
      cases hb : s.bars (some j) name with
      | true => exact .inr ⟨⟨_, rfl⟩, j, List.mem_cons_self, hb⟩
      | false =>
        rcases ih fun k hk => hids k (List.mem_cons_of_mem _ hk) with ⟨heq, hall⟩ | ⟨he, k, hk, hkb⟩
        · refine .inl ⟨heq, fun k hk => ?_⟩
          rcases List.mem_cons.1 hk with rfl | hk
          · exact hb
          · exact hall k hk
        · exact .inr ⟨he, k, List.mem_cons_of_mem _ hk, hkb⟩

/-- What is declared at the scope that receives it: a name that is there is refused or kept, another
one is put behind the others. -/
theorem declare_of_target {c : Scope} (kind : BindingKind) (node : Option NodeId)
    (fromPos : Option Nat)
    (h : (if kind.isHoisted then s.hoistTarget name (s.walk id) else .ok id) = .ok (some j))
    (hc : s.get? (some j) = some c) :
    (∃ d, c.declaration? name = some d ∧ (d.kind.isBlockScoped || kind.isBlockScoped) = true ∧
      s.declare id name kind node fromPos = .error ⟨name, j⟩) ∨
    (∃ d, c.declaration? name = some d ∧ (d.kind.isBlockScoped || kind.isBlockScoped) = false ∧
      s.declare id name kind node fromPos = .ok (s, some j)) ∨
    (c.declaration? name = none ∧ s.declare id name kind node fromPos =
      .ok (s.update (some j) (·.append name { kind, node, fromPos }), some j)) := by
  unfold declare
  simp only [h, hc]
  cases hd : c.declaration? name with
  | none => exact .inr (.inr ⟨rfl, rfl⟩)
  | some d =>
    cases hk : d.kind.isBlockScoped || kind.isBlockScoped with
    | true => exact .inl ⟨d, rfl, hk, if_pos hk⟩
    | false => exact .inr (.inl ⟨d, rfl, hk, if_neg (Bool.eq_false_iff.1 hk)⟩)

/-- What is declared at the scope that a `var` goes to. -/
theorem declare_var_of_target {c : Scope} (h : s.hoistTarget name (s.walk id) = .ok (some j))
    (hc : s.get? (some j) = some c) :
    (s.bars (some j) name = true ∧ ∃ d, s.declare id name .var none none = .error d) ∨
      (s.bars (some j) name = false ∧
        ∃ t target, s.declare id name .var none none = .ok (t, target)) := by
  have hbars : s.bars (some j) name =
      ((c.declaration? name).map (·.kind.isBlockScoped)).getD false := by
    rw [bars, declaration?, hc, Option.bind_some]
  rcases declare_of_target .var none none h hc with
    ⟨d, hd, hk, heq⟩ | ⟨d, hd, hk, heq⟩ | ⟨hd, heq⟩
  · exact .inl ⟨by simpa [hbars, hd, BindingKind.isBlockScoped] using hk, _, heq⟩
  · exact .inr ⟨by simpa [hbars, hd, BindingKind.isBlockScoped] using hk, _, _, heq⟩
  · exact .inr ⟨by simp [hbars, hd], _, _, heq⟩

theorem declare_var_cases_of_lt (hs : s.WellFormed) (hid : ∀ i, id = some i → i < s.size)
    (name : String) :
    (¬s.Barred id name ∧ ∃ t target, s.declare id name .var none none = .ok (t, target)) ∨
      (s.Barred id name ∧ ∃ d, s.declare id name .var none none = .error d) := by
  have hwalk (j : ScopeId) (hj : j ∈ s.walk id) : ∃ c, s.get? (some j) = some c :=
    get?_of_mem_walkUp hs hid hj
  rcases hoistTarget_cases name fun j hj => hwalk j (List.takeWhile_subset _ hj) with
    ⟨heq, hall⟩ | ⟨⟨d, he⟩, j, hj, hb⟩
  · -- The scopes below the hoisting scope bar nothing.
    have hbarred : s.Barred id name ↔ ∃ j, s.closestHoist? id = some j ∧
        s.bars (some j) name = true := by
      constructor
      · rintro ⟨j, hj, hb⟩
        rcases List.mem_append.1 hj with hj | hj
        · rw [hall j hj] at hb
          cases hb
        · exact ⟨j, Option.mem_toList.1 hj, hb⟩
      · rintro ⟨j, hj, hb⟩
        exact ⟨j, List.mem_append_right _ (Option.mem_toList.2 hj), hb⟩
    rw [hbarred]
    change s.hoistTarget name (s.walk id) = .ok (s.closestHoist? id) at heq
    cases htarget : s.closestHoist? id with
    | none =>
      refine .inl ⟨by simp, s, none, ?_⟩
      simp only [declare, BindingKind.isHoisted, if_true, heq, htarget]
    | some j =>
      obtain ⟨c, hc⟩ := hwalk j (List.mem_of_find?_eq_some htarget)
      rcases declare_var_of_target (heq.trans (congrArg _ htarget)) hc with ⟨hb, hd⟩ | ⟨hb, ht⟩
      · exact .inr ⟨⟨j, rfl, hb⟩, hd⟩
      · exact .inl ⟨by simp [hb], ht⟩
  · refine .inr ⟨⟨j, List.mem_append_left _ hj, hb⟩, d, ?_⟩
    simp only [declare, BindingKind.isHoisted, if_true, he]

theorem name_of_hoistTarget {ids : List ScopeId} {d : Duplicate}
    (h : s.hoistTarget name ids = .error d) : d.name = name := by
  induction ids with
  | nil => cases h
  | cons j ids ih =>
    unfold hoistTarget at h
    split at h
    · cases h
    · split at h
      · cases h
      · split at h
        · cases h
          rfl
        · exact ih h

/-- The error of a declaration tells its name. -/
theorem name_of_declare {kind : BindingKind} {node : Option NodeId} {fromPos : Option Nat}
    {d : Duplicate} (h : s.declare id name kind node fromPos = .error d) : d.name = name := by
  unfold declare at h
  extract_lets target at h
  have htarget {d' : Duplicate} (he : target = .error d') : d'.name = name := by
    dsimp only [target] at he
    split at he
    · exact name_of_hoistTarget he
    · cases he
  clear_value target
  split at h
  · cases h
    exact htarget rfl
  · cases h
  · split at h
    · cases h
    · split at h
      · split at h
        · cases h
          rfl
        · cases h
      · cases h

/-- A `var` is declared unless its way is barred. -/
theorem declare_var_cases (hs : s.WellFormed) (id : Option ScopeId) (name : String) :
    (¬s.Barred id name ∧ ∃ t target, s.declare id name .var none none = .ok (t, target)) ∨
      (s.Barred id name ∧ ∃ d, s.declare id name .var none none = .error d) := by
  by_cases hid : ∀ i, id = some i → i < s.size
  · exact declare_var_cases_of_lt hs hid name
  · obtain ⟨i, rfl, hlt⟩ : ∃ i, id = some i ∧ ¬i < s.size := by simpa using hid
    have hnone := get?_eq_none (Nat.le_of_not_lt hlt)
    have hwalk := walk_of_get?_eq_none hnone
    refine .inl ⟨?_, s, none, ?_⟩
    · rintro ⟨j, hj, hb⟩
      have hji : j = i := by
        rw [hoistWay, closestHoist?, hwalk] at hj
        simpa [kind?, hnone] using hj
      rw [hji, bars, declaration?, hnone] at hb
      cases hb
    · simp only [declare, BindingKind.isHoisted, if_true, hwalk, hoistTarget, hnone]

/-! ## Generated variables -/

/-- A generated `var` of the name is refused: it would come between a reference and its binding, or
its way is barred. -/
def Refuses (s : Scopes) (id : Option ScopeId) (name : String) : Prop :=
  s.hasPropagated (s.closestHoist? id) name = true ∨ s.Barred id name

/-! ## What a declaration leaves -/

/-- `t` is `s` with more declarations, none of which can refuse a `var`; uses are listed as before. -/
structure VarsAdded (s t : Scopes) : Prop where
  shape : s.SameShape t
  kind? : ∀ id, t.kind? id = s.kind? id
  flags : ∀ id, t.flags id = s.flags id
  hasPropagated : ∀ id name, t.hasPropagated id name = s.hasPropagated id name
  bars : ∀ id name, t.bars id name = s.bars id name
  lists : SameLists s t

namespace VarsAdded

theorem refl (s : Scopes) : VarsAdded s s :=
  ⟨.refl s, fun _ => rfl, fun _ => rfl, fun _ _ => rfl, fun _ _ => rfl, .refl s⟩

theorem trans (h : VarsAdded s t) (h' : VarsAdded t r) : VarsAdded s r where
  shape := h.shape.trans h'.shape
  kind? id := (h'.kind? id).trans (h.kind? id)
  flags id := (h'.flags id).trans (h.flags id)
  hasPropagated id name := (h'.hasPropagated id name).trans (h.hasPropagated id name)
  bars id name := (h'.bars id name).trans (h.bars id name)
  lists := h.lists.trans h'.lists

theorem walkUp (h : VarsAdded s t) (n : Nat) (id : Option ScopeId) :
    t.walkUp n id = s.walkUp n id := by
  induction n generalizing id with
  | zero => rfl
  | succ n ih =>
    cases id with
    | none => rfl
    | some id =>
      unfold Scopes.walkUp
      rw [h.shape.parent?, ih]

theorem closestHoist? (h : VarsAdded s t) (id : Option ScopeId) :
    t.closestHoist? id = s.closestHoist? id := by
  simp only [Scopes.closestHoist?, walk, h.walkUp, h.kind?]

theorem barred_iff (h : VarsAdded s t) : t.Barred id name ↔ s.Barred id name := by
  simp only [Barred, hoistWay, walk, h.walkUp, h.kind?, h.closestHoist?, h.bars]

/-- A `var` is put behind what is declared. -/
theorem append {c : Scope} (hc : s.get? (some j) = some c) (hnone : c.declaration? name = none) :
    VarsAdded s (s.update (some j)
      (·.append name { kind := .var, node := none, fromPos := none })) := by
  let f : Scope → Scope := (·.append name { kind := .var, node := none, fromPos := none })
  change VarsAdded s (s.update (some j) f)
  refine ⟨.update _ _ ⟨fun _ => rfl, fun _ => rfl, fun _ => rfl⟩, fun id => ?_, fun id => ?_,
    fun id other => ?_, fun id other => ?_, .update _ _ fun _ => rfl⟩
  · exact view_update (f := f) (·.kind) (fun _ => rfl) _ id
  · exact congrArg (Option.getD · {}) (view_update (f := f) (·.flags) (fun _ => rfl) _ id)
  · exact congrArg (Option.getD · false)
      (view_update (f := f) (fun c => decide (other ∈ c.propagates)) (fun _ => rfl) _ id)
  · cases id with
    | none => rfl
    | some x =>
      rw [Scopes.bars, Scopes.bars, declaration?_append (lt_size_of_get? hc)]
      split
      · next heq =>
        obtain ⟨rfl, rfl⟩ := heq
        rw [Scopes.declaration?, hc, Option.bind_some, hnone]
        rfl
      · rfl

theorem refuses_iff (h : VarsAdded s t) : t.Refuses id name ↔ s.Refuses id name := by
  rw [Refuses, h.hasPropagated, h.closestHoist?, h.barred_iff]
  rfl

theorem declare {target : Option ScopeId} (h : s.declare id name .var none none = .ok (t, target)) :
    VarsAdded s t := by
  rcases declare_cases h with rfl | ⟨j, c, -, hc, hnone, rfl⟩
  · exact .refl t
  · exact .append hc hnone

end VarsAdded

end LoopClosure.Scopes
