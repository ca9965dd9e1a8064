import LoopClosure.Proofs.Scope.Table

/-!
# Ways up a table of scopes

`FunctionBelow s outer id` says without a bound on the length what `hasFunctionBetween` finds out
within `maxWalk` steps (`hasFunctionBetween_iff`): a function lies on the way from `id` up to
`outer`, which does not count itself.

`Inserted s t outer`: `t` has one more scope, no function, between `outer` and some of the scopes
below it. No way between two old scopes gains or loses a function by that
(`Inserted.functionBelow_iff`), and no way gets shorter (`Inserted.length_walk_le`).
-/

namespace LoopClosure.Scopes

open Syntax (NodeId)

variable {s t : Scopes} {outer : ScopeId}

/-- A function lies on the way from a scope up to `outer`, which does not count itself. -/
inductive FunctionBelow (s : Scopes) (outer : ScopeId) : ScopeId → Prop where
  | here {id : ScopeId} (hne : id ≠ outer) (hf : (s.flags id).function = true) :
    FunctionBelow s outer id
  | up {id p : ScopeId} (hne : id ≠ outer) (hp : s.parent? id = some p)
    (h : FunctionBelow s outer p) : FunctionBelow s outer id

@[simp] theorem walkUp_none (s : Scopes) (n : Nat) : s.walkUp n none = [] := by
  cases n <;> rfl

theorem walkUp_succ (s : Scopes) (n : Nat) (id : ScopeId) :
    s.walkUp (n + 1) (some id) = id :: s.walkUp n (s.parent? id) := rfl

theorem length_walkUp_succ_le (s : Scopes) (n : Nat) (id : Option ScopeId) :
    (s.walkUp (n + 1) id).length ≤ (s.walkUp n id).length + 1 := by
  induction n generalizing id with
  | zero => cases id <;> simp [walkUp]
  | succ n ih =>
    cases id with
    | none => simp
    | some id =>
      rw [walkUp_succ, walkUp_succ, List.length_cons, List.length_cons]
      exact Nat.succ_le_succ (ih _)

theorem length_walkUp_mono (s : Scopes) (n : Nat) (id : Option ScopeId) :
    (s.walkUp n id).length ≤ (s.walkUp (n + 1) id).length := by
  induction n generalizing id with
  | zero => exact Nat.zero_le _
  | succ n ih =>
    cases id with
    | none => simp
    | some id =>
      rw [walkUp_succ, walkUp_succ, List.length_cons, List.length_cons]
      exact Nat.succ_le_succ (ih _)

theorem not_functionBelow_self : ¬s.FunctionBelow outer outer := by
  rintro (⟨hne, -⟩ | ⟨hne, -, -⟩) <;> exact hne rfl

/-- What a walk shows is there, whether or not the walk is cut off. -/
theorem functionBelow_of_any_walkUp {n : Nat} {id : ScopeId}
    (h : (((s.walkUp n (some id)).takeWhile fun id => some id ≠ some outer).any fun id =>
      (s.flags id).function) = true) : s.FunctionBelow outer id := by
  induction n generalizing id with
  | zero => cases h
  | succ n ih =>
    rw [walkUp_succ, List.takeWhile_cons] at h
    split at h
    · next hid =>
      have hne : id ≠ outer := fun e => by simp [e] at hid
      rw [List.any_cons, Bool.or_eq_true] at h
      rcases h with hf | h
      · exact .here hne hf
      · cases hp : s.parent? id with
        | none =>
          rw [hp, walkUp_none] at h
          cases h
        | some p => exact .up hne hp (ih (hp ▸ h))
    · cases h

/-- A walk that ends before its bound shows the whole way. -/
theorem any_walkUp_of_functionBelow {id : ScopeId} (h : s.FunctionBelow outer id) {n : Nat}
    (hlen : (s.walkUp n (some id)).length < n) :
    (((s.walkUp n (some id)).takeWhile fun id => some id ≠ some outer).any fun id =>
      (s.flags id).function) = true := by
  induction h generalizing n with
  | here hne hf =>
    obtain ⟨n, rfl⟩ := Nat.exists_eq_add_one.2 (Nat.zero_lt_of_lt hlen)
    rw [walkUp_succ, List.takeWhile_cons_of_pos (by simpa using hne), List.any_cons, hf,
      Bool.true_or]
  | up hne hp _ ih =>
    obtain ⟨n, rfl⟩ := Nat.exists_eq_add_one.2 (Nat.zero_lt_of_lt hlen)
    rw [walkUp_succ, hp, List.length_cons] at hlen
    rw [walkUp_succ, hp, List.takeWhile_cons_of_pos (by simpa using hne), List.any_cons,
      ih (Nat.lt_of_succ_lt_succ hlen), Bool.or_true]

theorem functionBelow_of_hasFunctionBetween {inner : ScopeId}
    (h : s.hasFunctionBetween (some inner) (some outer) = true) : s.FunctionBelow outer inner :=
  functionBelow_of_any_walkUp h

theorem hasFunctionBetween_iff {inner : ScopeId} (hlen : (s.walk (some inner)).length < maxWalk) :
    s.hasFunctionBetween (some inner) (some outer) = true ↔ s.FunctionBelow outer inner :=
  ⟨functionBelow_of_hasFunctionBetween, fun h => any_walkUp_of_functionBelow h hlen⟩

theorem walkUp_congr (hp : ∀ id : ScopeId, t.parent? id = s.parent? id) (n : Nat)
    (id : Option ScopeId) : t.walkUp n id = s.walkUp n id := by
  induction n generalizing id with
  | zero => rfl
  | succ n ih =>
    cases id with
    | none => rfl
    | some id => rw [walkUp_succ, walkUp_succ, hp, ih]

theorem closestHoist?_congr (hp : ∀ id : ScopeId, t.parent? id = s.parent? id)
    (hk : ∀ id : ScopeId, t.kind? id = s.kind? id) (id : Option ScopeId) :
    t.closestHoist? id = s.closestHoist? id := by
  simp only [closestHoist?, walk, walkUp_congr hp, hk]

/-- A walk that ends before its bound does not get longer with the bound. -/
theorem walkUp_succ_of_length_lt {n : Nat} {id : Option ScopeId}
    (h : (s.walkUp n id).length < n) : s.walkUp (n + 1) id = s.walkUp n id := by
  induction n generalizing id with
  | zero => cases h
  | succ n ih =>
    cases id with
    | none => rw [walkUp_none, walkUp_none]
    | some id =>
      rw [walkUp_succ, List.length_cons] at h
      rw [walkUp_succ, walkUp_succ _ n, ih (Nat.lt_of_succ_lt_succ h)]

/-- From a scope that does not hoist, the nearest hoisting scope is that of the parent. -/
theorem closestHoist?_of_parent? {id p : ScopeId} (hp : s.parent? id = some p)
    (hk : s.kind? id ≠ some .hoist) (hlen : (s.walk (some id)).length < maxWalk) :
    s.closestHoist? (some id) = s.closestHoist? (some p) := by
  obtain ⟨n, hn⟩ : ∃ n, maxWalk = n + 1 := ⟨9999, rfl⟩
  unfold closestHoist? walk at *
  rw [hn, walkUp_succ, hp, List.length_cons] at hlen
  rw [hn, walkUp_succ, hp, List.find?_cons_of_neg (by simpa using hk),
    walkUp_succ_of_length_lt (Nat.lt_of_succ_lt_succ hlen)]

theorem FunctionBelow.congr (hp : ∀ id : ScopeId, t.parent? id = s.parent? id)
    (hf : ∀ id : ScopeId, (t.flags id).function = (s.flags id).function) {id : ScopeId}
    (h : s.FunctionBelow outer id) : t.FunctionBelow outer id := by
  induction h with
  | here hne h => exact .here hne ((hf _).trans h)
  | up hne hup _ ih => exact .up hne ((hp _).trans hup) ih

theorem functionBelow_congr (hp : ∀ id : ScopeId, t.parent? id = s.parent? id)
    (hf : ∀ id : ScopeId, (t.flags id).function = (s.flags id).function) {id : ScopeId} :
    t.FunctionBelow outer id ↔ s.FunctionBelow outer id :=
  ⟨fun h => h.congr (fun id => (hp id).symm) fun id => (hf id).symm, fun h => h.congr hp hf⟩

/-! ## A scope in between -/

/-- `t` is `s` with one more scope, no function, between `outer` and some scopes below it. -/
structure Inserted (s t : Scopes) (outer : ScopeId) : Prop where
  outer_lt : outer < s.size
  parent_new : t.parent? s.size = some outer
  parent_old : ∀ {id : ScopeId}, id < s.size → t.parent? id = s.parent? id ∨
    (t.parent? id = some s.size ∧ s.parent? id = some outer)
  function_new : (t.flags s.size).function = false
  function_old : ∀ {id : ScopeId}, id < s.size → (t.flags id).function = (s.flags id).function

namespace Inserted

variable (h : Inserted s t outer) (hs : WellFormed s)

include h hs

theorem functionBelow_of_new {y x : ScopeId} (hx : t.FunctionBelow y x) :
    (x < s.size → s.FunctionBelow y x) ∧ (x = s.size → s.FunctionBelow y outer) := by
  induction hx with
  | @here id hne hf =>
    refine ⟨fun hid => .here hne (h.function_old hid ▸ hf), ?_⟩
    rintro rfl
    rw [h.function_new] at hf
    cases hf
  | @up id p hne hp _ ih =>
    refine ⟨fun hid => ?_, ?_⟩
    · rcases h.parent_old hid with ho | ⟨hn, ho⟩
      · exact .up hne (ho ▸ hp) (ih.1 (hs.parent_lt (ho ▸ hp)))
      · rw [hn] at hp
        exact .up hne ho (ih.2 (Option.some.inj hp).symm)
    · rintro rfl
      rw [h.parent_new] at hp
      cases hp
      exact ih.1 h.outer_lt

theorem functionBelow_of_old {y x : ScopeId} (hy : y < s.size) (hx : s.FunctionBelow y x) :
    x < s.size → t.FunctionBelow y x := by
  induction hx with
  | here hne hf => exact fun hid => .here hne (h.function_old hid ▸ hf)
  | @up id p hne hp _ ih =>
    intro hid
    have hup := ih (hs.parent_lt hp)
    rcases h.parent_old hid with ho | ⟨hn, ho⟩
    · exact .up hne (ho.trans hp) hup
    · rw [ho] at hp
      cases hp
      exact .up hne hn (.up (Nat.ne_of_gt hy) h.parent_new hup)

theorem functionBelow_iff {y x : ScopeId} (hy : y < s.size) (hx : x < s.size) :
    t.FunctionBelow y x ↔ s.FunctionBelow y x :=
  ⟨fun hxy => (h.functionBelow_of_new hs hxy).1 hx, fun hxy => h.functionBelow_of_old hs hy hxy hx⟩

/-- The way up from the new scope goes on at `outer`. -/
theorem functionBelow_new_iff {y : ScopeId} (hy : y < s.size) :
    t.FunctionBelow y s.size ↔ s.FunctionBelow y outer :=
  ⟨fun hxy => (h.functionBelow_of_new hs hxy).2 rfl, fun hxy =>
    .up (Nat.ne_of_gt hy) h.parent_new (h.functionBelow_of_old hs hy hxy h.outer_lt)⟩

/-- No way up gets shorter. -/
theorem length_walkUp_le (n : Nat) {x : ScopeId} (hx : x < s.size) :
    (s.walkUp n (some x)).length ≤ (t.walkUp n (some x)).length := by
  induction n generalizing x with
  | zero => exact Nat.le_refl _
  | succ n ih =>
    simp only [walkUp_succ, List.length_cons]
    refine Nat.succ_le_succ ?_
    rcases h.parent_old hx with ho | ⟨hn, ho⟩
    · rw [ho]
      cases hp : s.parent? x with
      | none => simp
      | some p => exact ih (hs.parent_lt hp)
    · rw [hn, ho]
      cases n with
      | zero => exact Nat.le_refl _
      | succ n =>
        calc (s.walkUp (n + 1) (some outer)).length
            ≤ (t.walkUp (n + 1) (some outer)).length := ih h.outer_lt
          _ ≤ (t.walkUp n (some outer)).length + 1 := length_walkUp_succ_le t n _
          _ = (t.walkUp (n + 1) (some s.size)).length := by
            rw [walkUp_succ, h.parent_new, List.length_cons]

theorem length_walk_le {x : ScopeId} (hx : x < s.size) :
    (s.walk (some x)).length ≤ (t.walk (some x)).length :=
  h.length_walkUp_le hs maxWalk hx

end Inserted

theorem Inserted.reparent (h : Inserted s t outer) {child : ScopeId} (hlt : child < s.size)
    (hp : s.parent? child = some outer) (hsize : s.size < t.size) :
    Inserted s (t.reparent child (some s.size)) outer where
  outer_lt := h.outer_lt
  parent_new := by
    rw [parent?_reparent (Nat.lt_trans hlt hsize), if_neg (Nat.ne_of_gt hlt), h.parent_new]
  parent_old {id} hid := by
    rw [parent?_reparent (Nat.lt_trans hlt hsize)]
    split
    · subst id
      exact .inr ⟨rfl, hp⟩
    · exact h.parent_old hid
  function_new := by rw [flags_reparent, h.function_new]
  function_old hid := by rw [flags_reparent, h.function_old hid]

theorem inserted_alloc {kind : ScopeKind} {node : Option NodeId} {flags : Flags}
    (hlt : outer < s.size) (hf : flags.function = false) :
    Inserted s (s.alloc kind node outer flags).1 outer := by
  have hne : some outer ≠ some s.size := fun e => Nat.ne_of_lt hlt (Option.some.inj e)
  refine ⟨hlt, ?_, fun hid => .inl ?_, ?_, fun hid => ?_⟩
  · rw [parent?_alloc hne, if_pos rfl]
  · rw [parent?_alloc hne, if_neg (Nat.ne_of_lt hid)]
  · rw [flags_alloc hne, if_pos rfl, hf]
  · rw [flags_alloc hne, if_neg (Nat.ne_of_lt hid)]

/-! ## Tables that extend another -/

/-- `t` comes from `s` by what a lowering does to scopes: no way between scopes of `s` gains or
loses a function, none gets shorter, declarations stay as they are, and those that are added are not
block-scoped. -/
structure Extends (s t : Scopes) : Prop where
  size_le : s.size ≤ t.size
  node? : ∀ {id : ScopeId}, id < s.size → t.node? id = s.node? id
  kept : ∀ {id : ScopeId} {name : String} {d : Declaration}, s.declaration? id name = some d →
    t.declaration? id name = some d
  added : ∀ {id : ScopeId} {name : String} {d : Declaration}, t.declaration? id name = some d →
    s.declaration? id name = some d ∨ d.kind.isBlockScoped = false
  functionBelow_iff : ∀ {outer id : ScopeId}, outer < s.size → id < s.size →
    (t.FunctionBelow outer id ↔ s.FunctionBelow outer id)
  length_walk_le : ∀ {id : ScopeId}, id < s.size →
    (s.walk (some id)).length ≤ (t.walk (some id)).length

namespace Extends

variable {r : Scopes}

theorem refl (s : Scopes) : Extends s s :=
  ⟨Nat.le_refl _, fun _ => rfl, fun h => h, fun h => .inl h, fun _ _ => Iff.rfl,
    fun _ => Nat.le_refl _⟩

theorem trans (h : Extends r s) (h' : Extends s t) : Extends r t where
  size_le := Nat.le_trans h.size_le h'.size_le
  node? hid := (h'.node? (Nat.lt_of_lt_of_le hid h.size_le)).trans (h.node? hid)
  kept hd := h'.kept (h.kept hd)
  added hd := by
    rcases h'.added hd with hd | hb
    · exact h.added hd
    · exact .inr hb
  functionBelow_iff ho hid :=
    (h'.functionBelow_iff (Nat.lt_of_lt_of_le ho h.size_le)
      (Nat.lt_of_lt_of_le hid h.size_le)).trans (h.functionBelow_iff ho hid)
  length_walk_le hid := Nat.le_trans (h.length_walk_le hid)
    (h'.length_walk_le (Nat.lt_of_lt_of_le hid h.size_le))

/-- An update that changes neither the tree nor which scopes are functions. -/
theorem update {f : Scope → Scope} (s : Scopes) (id : Option ScopeId) (hf : Scope.Tame f)
    (hfun : ∀ c, (f c).flags.function = c.flags.function)
    (hkept : ∀ c, s.get? id = some c → ∀ name d, c.declaration? name = some d →
      (f c).declaration? name = some d)
    (hadded : ∀ c, s.get? id = some c → ∀ name d, (f c).declaration? name = some d →
      c.declaration? name = some d ∨ d.kind.isBlockScoped = false) :
    Extends s (s.update id f) := by
  have hshape := SameShape.update s id hf
  refine ⟨Nat.le_of_eq hshape.size.symm, fun _ => hshape.node? _, fun {j name d} hd => ?_,
    fun {j name d} hd => ?_, fun {outer j} _ _ => ?_, fun {j} _ => ?_⟩
  · obtain ⟨c, hc, hcd⟩ := Option.bind_eq_some_iff.1 hd
    rw [declaration?, get?_update]
    split
    · rw [hc]
      exact hkept c (‹id = some j› ▸ hc) name d hcd
    · exact hd
  · rw [declaration?, get?_update] at hd
    split at hd
    · obtain ⟨c', hc', hcd⟩ := Option.bind_eq_some_iff.1 hd
      obtain ⟨c, hc, rfl⟩ := Option.map_eq_some_iff.1 hc'
      refine (hadded c (‹id = some j› ▸ hc) name d hcd).imp_left fun h => ?_
      rw [declaration?, hc]
      exact h
    · exact .inl hd
  · exact functionBelow_congr (fun _ => hshape.parent? _) fun j =>
      flags_view_update (·.function) hfun id _
  · exact Nat.le_of_eq (by rw [walk, walk, walkUp_congr fun _ => hshape.parent? _])

/-- An update that keeps declarations, too. -/
theorem update_keeping {f : Scope → Scope} (s : Scopes) (id : Option ScopeId) (hf : Scope.Tame f)
    (hfun : ∀ c, (f c).flags.function = c.flags.function)
    (hdecl : ∀ c name, (f c).declaration? name = c.declaration? name) :
    Extends s (s.update id f) :=
  update s id hf hfun (fun c _ name _ h => (hdecl c name).trans h)
    fun c _ name _ h => .inl ((hdecl c name).symm.trans h)

/-- A declaration that is accepted, of a name that is not block-scoped. -/
theorem declare {id target : Option ScopeId} {name : String} {kind : BindingKind}
    {node : Option NodeId} {fromPos : Option Nat} (hkind : kind.isBlockScoped = false)
    (h : s.declare id name kind node fromPos = .ok (t, target)) : Extends s t := by
  rcases declare_cases h with rfl | ⟨j, c, -, hc, hnone, rfl⟩
  · exact refl _
  · refine update s _ ⟨fun _ => rfl, fun _ => rfl, fun _ => rfl⟩ (fun _ => rfl)
      (fun c' hc' other d hd => ?_) fun c' hc' other d hd => ?_
    · rw [Scope.declaration?, Scope.append, List.lookup_append]
      exact Option.or_eq_some_iff.2 (.inl hd)
    · rw [Scope.declaration?, Scope.append, List.lookup_append] at hd
      rcases Option.or_eq_some_iff.1 hd with hd | ⟨-, hd⟩
      · exact .inl hd
      · refine .inr ?_
        rw [List.lookup_cons] at hd
        split at hd
        · cases hd
          exact hkind
        · cases hd

/-- A table with one scope more, in which declarations stay as they are. -/
theorem of_inserted (h : Inserted s t outer) (hs : WellFormed s) (hle : s.size ≤ t.size)
    (hnode : ∀ {id : ScopeId}, id < s.size → t.node? id = s.node? id)
    (hdecl : ∀ (id : ScopeId) name, t.declaration? id name = s.declaration? id name) :
    Extends s t where
  size_le := hle
  node? := hnode
  kept hd := (hdecl _ _).trans hd
  added hd := .inl ((hdecl _ _).symm.trans hd)
  functionBelow_iff ho hid := h.functionBelow_iff hs ho hid
  length_walk_le hid := h.length_walk_le hs hid

end Extends

end LoopClosure.Scopes
