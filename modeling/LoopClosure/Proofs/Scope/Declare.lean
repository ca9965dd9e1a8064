import LoopClosure.Proofs.Scope.Hoist
import LoopClosure.Proofs.Scope.Nearest

/-!
# What a declaration does

- `Scopes.receiver`: the scope that a binding goes to, by its kind.
- `Scopes.BarredBelow s t x name`: a scope on the way from `x` to `t` has a `let` or `const` of the
  name. `Scopes.Clashes s x t name kind`: a binding of scope `x` that goes to `t` is not allowed.
- `Scopes.Precedes s name t y`: on the way up from `y`, scope `t` comes before all others that
  declare the name.
- `Scopes.Declared s r t name e`: `r` is `s` with the declaration `e` in `t`, unless one was there.
  A look-up of the name then finds `t` from where `t` comes first, and what it found before from
  elsewhere.

A declaration is refused exactly if it clashes, and has this effect if it is not refused
(`declare_cases_of_mem_walk`, `declare_effect`).
-/

namespace LoopClosure.Scopes

open Syntax (NodeId)

variable {s r : Scopes} {hoist t x y z : ScopeId} {n : Nat} {name : String} {kind : BindingKind}
  {node : Option NodeId} {fromPos : Option Nat} {e : Declaration}

/-- The scope that a binding of scope `x` goes to, `hoist` being the nearest hoisting scope. -/
def receiver (kind : BindingKind) (x hoist : ScopeId) : ScopeId :=
  match kind with
  | .let_ | .const | .caught => x
  | .var | .function | .param => hoist

/-- A scope on the way from `x` to `t`, which does not count itself, has a `let` or `const` of the
name. -/
def BarredBelow (s : Scopes) (t x : ScopeId) (name : String) : Prop :=
  ∃ y, s.Under y x ∧ s.Under t y ∧ y ≠ t ∧ s.bars (some y) name = true

theorem receiver_of_isHoisted (h : kind.isHoisted = true) : receiver kind x hoist = hoist := by
  cases kind <;> first | rfl | cases h

theorem receiver_of_not_isHoisted (h : ¬kind.isHoisted = true) : receiver kind x hoist = x := by
  cases kind <;> first | rfl | exact absurd rfl h

/-- The binding is not allowed: the scope that it goes to has the name, and one of the two is a
`let` or `const`; or it is hoisted past a `let` or `const` of the name. -/
def Clashes (s : Scopes) (x t : ScopeId) (name : String) (kind : BindingKind) : Prop :=
  (∃ d, s.declaration? (some t) name = some d ∧
    (d.kind.isBlockScoped = true ∨ kind.isBlockScoped = true)) ∨
  (kind.isHoisted = true ∧ s.BarredBelow t x name)

/-- On the way up from `y`, `t` comes before every other scope that declares the name. -/
structure Precedes (s : Scopes) (name : String) (t y : ScopeId) : Prop where
  under : s.Under t y
  before : ∀ {z}, s.Under z y → s.Declares name z → z ≠ t → s.Under z t

/-- `r` is `s` with the declaration `e` of the name in `t`, unless one was there. -/
structure Declared (s r : Scopes) (t : ScopeId) (name : String) (e : Declaration) : Prop where
  own : r.declaration? (some t) name = some ((s.declaration? (some t) name).getD e)
  others : ∀ {y : ScopeId} {other : String}, y ≠ t ∨ other ≠ name →
    r.declaration? (some y) other = s.declaration? (some y) other
  /-- Nothing but declarations changes. -/
  rest : ∀ id, (r.get? id).map (fun c => { c with declarations := [] }) =
    (s.get? id).map (fun c => { c with declarations := [] })
  lookup?_of_precedes : ∀ {y : ScopeId}, s.Precedes name t y →
    r.lookup? (some y) name = some t
  lookup?_of_not_precedes : ∀ {y : ScopeId}, ¬s.Precedes name t y →
    r.lookup? (some y) name = s.lookup? (some y) name

/-! ## The way of a hoisted name -/

theorem Hoists.lt_size (h : s.Hoists hoist) (hx : s.Under hoist x) : x < s.size := by
  cases hx with
  | refl =>
    obtain ⟨c, hc, -⟩ := Option.map_eq_some_iff.1 h
    exact lt_size_of_get? hc
  | up hp => exact lt_size_of_parent? hp

/-- What a hoisted name passes on its way is what lies between the two scopes. -/
theorem mem_takeWhile_walkUp_iff (hs : s.Acyclic) (hh : s.Nearest s.Hoists hoist x)
    (hmem : hoist ∈ s.walkUp n (some x)) :
    y ∈ (s.walkUp n (some x)).takeWhile (fun (j : ScopeId) => s.kind? j ≠ some .hoist) ↔
      s.Under y x ∧ s.Under hoist y ∧ y ≠ hoist := by
  induction n generalizing x with
  | zero => cases hmem
  | succ n ih =>
    rw [walkUp_succ, List.takeWhile_cons]
    by_cases hx : s.Hoists x
    · obtain rfl : hoist = x := hh.unique hs ⟨.refl, hx, fun hz _ => hz⟩
      have hstop : decide (s.kind? (some hoist) ≠ some .hoist) = false :=
        decide_eq_false (not_not_intro hx)
      simp only [hstop, Bool.false_eq_true, if_false, List.not_mem_nil, false_iff]
      exact fun ⟨hy, hy', hne⟩ => hne (hy.antisymm hs hy')
    · have hgo : decide (s.kind? (some x) ≠ some .hoist) = true := decide_eq_true hx
      have hne : x ≠ hoist := fun heq => hx (heq ▸ hh.holds)
      obtain ⟨p, hp⟩ : ∃ p, s.parent? (some x) = some p := by
        cases hh.under with
        | refl => exact absurd rfl hne
        | up hp => exact ⟨_, hp⟩
      rw [walkUp_succ, hp] at hmem
      have hmem' := (List.mem_cons.1 hmem).resolve_left hne.symm
      rw [if_pos hgo, hp, List.mem_cons, ih (hh.of_parent? hx hp) hmem']
      constructor
      · rintro (rfl | ⟨hy, hy', hyne⟩)
        · exact ⟨.refl, hh.under, hne⟩
        · exact ⟨.up hp hy, hy', hyne⟩
      · rintro ⟨hy, hy', hyne⟩
        cases hy with
        | refl => exact .inl rfl
        | up hp' hy => exact .inr ⟨Option.some.inj (hp'.symm.trans hp) ▸ hy, hy', hyne⟩

/-- A hoisted name gets to the nearest hoisting scope unless a scope before it bars the name. -/
theorem hoistTarget_walk_cases (hs : s.Acyclic) (hh : s.Nearest s.Hoists hoist x)
    (hmem : hoist ∈ s.walk (some x)) (name : String) :
    (s.hoistTarget name (s.walk (some x)) = .ok (some hoist) ∧
      ¬s.BarredBelow hoist x name) ∨
    ((∃ d, s.hoistTarget name (s.walk (some x)) = .error d) ∧ s.BarredBelow hoist x name) := by
  have hway {y : ScopeId} := mem_takeWhile_walkUp_iff (y := y) hs hh hmem
  have hget (y : ScopeId) (hy : y ∈ (s.walk (some x)).takeWhile
      fun (j : ScopeId) => s.kind? j ≠ some .hoist) : ∃ c, s.get? (some y) = some c :=
    get?_of_lt (Hoists.lt_size hh.holds (hway.1 hy).2.1)
  rcases hoistTarget_cases name hget with ⟨heq, hall⟩ | ⟨herr, y, hy, hb⟩
  · refine .inl ⟨heq.trans (congrArg _ ((closestHoist?_eq_some_iff hs).2 ⟨hh, hmem⟩)), ?_⟩
    rintro ⟨y, hy, hy', hne, hb⟩
    rw [hall y (hway.2 ⟨hy, hy', hne⟩)] at hb
    cases hb
  · obtain ⟨hx, hx', hne⟩ := hway.1 hy
    exact .inr ⟨herr, y, hx, hx', hne, hb⟩

/-! ## What is found -/

/-- A declaration that comes first is the nearest. -/
theorem Precedes.nearest (h : s.Precedes name t y) (hr : SameShape s r)
    (hd : ∀ z, r.Declares name z ↔ z = t ∨ s.Declares name z) :
    r.Nearest (r.Declares name) t y where
  under := hr.under_iff.2 h.under
  holds := (hd t).2 (.inl rfl)
  first {z} hz hdz := by
    by_cases hzt : z = t
    · exact hzt ▸ .refl
    · exact hr.under_iff.2 (h.before (hr.under_iff.1 hz) (((hd z).1 hdz).resolve_left hzt) hzt)

/-- A declaration that does not come first does not count. -/
theorem nearest_iff_of_not_precedes (h : ¬s.Precedes name t y) (hr : SameShape s r)
    (hd : ∀ z, r.Declares name z ↔ z = t ∨ s.Declares name z) :
    r.Nearest (r.Declares name) z y ↔ s.Nearest (s.Declares name) z y := by
  constructor
  · intro hz
    have hfirst {w : ScopeId} (hw : s.Under w y) (hdw : s.Declares name w) : s.Under w z :=
      hr.under_iff.1 (hz.first (hr.under_iff.2 hw) ((hd w).2 (.inr hdw)))
    have hunder : s.Under z y := hr.under_iff.1 hz.under
    refine ⟨hunder, ((hd z).1 hz.holds).resolve_left ?_, hfirst⟩
    rintro rfl
    exact h ⟨hunder, fun hw hdw _ => hfirst hw hdw⟩
  · intro hz
    refine ⟨hr.under_iff.2 hz.under, (hd z).2 (.inr hz.holds), fun {w} hw hdw => ?_⟩
    rw [hr.under_iff] at hw ⊢
    rcases (hd w).1 hdw with rfl | hdw
    · rcases hw.comparable hz.under with hwz | hzw
      · exact hwz
      · exact absurd ⟨hw, fun hv hdv _ => (hz.first hv hdv).trans hzw⟩ h
    · exact hz.first hw hdw

theorem EndsInTime.lookup?_eq_some_iff (h : s.EndsInTime x) (hs : s.Acyclic) :
    s.lookup? (some x) name = some y ↔ s.Nearest (s.Declares name) y x :=
  (Scopes.lookup?_eq_some_iff hs).trans ⟨fun h => h.1, fun hy => ⟨hy, h.mem_walk hy.under⟩⟩

/-- What is found in a table with the same tree in which at most one more scope declares a name. -/
theorem lookup?_of_declares (hends : ∀ x, s.EndsInTime x) (hr : SameShape s r)
    (hd : ∀ z, r.Declares name z ↔ z = t ∨ s.Declares name z) :
    (s.Precedes name t y → r.lookup? (some y) name = some t) ∧
      (¬s.Precedes name t y → r.lookup? (some y) name = s.lookup? (some y) name) := by
  have hends' (x : ScopeId) : r.EndsInTime x := (hends x).of_sameShape hr
  have hiff {z : ScopeId} : r.lookup? (some y) name = some z ↔
      r.Nearest (r.Declares name) z y :=
    (hends' y).lookup?_eq_some_iff (acyclic_of_endsInTime hends')
  refine ⟨fun h => hiff.2 (h.nearest hr hd), fun h => Option.ext fun z => ?_⟩
  exact hiff.trans ((nearest_iff_of_not_precedes h hr hd).trans
    ((hends y).lookup?_eq_some_iff (acyclic_of_endsInTime hends)).symm)

/-! ## The table afterwards -/

/-- A name that is there is kept. -/
theorem Declared.kept (hends : ∀ x, s.EndsInTime x) (ht : s.Declares name t) :
    Declared s s t name e where
  own := by
    obtain ⟨d, hd⟩ := Option.isSome_iff_exists.1 ht
    rw [hd, Option.getD_some]
  others _ := rfl
  rest _ := rfl
  lookup?_of_precedes := (lookup?_of_declares hends (.refl s) fun z =>
    ⟨.inr, fun h => h.elim (fun hz => hz ▸ ht) id⟩).1
  lookup?_of_not_precedes _ := rfl

/-- A name that is not there is put behind the others. -/
theorem Declared.append (hends : ∀ x, s.EndsInTime x) (ht : t < s.size)
    (hnone : s.declaration? (some t) name = none) :
    Declared s (s.update (some t) (·.append name e)) t name e := by
  have hshape : SameShape s (s.update (some t) (·.append name e)) :=
    .update _ _ ⟨fun _ => rfl, fun _ => rfl, fun _ => rfl⟩
  have hdeclares (z : ScopeId) : (s.update (some t) (·.append name e)).Declares name z ↔
      z = t ∨ s.Declares name z := by
    rw [Declares, isSome_declaration?_append ht]
    simp [Declares]
  refine ⟨?_, fun {y other} hne => ?_, fun id => ?_,
    (lookup?_of_declares hends hshape hdeclares).1, (lookup?_of_declares hends hshape hdeclares).2⟩
  · rw [declaration?_append ht, if_pos ⟨rfl, rfl⟩, hnone]
    rfl
  · rw [declaration?_append ht, if_neg fun heq => hne.elim (· heq.1) (· heq.2)]
  · exact view_update (f := (·.append name e)) (fun c => { c with declarations := [] })
      (fun _ => rfl) _ id

theorem lt_size_receiver (hh : s.Nearest s.Hoists hoist x) (kind : BindingKind) :
    receiver kind x hoist < s.size := by
  by_cases hk : kind.isHoisted = true
  · rw [receiver_of_isHoisted hk]
    exact Hoists.lt_size hh.holds .refl
  · rw [receiver_of_not_isHoisted hk]
    exact Hoists.lt_size hh.holds hh.under

/-- A binding gets to the scope that it goes to unless a scope on the way bars it. -/
theorem target_cases (hs : s.Acyclic) (hh : s.Nearest s.Hoists hoist x)
    (hmem : hoist ∈ s.walk (some x)) (name : String) (kind : BindingKind) :
    ((if kind.isHoisted then s.hoistTarget name (s.walk (some x)) else .ok (some x)) =
        .ok (some (receiver kind x hoist)) ∧
      ¬(kind.isHoisted = true ∧ s.BarredBelow (receiver kind x hoist) x name)) ∨
    ((∃ d, s.declare (some x) name kind node fromPos = .error d) ∧
      kind.isHoisted = true ∧ s.BarredBelow (receiver kind x hoist) x name) := by
  by_cases hk : kind.isHoisted = true
  · rw [if_pos hk, receiver_of_isHoisted hk]
    rcases hoistTarget_walk_cases hs hh hmem name with ⟨heq, hnot⟩ | ⟨⟨d, he⟩, hbarred⟩
    · exact .inl ⟨heq, fun h => hnot h.2⟩
    · refine .inr ⟨⟨d, ?_⟩, hk, hbarred⟩
      simp only [declare, hk, if_true, he]
  · rw [if_neg hk, receiver_of_not_isHoisted hk]
    exact .inl ⟨rfl, fun h => hk h.1⟩

/-- A declaration is refused if it clashes. If not, the scope that it goes to has the name already,
or gets it. -/
theorem declare_cases_of_mem_walk (hs : s.Acyclic) (hh : s.Nearest s.Hoists hoist x)
    (hmem : hoist ∈ s.walk (some x)) (name : String) (kind : BindingKind) (node : Option NodeId)
    (fromPos : Option Nat) :
    (s.Clashes x (receiver kind x hoist) name kind ∧
      ∃ d, s.declare (some x) name kind node fromPos = .error d) ∨
    (¬s.Clashes x (receiver kind x hoist) name kind ∧ s.Declares name (receiver kind x hoist) ∧
      s.declare (some x) name kind node fromPos = .ok (s, some (receiver kind x hoist))) ∨
    (¬s.Clashes x (receiver kind x hoist) name kind ∧
      s.declaration? (some (receiver kind x hoist)) name = none ∧
      s.declare (some x) name kind node fromPos =
        .ok (s.update (some (receiver kind x hoist)) (·.append name { kind, node, fromPos }),
          some (receiver kind x hoist))) := by
  obtain ⟨c, hc⟩ := get?_of_lt (lt_size_receiver hh kind)
  have hdecl : s.declaration? (some (receiver kind x hoist)) name = c.declaration? name := by
    rw [declaration?, hc, Option.bind_some]
  rcases target_cases hs hh hmem name kind with ⟨htarget, hnot⟩ | ⟨herr, hbarred⟩
  · rcases declare_of_target kind node fromPos htarget hc with
      ⟨d, hd, hk, heq⟩ | ⟨d, hd, hk, heq⟩ | ⟨hnone, heq⟩
    · exact .inl ⟨.inl ⟨d, hdecl.trans hd, by simpa using hk⟩, _, heq⟩
    · refine .inr (.inl ⟨?_, by rw [Declares, hdecl, hd, Option.isSome_some], heq⟩)
      rintro (⟨d', hd', hk'⟩ | hbarred)
      · obtain rfl := Option.some.inj (hd'.symm.trans (hdecl.trans hd))
        exact Bool.false_ne_true (hk.symm.trans (Bool.or_eq_true_iff.2 hk'))
      · exact hnot hbarred
    · refine .inr (.inr ⟨?_, hdecl.trans hnone, heq⟩)
      rintro (⟨d, hd, -⟩ | hbarred)
      · cases hd.symm.trans (hdecl.trans hnone)
      · exact hnot hbarred
  · exact .inl ⟨.inr hbarred, herr⟩

/-- What a declaration does in a table whose ways up all end within the bound on walks, which is
therefore without cycles (`acyclic_of_endsInTime`). -/
theorem declare_effect (hends : ∀ y, s.EndsInTime y) (hh : s.Nearest s.Hoists hoist x)
    (name : String) (kind : BindingKind) (node : Option NodeId) (fromPos : Option Nat) :
    ((∃ d, s.declare (some x) name kind node fromPos = .error d) ↔
      s.Clashes x (receiver kind x hoist) name kind) ∧
    (s.Clashes x (receiver kind x hoist) name kind →
      (Operation.declare (some x) name kind node fromPos).apply s = s) ∧
    (¬s.Clashes x (receiver kind x hoist) name kind →
      ∃ r, s.declare (some x) name kind node fromPos = .ok (r, some (receiver kind x hoist)) ∧
        (Operation.declare (some x) name kind node fromPos).apply s = r ∧
        Declared s r (receiver kind x hoist) name { kind, node, fromPos }) := by
  have hmem : hoist ∈ s.walk (some x) := (hends x).mem_walk hh.under
  rcases declare_cases_of_mem_walk (acyclic_of_endsInTime hends) hh hmem name kind node fromPos with
    ⟨hclash, d, heq⟩ | ⟨hnot, hd, heq⟩ | ⟨hnot, hnone, heq⟩
  · refine ⟨iff_of_true ⟨d, heq⟩ hclash, fun _ => ?_, fun hnot => absurd hclash hnot⟩
    rw [Operation.apply, heq]
  · refine ⟨iff_of_false ?_ hnot, fun hclash => absurd hclash hnot, fun _ =>
      ⟨s, heq, by rw [Operation.apply, heq], .kept hends hd⟩⟩
    rintro ⟨d, he⟩
    cases heq.symm.trans he
  · refine ⟨iff_of_false ?_ hnot, fun hclash => absurd hclash hnot, fun _ =>
      ⟨_, heq, by rw [Operation.apply, heq], .append hends (lt_size_receiver hh kind) hnone⟩⟩
    rintro ⟨d, he⟩
    cases heq.symm.trans he

theorem declare_effect_varInBlock : (∀ y, (nest 1).EndsInTime y) ∧
    (nest 1).Nearest (nest 1).Hoists 0 1 ∧
    ∃ r, (nest 1).declare (some 1) "x" .var none none = .ok (r, some 0) ∧
      r.lookup? (some 1) "x" = some 0 := by
  have hends := endsInTime_nest (n := 1) (by decide)
  have hhoist : (nest 1).Nearest (nest 1).Hoists 0 1 := nearest_hoist_nest (Nat.le_refl 1)
  have hnone (y : ScopeId) (name : String) : (nest 1).declaration? (some y) name = none :=
    declaration?_nest y name
  obtain ⟨-, -, heffect⟩ := declare_effect hends hhoist "x" .var none none
  obtain ⟨r, heq, -, hr⟩ := heffect <| by
    rintro (⟨d, hd, -⟩ | ⟨-, y, -, -, -, hb⟩)
    · cases (hnone _ _).symm.trans hd
    · rw [bars, hnone] at hb
      cases hb
  refine ⟨hends, hhoist, r, heq, hr.lookup?_of_precedes ⟨hhoist.under, fun {z} _ hz => ?_⟩⟩
  rw [Declares, hnone] at hz
  cases hz

end LoopClosure.Scopes
