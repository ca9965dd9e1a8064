import LoopClosure.Proofs.Syntax.Nested

/-!
# Providers of `this` and `arguments`

The provider of a node is the nearest function around it that is no arrow, field whose initial value
it lies in, or program (`Nodes.Provider`). The heritage of a class and the computed keys of its
members have the provider of the class.
-/

namespace LoopClosure.Syntax.Nodes

variable {ns : Nodes} {a b c p q s x y : NodeId}

/-- A node provides what lies in its child `c` with values of its own for `this` and `arguments`. -/
inductive Provides (ns : Nodes) (p c : NodeId) : Prop where
  | function {place : FunctionPlace} {name : Option NodeId} {params : List NodeId} {body : NodeId}
    {traits : FunctionTraits} (hf : ns.form? p = some (.function place name params body traits))
    (hplace : place ≠ .arrow) : Provides ns p c
  | program (h : p = root) : Provides ns p c
  /-- The initial value of a member of a class. -/
  | field {key q : NodeId} {isStatic computed : Bool} {place : ClassPlace}
    {name heritage : Option NodeId} {members : List NodeId}
    (hf : ns.form? p = some (.field key (some c) isStatic computed)) (hq : ns.parent? p = some q)
    (hclass : ns.form? q = some (.classBody place name heritage members)) (hmem : p ∈ members) :
    Provides ns p c

/-- The nearest node around that provides. -/
inductive Provider (ns : Nodes) (p : NodeId) : NodeId → Prop where
  | here {c : NodeId} (hp : ns.parent? c = some p) (h : ns.Provides p c) : Provider ns p c
  | up {c q : NodeId} (hq : ns.parent? c = some q) (hn : ¬ns.Provides q c) (h : Provider ns p q) :
    Provider ns p c

/-- What a node has for `this` and `arguments` is what a node below it has: none on the way
provides. -/
def Passes (ns : Nodes) (a s : NodeId) : Prop :=
  ∀ x y, ns.Inside a x → ns.parent? y = some x → ns.Inside y s → ¬ns.Provides x y

theorem passes_refl (h : ns.WellFormed) : ns.Passes s s := by
  intro x y hx hp hy
  exact absurd (hx.le h) (Nat.not_le_of_lt (Nat.lt_of_lt_of_le (h.parent_lt hp) (hy.le h)))

theorem Passes.mono (hp : ns.Passes a s) (hin : ns.Inside a b) : ns.Passes b s :=
  fun x y hx => hp x y (hin.trans hx)

theorem Provider.unique (hp : ns.Provider p s) (hq : ns.Provider q s) : p = q := by
  induction hp with
  | here hp h =>
    cases hq with
    | here hq => exact Option.some.inj (hp.symm.trans hq)
    | up hq hn =>
      cases hp.symm.trans hq
      exact absurd h hn
  | up hp hn _ ih =>
    cases hq with
    | here hq h =>
      cases hp.symm.trans hq
      exact absurd h hn
    | up hq _ h =>
      cases hp.symm.trans hq
      exact ih h

/-- Every node below the program has a provider. -/
theorem exists_provider (hin : ns.Inside root s) (hne : s ≠ root) : ∃ p, ns.Provider p s := by
  induction hin with
  | refl => exact absurd rfl hne
  | @up c q hq _ ih =>
    by_cases h : ns.Provides q c
    · exact ⟨q, .here hq h⟩
    · obtain ⟨p, hp⟩ := ih fun hroot => h (.program hroot)
      exact ⟨p, .up hq h hp⟩

theorem provider_iff (h : ns.WellFormed) : ns.Provider p s ↔
    ∃ c, ns.parent? c = some p ∧ ns.Provides p c ∧ ns.Inside c s ∧ ns.Passes c s := by
  constructor
  · intro hp
    induction hp with
    | here hp hprovides => exact ⟨_, hp, hprovides, .refl, passes_refl h⟩
    | @up s q hq hn _ ih =>
      obtain ⟨c, hc, hprovides, hin, hpasses⟩ := ih
      refine ⟨c, hc, hprovides, .up hq hin, fun x y hx hy hys => ?_⟩
      by_cases hne : y = s
      · subst hne
        cases hq.symm.trans hy
        exact hn
      · exact hpasses x y hx hy (hys.parent hne hq)
  · rintro ⟨c, hc, hprovides, hin, hpasses⟩
    induction hin with
    | refl => exact .here hc hprovides
    | @up s q hq hin ih =>
      exact .up hq (hpasses q s hin hq .refl)
        (ih fun x y hx hy hys => hpasses x y hx hy (.up hq hys))

/-- The provider of what lies in a body lies around the statement with that body exactly if the way
into the body passes what is around. -/
theorem Provider.inside_iff (h : ns.WellFormed) (hp : ns.Provider p s)
    (hb : ns.parent? b = some a) (hin : ns.Inside b s) (hn : ¬ns.Provides a b) :
    ns.Inside p a ↔ ns.Passes b s := by
  obtain ⟨c, hc, hprovides, hcs, hpasses⟩ := (provider_iff h).1 hp
  constructor
  · intro hpa
    refine hpasses.mono ?_
    rcases hcs.comparable hin with hcb | hbc
    · exact hcb
    · -- Else the body lies around the provider, and the provider around the body.
      by_cases hbc' : b = c
      · exact hbc' ▸ .refl
      · have hle := Nat.le_trans ((hbc.parent hbc' hc).le h) (hpa.le h)
        exact absurd (h.parent_lt hb) (Nat.not_lt_of_le hle)
  · intro hbs
    rcases hcs.comparable hin with hcb | hbc
    · exact ((Inside.of_parent hc).trans hcb).parent
        (Nat.ne_of_lt (Nat.lt_of_lt_of_le (h.parent_lt hc) (hcb.le h))) hb
    · by_cases hbc' : b = c
      · subst hbc'
        cases hb.symm.trans hc
        exact absurd hprovides hn
      · exact absurd hprovides (hbs p c (hbc.parent hbc' hc) hc hcs)

end LoopClosure.Syntax.Nodes
