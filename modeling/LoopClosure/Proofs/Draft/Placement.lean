import LoopClosure.Draft.Variables
import LoopClosure.Proofs.Binding.Targets
import LoopClosure.Proofs.Draft.Fresh
import LoopClosure.Proofs.Lowering.Hosts
import LoopClosure.Proofs.Scope.Nearest

/-!
# Scopes for generated declarations

- `Bound.IsSeat b x`: scope `x` is a hoisting scope in which a `var` statement can stand.
- `Bound.Seats b y x`: `y` is the innermost seat around `x`. The search for a place of a declaration
  finds it (`seats_of_declarationScope?`).
- `Bound.Firm b`: every scope has such a seat, names with a dollar sign that are no identifiers of
  the unit are declared nowhere, and no temporary was given back. So it is for what a binding
  returns (`bind_firm`): statements nest less deep than a way up is long, and a class or an arrow
  that takes no `var` lies in another scope.
- The innermost hoisting scope around two scopes lies below every other one, unless the ways up are
  cut off before they meet (`commonHoist_cases`).
-/

namespace LoopClosure

open Syntax Scopes

namespace Bound

variable {b b' : Bound} {x y z : ScopeId}

/-! ## Seats -/

/-- A `var` statement can stand in the scope. -/
def IsSeat (b : Bound) (x : ScopeId) : Prop :=
  b.scopes.kind? (some x) = some .hoist ∧ b.takesVar x = true

/-- `y` is the innermost seat around `x`. -/
structure Seats (b : Bound) (y x : ScopeId) : Prop where
  isSeat : b.IsSeat y
  under : b.scopes.Under y x
  innermost : ∀ {z}, b.IsSeat z → b.scopes.Under z x → b.scopes.Under z y

theorem closestHoist?_none (b : Bound) : b.scopes.closestHoist? none = none := rfl

theorem declarationScopeWithin_none (b : Bound) (n : Nat) : b.declarationScopeWithin n none = none := by
  cases n with
  | zero => rfl
  | succ n => rw [declarationScopeWithin, closestHoist?_none]

theorem seats_of_declarationScopeWithin {n : Nat}
    (h : b.declarationScopeWithin n (some x) = some y) : b.Seats y x := by
  induction n generalizing x with
  | zero => cases h
  | succ n ih =>
    unfold declarationScopeWithin at h
    split at h
    · cases h
    · next hoist hhoist =>
      obtain ⟨hunder, hkind, hfirst⟩ := nearest_of_find?_walkUp hhoist
      have hkind := of_decide_eq_true hkind
      split at h
      · next htakes =>
        obtain rfl := Option.some.inj h
        exact ⟨⟨hkind, htakes⟩, hunder, fun hz hzx => hfirst hzx (decide_eq_true hz.1)⟩
      · next htakes =>
        cases hp : b.scopes.parent? (some hoist) with
        | none =>
          rw [hp, declarationScopeWithin_none] at h
          cases h
        | some q =>
          have hq := ih (hp ▸ h)
          refine ⟨hq.isSeat, (Under.up hp hq.under).trans hunder, fun hz hzx => ?_⟩
          cases hfirst hzx (decide_eq_true hz.1) with
          | refl => exact absurd hz.2 htakes
          | up hp' hzq =>
            cases hp.symm.trans hp'
            exact hq.innermost hz hzq

/-- The scope for the declarations of a scope is the innermost seat around it. -/
theorem seats_of_declarationScope? (h : b.declarationScope? (some x) = some y) : b.Seats y x :=
  seats_of_declarationScopeWithin h

theorem isSeat_of_declarationScope? {id : Option ScopeId} (h : b.declarationScope? id = some y) :
    b.IsSeat y := by
  cases id with
  | none =>
    rw [declarationScope?, declarationScopeWithin_none] at h
    cases h
  | some x => exact (seats_of_declarationScope? h).isSeat

theorem declarationScope?_of_isSeat (h : b.IsSeat x) : b.declarationScope? (some x) = some x := by
  have hhoist : b.scopes.closestHoist? (some x) = some x :=
    List.find?_cons_of_pos (decide_eq_true h.1)
  rw [declarationScope?, declarationScopeWithin, hhoist]
  exact if_pos h.2

/-- A hoisting scope that the ways up from both scopes show. -/
def Meet (b : Bound) (x y c : ScopeId) : Prop :=
  c ∈ b.scopes.walk (some x) ∧ c ∈ b.scopes.walk (some y) ∧ b.scopes.kind? (some c) = some .hoist

/-- The innermost hoisting scope around two scopes, unless their ways up show none in common. -/
theorem commonHoist_cases (hs : b.scopes.Rooted) (x y : ScopeId) :
    (∃ c, b.commonHoist (some x) (some y) = some c ∧ b.Meet x y c ∧
      ∀ z, b.scopes.kind? (some z) = some .hoist → b.scopes.Under z x → b.scopes.Under z y →
        b.scopes.Under z c) ∨
    (b.commonHoist (some x) (some y) = some x ∧ ∀ c, ¬b.Meet x y c) := by
  unfold commonHoist
  extract_lets around
  have haround {c : ScopeId} : around.contains c = true ↔
      c ∈ b.scopes.walk (some x) ∧ b.scopes.kind? (some c) = some .hoist := by
    rw [List.contains_iff_mem, List.mem_filter, decide_eq_true_iff]
  clear_value around
  cases hfind : (b.scopes.walk (some y)).find? around.contains with
  | none => exact .inr ⟨rfl, fun c hc => List.find?_eq_none.1 hfind c hc.2.1 (haround.2 ⟨hc.1, hc.2.2⟩)⟩
  | some c =>
    obtain ⟨-, hc, hfirst⟩ := nearest_of_find?_walkUp hfind
    obtain ⟨hmem, hkind⟩ := haround.1 hc
    have hx := under_of_mem_walkUp hmem
    refine .inl ⟨c, rfl, ⟨hmem, List.mem_of_find?_eq_some hfind, hkind⟩, fun z hz hzx hzy => ?_⟩
    rcases hzx.comparable hx with h | h
    · exact h
    · -- The way up from `x` shows `z` before it shows `c`.
      exact hfirst hzy (haround.2 ⟨mem_walkUp_of_under hs.acyclic hmem hzx h, hz⟩)

/-! ## What a change of declarations leaves -/

namespace SameFrame

theorem nodes (h : SameFrame b b') : b'.nodes = b.nodes := congrArg CompilationUnit.nodes h.unit

theorem nodeScope? (h : SameFrame b b') (i : NodeId) : b'.nodeScope? i = b.nodeScope? i := by
  rw [Bound.nodeScope?, h.nodeScopes, Bound.nodeScope?]

theorem walk (h : SameFrame b b') (id : Option ScopeId) : b'.scopes.walk id = b.scopes.walk id :=
  walkUp_congr (fun _ => h.shape.parent? _) _ id

theorem takesVar (h : SameFrame b b') (x : ScopeId) : b'.takesVar x = b.takesVar x := by
  rw [Bound.takesVar, h.shape.node?, h.flags, h.nodes, Bound.takesVar]

theorem declarationScopeWithin (h : SameFrame b b') (n : Nat) (id : Option ScopeId) :
    b'.declarationScopeWithin n id = b.declarationScopeWithin n id := by
  have hclosest := closestHoist?_congr (fun _ => h.shape.parent? _) fun _ => h.kind? _
  induction n generalizing id with
  | zero => rfl
  | succ n ih =>
    unfold Bound.declarationScopeWithin
    simp only [hclosest, h.takesVar, h.shape.parent?, ih]

theorem declarationScope? (h : SameFrame b b') (id : Option ScopeId) :
    b'.declarationScope? id = b.declarationScope? id := by
  rw [Bound.declarationScope?, h.declarationScopeWithin, h.shape.size, Bound.declarationScope?]

theorem insertPosition (h : SameFrame b b') (id : Option ScopeId) :
    b'.insertPosition id = b.insertPosition id := by
  rw [Bound.insertPosition, h.shape.node?, h.nodes, Bound.insertPosition]

theorem commonHoist (h : SameFrame b b') (x y : Option ScopeId) :
    b'.commonHoist x y = b.commonHoist x y := by
  unfold Bound.commonHoist
  simp only [h.walk, h.kind?]

theorem blockEnd? (h : SameFrame b b') (i : NodeId) : b'.blockEnd? i = b.blockEnd? i := by
  rw [Bound.blockEnd?, h.nodes, Bound.blockEnd?]

end SameFrame

end Bound

/-! ## Temporaries -/

namespace Scopes

variable {s : Scopes}

/-- The temporaries given back in a scope. -/
def free (s : Scopes) (x : ScopeId) : List (String × Nat) :=
  ((s.get? (some x)).map (·.freeTemps)).getD []

theorem free_update {f : Scope → Scope} (hf : ∀ c, (f c).freeTemps = c.freeTemps)
    (id : Option ScopeId) (x : ScopeId) : (s.update id f).free x = s.free x :=
  congrArg (Option.getD · []) (view_update (·.freeTemps) hf id (some x))

theorem free_alloc {kind : ScopeKind} {node : Option NodeId} {parent : Option ScopeId}
    {flags : Flags} (hp : parent ≠ some s.size) (x : ScopeId) :
    (s.alloc kind node parent flags).1.free x = s.free x := by
  by_cases hx : x = s.size
  · subst hx
    simp [free, get?_alloc_size hp, get?_eq_none]
  · exact congrArg (Option.getD · []) (view_alloc_of_ne (·.freeTemps) (fun _ _ => rfl) hx)

end Scopes

/-! ## The scopes of a bound unit -/

namespace Binding

variable {u : CompilationUnit} {G : Grants} {s t : Scopes}

/-- A `var` statement can stand where the globals are. -/
def TopTakes (s : Scopes) : Prop :=
  s.kind? (some topScope) = some .hoist ∧ (s.flags (some topScope)).origin.class_ = false

namespace TopTakes

theorem congr (h : TopTakes s) (hk : ∀ id, t.kind? id = s.kind? id)
    (hf : ∀ id, (t.flags id).origin = (s.flags id).origin) : TopTakes t := by
  rwa [TopTakes, hk, hf]

theorem addGlobal (h : TopTakes s) (name : String) (kind : BindingKind) (fromPos : Option Nat) :
    TopTakes (s.addGlobal topScope name kind fromPos) :=
  h.congr
    (fun _ => view_update (f := fun c => (c.remove name).append name _) (·.kind) (fun _ => rfl) _ _)
    fun _ => flags_view_update (f := fun c => (c.remove name).append name _) Flags.origin
      (fun _ => rfl) _ _

theorem alloc (h : TopTakes s) {kind : ScopeKind} {i : NodeId} {p : ScopeId} {flags : Flags}
    (hlt : p < s.size) : TopTakes (s.alloc kind (some i) (some p) flags).1 := by
  have hne : some p ≠ some s.size := fun e => Nat.ne_of_lt hlt (Option.some.inj e)
  have htop : topScope ≠ s.size := Nat.ne_of_lt (Nat.zero_lt_of_lt hlt)
  rwa [TopTakes, kind?_alloc hne, flags_alloc hne, if_neg htop, if_neg htop]

end TopTakes

/-- No temporary was given back. -/
def Pristine (s : Scopes) : Prop := ∀ x, s.free x = []

namespace Pristine

theorem step (h : Pristine s) (hstep : Step u G s t) : Pristine t := fun x =>
  (congrArg (Option.getD · []) (hstep.view (·.freeTemps) (fun _ _ _ _ _ => rfl) (some x))).trans (h x)

theorem addGlobal (h : Pristine s) (name : String) (kind : BindingKind) (fromPos : Option Nat) :
    Pristine (s.addGlobal topScope name kind fromPos) := fun x =>
  (free_update (f := fun c => (c.remove name).append name _) (fun _ => rfl) _ x).trans (h x)

theorem alloc (h : Pristine s) {kind : ScopeKind} {i : NodeId} {p : ScopeId} {flags : Flags}
    (hlt : p < s.size) : Pristine (s.alloc kind (some i) (some p) flags).1 := fun x =>
  (free_alloc (fun e => Nat.ne_of_lt hlt (Option.some.inj e)) x).trans (h x)

end Pristine

end Binding

open Binding

/-- What the first scope has, and each way to change scopes keeps, holds of the scopes of a unit. -/
theorem bind_scopes_induct {u : CompilationUnit} {root : NodeId} {b : Bound} {P : Scopes → Prop}
    (hfirst : P (Scopes.alloc {} .hoist none none { top := true }).1)
    (hstep : ∀ {G : Grants} {s t : Scopes}, P s → Step u G s t → P t)
    (hglobal : ∀ {s : Scopes} (name : String) (kind : BindingKind) (fromPos : Option Nat), P s →
      P (s.addGlobal topScope name kind fromPos))
    (halloc : ∀ {s : Scopes} {kind : ScopeKind} {i : NodeId} {p : ScopeId} {flags : Flags}, P s →
      p < s.size → P (s.alloc kind (some i) (some p) flags).1)
    (h : bind u root = .ok b) : P b.scopes := by
  have hfold {α : Type} {step : Scopes → α → Scopes} (hs : ∀ s a, P s → P (step s a)) (as : List α)
      {s : Scopes} (h : P s) : P (as.foldl step s) :=
    List.foldlRecOn (motive := P) as step h fun s h a _ => hs s a h
  have hsteps {G : Grants} {s t : Scopes} (h : P s) (hst : Steps u G s t) : P t := by
    induction hst with
    | refl => exact h
    | tail _ hst ih => exact hstep ih hst
  have htable {s : Scopes} (table : List (String × Bool)) (h : P s) : P (Binding.addTable s table) :=
    hfold (fun _ e h => hglobal e.1 _ _ h) table h
  have htables {s : Scopes} (tables : List (List (String × Bool))) (h : P s) :
      P (tables.foldl Binding.addTable s) := hfold (fun _ table h => htable table h) tables h
  unfold bind at h
  split at h
  · obtain ⟨s, hs, h⟩ := bind_eq_ok.1 h
    obtain ⟨build, hbuild, h⟩ := bind_eq_ok.1 h
    extract_lets listed globals at h
    obtain ⟨r, hr, h⟩ := bind_eq_ok.1 h
    cases h
    have hstart : P s := by
      have hs := hs
      unfold Binding.environment at hs
      obtain ⟨t, ht, hs⟩ := bind_eq_ok.1 hs
      cases hs
      rw [addEnvironments_eq ht]
      exact htable _ (htables _ (htables _ hfirst))
    have hentered : P build.scopes :=
      (entered_environment hs).invariant (P := fun b => P b.scopes) hstart
        (fun he hp _ hnode => by
          obtain ⟨own, henter, -⟩ := enterNode_scopes hnode
          cases enterScopes_enters henter with
          | same _ hst => exact hsteps hp hst
          | own _ hst _ hst' =>
            exact hsteps (halloc (hsteps hp hst) (hst.sameShape.size ▸ he.scope_lt _)) hst') rfl hbuild
    exact hsteps (hfold (fun _ e h => hglobal e.1 _ _ h) _ hentered : P globals) (resolveAll_steps hr)
  · cases h

section

variable {u : CompilationUnit} {root : NodeId} {b : Bound}

theorem bind_topTakes (h : bind u root = .ok b) : TopTakes b.scopes :=
  bind_scopes_induct ⟨rfl, rfl⟩ (fun hs hst => hs.congr hst.kind? hst.origin)
    (fun _ _ _ hs => hs.addGlobal _ _ _) (fun hs hp => hs.alloc hp) h

theorem bind_pristine (h : bind u root = .ok b) : Pristine b.scopes := by
  refine bind_scopes_induct (fun x => ?_) (fun hs hst => hs.step hst)
    (fun _ _ _ hs => hs.addGlobal _ _ _) (fun hs hp => hs.alloc hp) h
  cases x <;> rfl

end

namespace Binding

variable {u : CompilationUnit} {s : Scopes} {globals : List String} {table : Array ScopeId}
  {done : List Site} {x : ScopeId} {i : NodeId} {name : String}

/-- The way up from a node shows a hoisting scope before it is cut off: a name that nothing bars gets
there. -/
theorem Layout.exists_closestHoist? (h : Layout u globals s table done) (hns : u.nodes.WellFormed)
    (hroot : u.nodes.Rooted) (hs : s.WellFormed) (hbars : ∀ id, s.bars id name = false)
    (hi : table[i]? = some x) : ∃ y, s.closestHoist? (some x) = some y := by
  obtain ⟨depth, hd⟩ := hns.shallow
  have hlong : 0 < maxWalk ∧ (hoists u i = true ∨ Tree.maxStatementDepth + 2 ≤ maxWalk + depth i) :=
    ⟨by decide, .inr (Nat.le_trans (by decide) (Nat.le_add_right _ _))⟩
  have hwalk (j : ScopeId) (hj : j ∈ s.walk (some x)) : ∃ c, s.get? (some j) = some c :=
    get?_of_mem_walkUp hs (fun k e => Option.some.inj e ▸ h.lt hi) hj
  rcases h.hoistTarget_cases hns hroot hd name hi hlong with ⟨-, m, -, y, -, hb⟩ | ⟨⟨m, y, -, -, ht⟩, -⟩
  · rw [hbars] at hb
    cases hb
  · refine ⟨y, ?_⟩
    rcases Scopes.hoistTarget_cases name fun j hj => hwalk j (List.takeWhile_subset _ hj) with
      ⟨heq, -⟩ | ⟨⟨d, he⟩, -⟩
    · exact Except.ok.inj (heq.symm.trans ht)
    · cases he.symm.trans ht

/-- A name is declared only if it is one of a site or of a global. -/
theorem Layout.declaration?_eq_none (h : Layout u globals s table done) (hs : s.Tree topScope)
    (hnodes : ∀ x p, s.parent? (some x) = some p → ∃ n, s.node? (some x) = some n)
    (hsites : ∀ a ∈ done, a.name ≠ name) (hglobals : name ∉ globals) (id : Option ScopeId) :
    s.declaration? id name = none := by
  cases id with
  | none => rfl
  | some x =>
    by_cases hx : x < s.size
    · cases hp : s.parent? (some x) with
      | none =>
        obtain rfl := (hs.isRoot_iff x).1 ⟨hx, hp⟩
        have hglobal := h.global name
        rw [if_neg hglobals] at hglobal
        exact Option.map_eq_none_iff.1 hglobal
      | some p =>
        obtain ⟨n, hn⟩ := hnodes x p hp
        have hnone : done.find? (·.isAt u n name) = none :=
          List.find?_eq_none.2 fun a ha hat => hsites a ha (Site.isAt_iff.1 hat).1
        have hdeclared := h.declared name hn
        rw [hnone] at hdeclared
        exact Option.map_eq_none_iff.1 hdeclared
    · rw [declaration?, get?_eq_none (Nat.le_of_not_lt hx), Option.bind_none]

/-- The predefined globals have plain names, and those that are listed are identifiers. -/
theorem not_mem_globalNames {root : NodeId} {b : Bound} (hb : bind u root = .ok b)
    (hroot : root = Nodes.root) (hd : '$' ∈ name.toList) (hn : name ∉ b.identifiers) :
    name ∉ globalNames u := by
  obtain ⟨statements, comments, hform, hmem⟩ := mem_identifiers hb
  subst hroot
  rw [hmem, not_or, not_or] at hn
  obtain ⟨-, hoptions, hcomments⟩ := hn
  have htable {table : List (String × Bool)}
      (ht : table ∈ Globals.always ++ Globals.environments.map (·.2)) :
      name ∉ table.map (·.1) := fun hname => by
    obtain ⟨e, he, rfl⟩ := List.mem_map.1 hname
    exact dollar_not_mem_globals table ht e he hd
  intro h
  rcases List.mem_append.1 h with h | h
  · obtain ⟨e, he, rfl⟩ := List.mem_map.1 h
    obtain ⟨table, ht, he⟩ := List.mem_flatten.1 he
    have hname := List.mem_map_of_mem (f := (·.1)) he
    rcases List.mem_append.1 ht with ht | ht
    · rcases List.mem_append.1 ht with ht | ht
      · exact htable (List.mem_append_left _ ht) hname
      · obtain ⟨environment, -, henv⟩ := List.mem_filterMap.1 ht
        obtain ⟨l₁, l₂, heq, -⟩ := List.lookup_eq_some_iff.1 henv
        have hmem : table ∈ Globals.environments.map (·.2) :=
          List.mem_map.2 ⟨_, by rw [heq]; exact List.mem_append_right _ List.mem_cons_self, rfl⟩
        exact htable (List.mem_append_right _ hmem) hname
    · exact hoptions (List.mem_singleton.1 ht ▸ hname)
  · rw [listedGlobals, hform] at h
    exact hcomments h

end Binding

namespace Bound

variable {b b' : Bound} {x y : ScopeId}

/-- What generated variables rely on: there is a place for the declarations of each scope, and names
with a dollar sign that the unit does not have are declared nowhere. -/
structure Firm (b : Bound) : Prop where
  rooted : b.scopes.Rooted
  seated : ∀ {x}, x < b.scopes.size → ∃ y, b.declarationScope? (some x) = some y
  placed : ∀ {i : NodeId}, i < b.nodes.size → ∃ x, b.nodeScope? i = some x ∧ x < b.scopes.size
  undeclared : ∀ {name : String}, '$' ∈ name.toList → name ∉ b.identifiers →
    ∀ id, b.scopes.declaration? id name = none
  pristine : Pristine b.scopes

/-- A scope in which no `var` can stand lies in another one. -/
theorem exists_declarationScopeWithin (hgrown : b.scopes.Grown) (htree : b.scopes.Tree topScope)
    (hhoist : ∀ {x}, x < b.scopes.size → ∃ y, b.scopes.closestHoist? (some x) = some y)
    (htop : b.takesVar topScope = true) {n : Nat} (hx : x < n) (hlt : x < b.scopes.size) :
    ∃ y, b.declarationScopeWithin n (some x) = some y := by
  induction n generalizing x with
  | zero => exact absurd hx (Nat.not_lt_zero x)
  | succ n ih =>
    obtain ⟨hoist, hhoistx⟩ := hhoist hlt
    have hle : hoist ≤ x := le_of_mem_walkUp hgrown (List.mem_of_find?_eq_some hhoistx)
    unfold declarationScopeWithin
    rw [hhoistx]
    dsimp only
    split
    · exact ⟨hoist, rfl⟩
    · next htakes =>
      have hlt' : hoist < b.scopes.size := Nat.lt_of_le_of_lt hle hlt
      cases hp : b.scopes.parent? (some hoist) with
      | none =>
        obtain rfl := (htree.isRoot_iff hoist).1 ⟨hlt', hp⟩
        exact absurd htop htakes
      | some p =>
        have hplt : p < hoist := hgrown.parent_lt hp
        exact ih (Nat.lt_of_lt_of_le hplt (Nat.le_of_lt_succ (Nat.lt_of_le_of_lt hle hx)))
          (Nat.lt_trans hplt hlt')

end Bound

section Bind

variable {u : CompilationUnit} {b : Bound}

theorem bind_firm (hns : u.nodes.WellFormed) (hroot : u.nodes.Rooted) (hb : bind u = .ok b) :
    b.Firm := by
  have hlayout := bind_layout hns hroot hb
  have hgrounded := Bound.bind_grounded hns hroot hb
  have hwell := (bind_wellScoped hb).1
  have htop := bind_topTakes hb
  have htotal := bind_total hb
  have hsites := @identifier?_of_mem_sites u
  obtain ⟨statements, comments, -, hmem⟩ := mem_identifiers hb
  have hglobals {name : String} (hd : '$' ∈ name.toList) (hn : name ∉ b.identifiers) :
      name ∉ globalNames u := not_mem_globalNames hb rfl hd hn
  obtain rfl := bind_unit hb
  have hundeclared {name : String} (hd : '$' ∈ name.toList) (hn : name ∉ b.identifiers)
      (id : Option ScopeId) : b.scopes.declaration? id name = none := by
    refine hlayout.declaration?_eq_none hgrounded.tree (fun x p hp => ?_) (fun a ha heq => ?_)
      (hglobals hd hn) id
    · obtain ⟨n, hn, -⟩ := hgrounded.nest hp
      exact ⟨n, hn⟩
    · exact hn (hmem.2 (.inl ⟨a.ident, heq ▸ hsites ha⟩))
  have hhoist {x : ScopeId} (hx : x < b.scopes.size) :
      ∃ y, b.scopes.closestHoist? (some x) = some y := by
    cases hp : b.scopes.parent? (some x) with
    | none =>
      obtain rfl := (hgrounded.tree.isRoot_iff x).1 ⟨hx, hp⟩
      exact ⟨topScope, List.find?_cons_of_pos (decide_eq_true htop.1)⟩
    | some p =>
      obtain ⟨n, hn, -⟩ := hgrounded.nest hp
      obtain ⟨k, -, hk⟩ := Names.exists_candidate_not_mem "" (Nat.lt_succ_self b.identifiers.length)
      have hbars (id : Option ScopeId) : b.scopes.bars id (Names.candidate "" k) = false := by
        rw [bars, hundeclared (Names.dollar_mem_candidate "" k) hk]
        rfl
      exact hlayout.exists_closestHoist? hns hroot hwell.wellFormed hbars (hlayout.node hn).1
  refine ⟨hgrounded.tree.rooted, fun hx => ?_, fun {i} hi => ?_, hundeclared, bind_pristine hb⟩
  · refine Bound.exists_declarationScopeWithin hlayout.grown hgrounded.tree hhoist ?_
      (Nat.lt_succ_of_lt hx) hx
    have hclass : (b.scopes.flags (some topScope)).class_ = false := htop.2
    simp [Bound.takesVar, hgrounded.top, hclass]
  · obtain ⟨x, hx⟩ := htotal i hi
    exact ⟨x, hx, hwell.nodeScope_lt hx⟩

/-- Ways up that are not cut off meet, if not before, at the scope of the globals. -/
theorem bind_meet (hns : u.nodes.WellFormed) (hroot : u.nodes.Rooted) (hb : bind u = .ok b)
    (hwalk : b.Uncut) {x y : ScopeId} (hx : x < b.scopes.size) (hy : y < b.scopes.size) :
    b.Meet x y topScope := by
  have hlayout := bind_layout hns hroot hb
  have hgrounded := Bound.bind_grounded hns hroot hb
  have hmem {x : ScopeId} (hx : x < b.scopes.size) : topScope ∈ b.scopes.walk (some x) := by
    cases hp : b.scopes.parent? (some x) with
    | none =>
      obtain rfl := (hgrounded.tree.isRoot_iff x).1 ⟨hx, hp⟩
      exact mem_walk_self _ _
    | some p =>
      obtain ⟨n, hn, -⟩ := hgrounded.nest hp
      exact mem_walkUp_of_length_lt (hgrounded.tree.under x hx)
        (hwalk x (Array.mem_of_getElem? (hlayout.node hn).1))
  exact ⟨hmem hx, hmem hy, (bind_topTakes hb).1⟩

end Bind

end LoopClosure
