import Mathlib.Data.List.Flatten
import LoopClosure.Proofs.Binding.Performs
import LoopClosure.Proofs.Binding.Regions
import LoopClosure.Proofs.Scope.Hoist
import LoopClosure.Proofs.Scope.Moves

/-!
# Scopes laid out along the tree

`Layout u globals s table done`: what the scopes of a unit are when the nodes in `table` are entered and the
sites in `done` are declared. There is one scope for each node that opens one, below the scope of its
parent; a name that goes to a scope is declared there by its first site; and no two of the sites
clash.

A site is declared exactly if it clashes with none before it (`Layout.declare_cases`): the scopes
that a hoisted name passes are no more than the statements of a function lie in one another, so the
bound on walks does not matter.
-/

namespace LoopClosure

open Syntax Scopes

/-- What a declaration says of its identifier. -/
def Declaration.binder (d : Declaration) : BindingKind × Option NodeId := (d.kind, d.node)

namespace Syntax.Nodes

/-- The one node without a parent is a program. -/
def Rooted (ns : Nodes) : Prop := ∀ {i : NodeId} {form : Form NodeId}, ns.form? i = some form →
  ns.parent? i = none → ∃ statements comments, form = .program statements comments

end Syntax.Nodes

namespace Binding

variable {u : CompilationUnit} {G : Grants} {s t : Scopes}

/-! ## Steps that declare nothing -/

/-- What a step does not change. -/
theorem Step.view {β : Type} (h : Step u G s t) (view : Scope → β)
    (hv : ∀ c declarations references flags propagates,
      view { c with declarations, references, flags, propagates } = view c) (id : Option ScopeId) :
    (t.get? id).map view = (s.get? id).map view := by
  cases h with
  | declare _ _ hd =>
    rcases Scopes.declare_cases hd with rfl | ⟨j, c, -, -, -, rfl⟩
    · rfl
    · exact view_update view (fun c => hv c _ c.references c.flags c.propagates) _ _
  | modify => exact view_update view (fun c => hv c _ c.references c.flags c.propagates) _ _
  | addFlags => exact view_update view (fun c => hv c c.declarations c.references _ c.propagates) _ _
  | markPropagates =>
    exact view_update view (fun c => hv c c.declarations c.references c.flags _) _ _
  | addReference =>
    refine view_update view (fun c => ?_) _ _
    unfold Scope.addReference
    split <;> exact hv c c.declarations _ c.flags c.propagates

theorem Step.kind? (h : Step u G s t) (id : Option ScopeId) : t.kind? id = s.kind? id :=
  h.view (·.kind) (fun _ _ _ _ _ => rfl) id

theorem Step.grown (h : Step u G s t) (hs : s.Grown) : t.Grown := by
  cases h with
  | declare _ _ hd =>
    rcases Scopes.declare_cases hd with rfl | ⟨j, c, -, -, -, rfl⟩
    · exact hs
    · exact hs.update _ ⟨fun _ => rfl, fun _ => rfl, fun _ => rfl⟩ fun _ => rfl
  | modify => exact hs.update _ ⟨fun _ => rfl, fun _ => rfl, fun _ => rfl⟩ fun _ => rfl
  | addFlags id hf =>
    refine hs.update _ ⟨fun _ => rfl, fun _ => rfl, fun _ => rfl⟩ fun c => ?_
    rcases hf with rfl | rfl <;> exact Bool.or_false _
  | markPropagates => exact hs.update _ ⟨fun _ => rfl, fun _ => rfl, fun _ => rfl⟩ fun _ => rfl
  | addReference =>
    refine hs.update _ (.addReference _ _) fun c => ?_
    unfold Scope.addReference
    split <;> rfl

theorem Step.binder_eq (h : Step u .none s t) (x : ScopeId) (name : String) :
    (t.declaration? (some x) name).map Declaration.binder =
      (s.declaration? (some x) name).map Declaration.binder := by
  cases h with
  | declare _ hg => exact hg.elim
  | @modify id other f hf =>
    rw [declaration?_modify]
    split
    · cases s.declaration? (some x) name with
      | none => rfl
      | some d => simp [Declaration.binder, (hf d).kind, (hf d).node]
    · rfl
  | addFlags => rw [declaration?_addFlags]
  | markPropagates => rw [declaration?_markPropagates]
  | addReference => rw [declaration?_addReference]

theorem Opens.unwrapped {form : Form NodeId} {kind : ScopeKind} {flags : Flags}
    (h : Opens form kind flags) : flags.loopWrapper = false := by
  cases h <;> rfl

theorem Opens.isHoist_iff {form : Form NodeId} {kind : ScopeKind} {flags : Flags}
    (h : Opens form kind flags) : form.isHoist = true ↔ kind = .hoist := by
  cases h <;> simp [Form.isHoist]

/-! ## The layout -/

namespace Site

/-- The name goes to the scope of node `n`. -/
def isAt (u : CompilationUnit) (n : NodeId) (name : String) (a : Site) : Bool :=
  decide (a.name = name ∧ a.home? u = some n)

theorem isAt_iff {n : NodeId} {name : String} {a : Site} :
    a.isAt u n name = true ↔ a.name = name ∧ a.home? u = some n := decide_eq_true_iff

/-- What the declaration of a site says of its identifier. -/
def binder (a : Site) : BindingKind × Option NodeId := (a.kind, some a.ident)

end Site

/-- The scopes after the nodes in `table` are entered and the sites in `done` declared; `globals` are
the names that the scope of the globals has. -/
structure Layout (u : CompilationUnit) (globals : List String) (s : Scopes) (table : Array ScopeId)
    (done : List Site) : Prop where
  pos : 0 < s.size
  top : s.node? (some topScope) = none ∧ s.parent? (some topScope) = none
  global : ∀ name, (s.declaration? (some topScope) name).map (·.node) =
    if name ∈ globals then some none else none
  entered : table.size ≤ u.nodes.size
  placed : ∀ a ∈ done, a.place < table.size
  lt : ∀ {i : NodeId} {x : ScopeId}, table[i]? = some x → x < s.size
  opener : ∀ {i : NodeId} {x : ScopeId}, table[i]? = some x → s.node? (some x) = opener? u i
  same : ∀ {i : NodeId} {x : ScopeId}, table[i]? = some x → opens u i = false →
    x = standing u table i
  node : ∀ {x : ScopeId} {n : NodeId}, s.node? (some x) = some n →
    table[n]? = some x ∧ opens u n = true
  parent : ∀ {x : ScopeId} {n : NodeId}, s.node? (some x) = some n →
    s.parent? (some x) = some (standing u table n)
  kind : ∀ {x : ScopeId} {n : NodeId}, s.node? (some x) = some n →
    (s.kind? (some x) = some .hoist ↔ hoists u n = true)
  declared : ∀ {x : ScopeId} {n : NodeId} (name : String), s.node? (some x) = some n →
    (s.declaration? (some x) name).map Declaration.binder =
      (done.find? (·.isAt u n name)).map Site.binder
  apart : done.Pairwise fun a b => ¬Clash u a b
  grown : s.Grown

namespace Layout

variable {globals : List String} {table : Array ScopeId} {done : List Site} {x y : ScopeId}
  {i n : NodeId} {name : String}

theorem top_lt (h : Layout u globals s table done) : topScope < s.size := h.pos

theorem step (h : Layout u globals s table done) (hstep : Step u .none s t) :
    Layout u globals t table done := by
  have hshape := hstep.sameShape
  refine ⟨hshape.size ▸ h.pos, ⟨(hshape.node? _).trans h.top.1, (hshape.parent? _).trans h.top.2⟩,
    fun name => ?_, h.entered, h.placed,
    fun hi => hshape.size ▸ h.lt hi, fun hi => (hshape.node? _).trans (h.opener hi), h.same,
    fun hn => h.node ((hshape.node? _).symm.trans hn), fun hn => ?_, fun hn => ?_,
    fun name hn => ?_, h.apart, hstep.grown h.grown⟩
  · have hb := congrArg (Option.map Prod.snd) (hstep.binder_eq topScope name)
    rw [Option.map_map, Option.map_map] at hb
    exact hb.trans (h.global name)
  · exact (hshape.parent? _).trans (h.parent ((hshape.node? _).symm.trans hn))
  · rw [hstep.kind?]
    exact h.kind ((hshape.node? _).symm.trans hn)
  · rw [hstep.binder_eq]
    exact h.declared name ((hshape.node? _).symm.trans hn)

theorem steps (h : Layout u globals s table done) (hsteps : Steps u .none s t) :
    Layout u globals t table done := by
  induction hsteps with
  | refl => exact h
  | tail _ hstep ih => exact ih.step hstep

/-- The node that a scope belongs to tells the scope. -/
theorem injective (h : Layout u globals s table done) (hx : s.node? (some x) = some n)
    (hy : s.node? (some y) = some n) : x = y :=
  Option.some.inj ((h.node hx).1.symm.trans (h.node hy).1)

/-- A `let` or `const` that a scope has is that of a site. -/
theorem bars_iff (h : Layout u globals s table done) (hx : s.node? (some x) = some n) :
    s.bars (some x) name = true ↔
      ∃ a ∈ done, a.isAt u n name = true ∧ a.kind.isBlockScoped = true := by
  have hkind : (s.declaration? (some x) name).map (·.kind) =
      (done.find? (·.isAt u n name)).map (·.kind) := by
    have hd := congrArg (Option.map Prod.fst) (h.declared name hx)
    rwa [Option.map_map, Option.map_map] at hd
  have hbars : s.bars (some x) name =
      ((done.find? (·.isAt u n name)).map (·.kind.isBlockScoped)).getD false := by
    have hk := congrArg (Option.map BindingKind.isBlockScoped) hkind
    rw [Option.map_map, Option.map_map] at hk
    exact congrArg (Option.getD · false) hk
  rw [hbars]
  constructor
  · intro hb
    cases hf : done.find? (·.isAt u n name) with
    | none =>
      rw [hf] at hb
      cases hb
    | some a =>
      rw [hf] at hb
      exact ⟨a, List.mem_of_find?_eq_some hf, List.find?_some hf, hb⟩
  · rintro ⟨a, ha, hat, hb⟩
    -- The first site of the name there is `a`, for the two would clash.
    cases hf : done.find? (·.isAt u n name) with
    | none => exact absurd hat (List.find?_eq_none.1 hf a ha)
    | some f =>
      obtain ⟨hfat, before, behind, rfl, hbefore⟩ := List.find?_eq_some_iff_append.1 hf
      rw [Option.map_some, Option.getD_some]
      rcases List.mem_append.1 ha with ha | ha
      · have := hbefore a ha
        simp [hat] at this
      · rcases List.mem_cons.1 ha with rfl | ha
        · exact hb
        · have hclash := (List.pairwise_cons.1 (List.pairwise_append.1 h.apart).2.1).1 a ha
          obtain ⟨hfname, hfhome⟩ := Site.isAt_iff.1 hfat
          obtain ⟨haname, hahome⟩ := Site.isAt_iff.1 hat
          exact absurd ⟨hfname.trans haname.symm, .inl ⟨hfhome.trans hahome.symm, .inr hb⟩⟩ hclash

/-! ## Ways up -/

variable {k : Nat} {depth : NodeId → Nat}

theorem exists_form (h : Layout u globals s table done) (hi : table[i]? = some x) :
    ∃ form, u.nodes.form? i = some form := by
  have hlt : i < u.nodes.size := Nat.lt_of_lt_of_le (Array.getElem?_eq_some_iff.1 hi).1 h.entered
  exact ⟨_, by rw [Nodes.form?, Nodes.get?, Array.getElem?_eq_getElem hlt, Option.map_some]⟩

theorem hoists_of_root (hroot : u.nodes.Rooted) {form : Form NodeId}
    (hf : u.nodes.form? i = some form) (hp : u.nodes.parent? i = none) : hoists u i = true := by
  obtain ⟨statements, comments, rfl⟩ := hroot hf hp
  rw [hoists, hf]
  rfl

theorem isStatement_of_opens {form : Form NodeId} (hf : u.nodes.form? i = some form)
    (ho : opens u i = true) (hh : hoists u i = false) : form.isStatement = true := by
  rw [opens, hf, Option.any_some] at ho
  rw [hoists, hf, Option.any_some] at hh
  cases form <;> first | rfl | exact Bool.noConfusion ho | exact Bool.noConfusion hh

/-- The parent of an entered node is entered. -/
theorem standing_of_parent (hns : u.nodes.WellFormed) (hi : table[i]? = some x) {p : NodeId}
    (hp : u.nodes.parent? i = some p) : table[p]? = some (standing u table i) := by
  have hlt : p < table.size :=
    Nat.lt_trans (hns.parent_lt hp) (Array.getElem?_eq_some_iff.1 hi).1
  rw [standing, hp, Option.bind_some, Array.getElem?_eq_getElem hlt, Option.getD_some]

/-- Within a function the number of levels below grows on the way up from a statement. -/
theorem hoists_or_depth_lt (hns : u.nodes.WellFormed) (hd : u.nodes.IsDepth depth) {p : NodeId}
    (hp : u.nodes.parent? i = some p) :
    hoists u p = true ∨ depth i = 0 ∨ depth i < depth p := by
  obtain ⟨form, hf, -⟩ := Nodes.exists_form?_of_parent? hns hp
  by_cases hfun : form.isFunction = true
  · left
    rw [hoists, hf, Option.any_some]
    cases form <;> first | rfl | cases hfun
  · right
    rcases Nat.eq_zero_or_pos (depth i) with hzero | hpos
    · exact .inl hzero
    · exact .inr (hd.step hp hf (Bool.eq_false_iff.2 hfun) hpos).2

/-- A hoisted name goes to the scope of its hoister, unless a scope that it passes has a `let` or
`const` of the name. -/
theorem hoistTarget_cases (h : Layout u globals s table done) (hns : u.nodes.WellFormed)
    (hroot : u.nodes.Rooted) (hd : u.nodes.IsDepth depth) (name : String) (hi : table[i]? = some x)
    (hk : 0 < k ∧ (hoists u i = true ∨ Tree.maxStatementDepth + 2 ≤ k + depth i)) :
    ((∃ d, s.hoistTarget name (s.walkUp k (some x)) = .error d) ∧
      ∃ m ∈ passed u i, ∃ y, s.node? (some y) = some m ∧ s.bars (some y) name = true) ∨
    ((∃ m y, hoister? u i = some m ∧ s.node? (some y) = some m ∧
        s.hoistTarget name (s.walkUp k (some x)) = .ok (some y)) ∧
      ∀ m ∈ passed u i, ∀ y, s.node? (some y) = some m → s.bars (some y) name = false) := by
  induction i using Nat.strongRecOn generalizing x k with
  | _ i ih =>
    obtain ⟨form, hf⟩ := h.exists_form hi
    obtain ⟨hpos, hk⟩ := hk
    obtain ⟨k, rfl⟩ := Nat.exists_eq_succ_of_ne_zero (Nat.ne_of_gt hpos)
    obtain ⟨c, hc⟩ := get?_of_lt (h.lt hi)
    have hkind : s.kind? (some x) = some c.kind := by rw [Scopes.kind?, hc, Option.map_some]
    rw [walkUp_succ]
    cases hh : hoists u i with
    | true =>
      -- The way ends here.
      have hnode : s.node? (some x) = some i := by
        rw [h.opener hi, opener?_of_opens (opens_of_hoists hh)]
      have hhoist : c.isHoist = true := by
        have := (h.kind hnode).2 hh
        rw [hkind, Option.some.injEq] at this
        exact decide_eq_true this
      refine .inr ⟨⟨i, x, hoister?_of_hoists hh, hnode, ?_⟩, by simp [passed_of_hoists hh]⟩
      rw [hoistTarget, hc]
      exact if_pos hhoist
    | false =>
      have hk : Tree.maxStatementDepth + 2 ≤ k + 1 + depth i := by simpa [hh] using hk
      cases hp : u.nodes.parent? i with
      | none => simp [hoists_of_root hroot hf hp] at hh
      | some p =>
        have hstanding := standing_of_parent hns hi hp
        have hlt := hns.parent_lt hp
        rw [hoister?_of_parent hns hp hh, passed_of_parent hns hp hh]
        cases ho : opens u i with
        | false =>
          obtain rfl := h.same hi ho
          rw [if_neg Bool.false_ne_true, ← walkUp_succ]
          refine ih p hlt hstanding ⟨hpos, ?_⟩
          rcases hoists_or_depth_lt hns hd hp with hh' | hzero | hdepth
          · exact .inl hh'
          · exact .inr (by omega)
          · exact .inr (by omega)
        | true =>
          have hnode : s.node? (some x) = some i := by rw [h.opener hi, opener?_of_opens ho]
          have hblock : c.isHoist = false := by
            have hnot := mt (h.kind hnode).1 (by simp [hh])
            rw [hkind, Option.some.injEq] at hnot
            exact decide_eq_false hnot
          have hbars : s.bars (some x) name =
              ((c.declaration? name).map (·.kind.isBlockScoped)).getD false := by
            rw [bars, declaration?, hc, Option.bind_some]
          rw [Scopes.hoistTarget, hc, if_pos rfl]
          simp only [hblock, Bool.false_eq_true, if_false, ← hbars]
          cases hb : s.bars (some x) name with
          | true => exact .inl ⟨⟨_, rfl⟩, i, List.mem_cons_self, x, hnode, hb⟩
          | false =>
            have hdepth := hd.statement hf (isStatement_of_opens hf ho hh)
            have hle := hd.le i
            have hkp : 0 < k ∧ (hoists u p = true ∨ Tree.maxStatementDepth + 2 ≤ k + depth p) := by
              refine ⟨by omega, ?_⟩
              rcases hoists_or_depth_lt hns hd hp with hh' | hzero | hlt
              · exact .inl hh'
              · omega
              · exact .inr (by omega)
            rw [h.parent hnode, if_neg Bool.false_ne_true]
            rcases ih p hlt hstanding hkp with ⟨he, m, hm, y, hy, hyb⟩ | ⟨htarget, hall⟩
            · exact .inl ⟨he, m, List.mem_cons_of_mem _ hm, y, hy, hyb⟩
            · refine .inr ⟨htarget, fun m hm y hy => ?_⟩
              rcases List.mem_cons.1 hm with rfl | hm
              · exact h.injective hnode hy ▸ hb
              · exact hall m hm y hy

/-! ## Declaring -/

theorem exists_hoister (hns : u.nodes.WellFormed) (hroot : u.nodes.Rooted) {form : Form NodeId}
    (hf : u.nodes.form? i = some form) : ∃ m, hoister? u i = some m := by
  induction i using Nat.strongRecOn generalizing form with
  | _ i ih =>
    cases hh : hoists u i with
    | true => exact ⟨i, hoister?_of_hoists hh⟩
    | false =>
      cases hp : u.nodes.parent? i with
      | none => simp [hoists_of_root hroot hf hp] at hh
      | some p =>
        obtain ⟨form', hf', -⟩ := Nodes.exists_form?_of_parent? hns hp
        rw [hoister?_of_parent hns hp hh]
        exact ih p (hns.parent_lt hp) hf'

theorem exists_opener (hns : u.nodes.WellFormed) (hroot : u.nodes.Rooted) {form : Form NodeId}
    (hf : u.nodes.form? i = some form) : ∃ m, opener? u i = some m := by
  obtain ⟨m, hm⟩ := exists_hoister hns hroot hf
  refine Option.isSome_iff_exists.1 (List.find?_isSome.2 ⟨m, List.mem_of_find?_eq_some hm, ?_⟩)
  exact opens_of_hoists (List.find?_some hm)

/-- What is passed on a way up has a scope. -/
theorem exists_scope (h : Layout u globals s table done) (hns : u.nodes.WellFormed)
    (hx : table[i]? = some x) {m : NodeId} (hm : m ∈ passed u i) :
    ∃ y, s.node? (some y) = some m := by
  obtain ⟨hm, ho⟩ := List.mem_filter.1 hm
  have hin : u.nodes.Inside m i :=
    Nodes.inside_of_mem_outward ((List.takeWhile_sublist _).subset hm)
  have hlt : m < table.size :=
    Nat.lt_of_le_of_lt (hin.le hns) (Array.getElem?_eq_some_iff.1 hx).1
  have hy : table[m]? = some table[m] := Array.getElem?_eq_getElem hlt
  exact ⟨table[m], (h.opener hy).trans (opener?_of_opens ho)⟩

/-- The scope that a site is declared in is the one of its home, unless the way there is barred. -/
theorem target_cases (h : Layout u globals s table done) (hns : u.nodes.WellFormed)
    (hroot : u.nodes.Rooted) {a : Site} (hx : table[a.place]? = some x) :
    ((∃ d, (if a.kind.isHoisted then s.hoistTarget a.name (s.walk (some x)) else .ok (some x)) =
        .error d) ∧ ∃ b ∈ done, b.name = a.name ∧ Passes u a b) ∨
    ((∃ n y, a.home? u = some n ∧ s.node? (some y) = some n ∧
        (if a.kind.isHoisted then s.hoistTarget a.name (s.walk (some x)) else .ok (some x)) =
          .ok (some y)) ∧ ∀ b ∈ done, b.name = a.name → ¬Passes u a b) := by
  obtain ⟨form, hf⟩ := h.exists_form hx
  rw [Site.home?]
  cases hk : a.kind.isHoisted with
  | false =>
    obtain ⟨n, hn⟩ := exists_opener hns hroot hf
    rw [if_neg Bool.false_ne_true, if_neg Bool.false_ne_true]
    refine .inr ⟨⟨n, x, hn, (h.opener hx).trans hn, rfl⟩, fun b _ _ hp => ?_⟩
    exact absurd (hk.symm.trans hp.1) Bool.false_ne_true
  | true =>
    obtain ⟨depth, hd⟩ := hns.shallow
    have hwalk : 0 < maxWalk ∧ (hoists u a.place = true ∨
        Tree.maxStatementDepth + 2 ≤ maxWalk + depth a.place) :=
      ⟨by decide, .inr (Nat.le_trans (by decide) (Nat.le_add_right _ _))⟩
    rw [if_pos rfl, if_pos rfl]
    rcases h.hoistTarget_cases hns hroot hd a.name hx hwalk with
      ⟨he, m, hm, y, hy, hb⟩ | ⟨⟨m, y, hm, hy, ht⟩, hall⟩
    · obtain ⟨b, hbdone, hat, hblock⟩ := (h.bars_iff hy).1 hb
      obtain ⟨hname, hhome⟩ := Site.isAt_iff.1 hat
      exact .inl ⟨he, b, hbdone, hname, hk, hblock, m, hm, hhome⟩
    · refine .inr ⟨⟨m, y, hm, hy, ht⟩, ?_⟩
      rintro b hbdone hname ⟨-, hblock, m', hm', hhome⟩
      obtain ⟨y', hy'⟩ := h.exists_scope hns hx hm'
      have hb := (h.bars_iff hy').2 ⟨b, hbdone, Site.isAt_iff.2 ⟨hname, hhome⟩, hblock⟩
      rw [hall m' hm' y' hy'] at hb
      exact Bool.false_ne_true hb

theorem find?_isAt_append (a : Site) (n : NodeId) (name : String) :
    (done ++ [a]).find? (·.isAt u n name) =
      if a.isAt u n name then (done.find? (·.isAt u n name)).or (some a)
      else done.find? (·.isAt u n name) := by
  rw [List.find?_append, List.find?_singleton]
  split <;> simp

/-- A site is declared after the others, in a table that has it as far as the name was free. -/
theorem push (h : Layout u globals s table done) {a : Site} (hplace : a.place < table.size)
    (hhome : a.home? u = some n)
    (hy : s.node? (some y) = some n) (hapart : ∀ b ∈ done, ¬Clash u b a) (hs : s.SameShape t)
    (hgrown : t.Grown) (hkind : ∀ id, t.kind? id = s.kind? id)
    (hdecl : ∀ (x : ScopeId) (name : String),
      (t.declaration? (some x) name).map Declaration.binder =
        if x = y ∧ name = a.name then
          ((s.declaration? (some x) name).map Declaration.binder).or (some a.binder)
        else (s.declaration? (some x) name).map Declaration.binder) :
    Layout u globals t table (done ++ [a]) := by
  refine ⟨hs.size ▸ h.pos, ⟨(hs.node? _).trans h.top.1, (hs.parent? _).trans h.top.2⟩,
    fun other => ?_, h.entered, fun b hb => ?_,
    fun hi => hs.size ▸ h.lt hi, fun hi => (hs.node? _).trans (h.opener hi), h.same,
    fun hn => h.node ((hs.node? _).symm.trans hn), fun hn => ?_, fun hn => ?_,
    fun {x m} name hn => ?_, ?_, hgrown⟩
  · have htop : ¬(topScope = y ∧ other = a.name) := by
      rintro ⟨rfl, -⟩
      cases h.top.1.symm.trans hy
    have hb := congrArg (Option.map Prod.snd) (hdecl topScope other)
    rw [if_neg htop, Option.map_map, Option.map_map] at hb
    exact hb.trans (h.global other)
  · rcases List.mem_append.1 hb with hb | hb
    · exact h.placed b hb
    · exact List.mem_singleton.1 hb ▸ hplace
  · exact (hs.parent? _).trans (h.parent ((hs.node? _).symm.trans hn))
  · rw [hkind]
    exact h.kind ((hs.node? _).symm.trans hn)
  · have hx : s.node? (some x) = some m := (hs.node? _).symm.trans hn
    have hiff : a.isAt u m name = true ↔ x = y ∧ name = a.name := by
      rw [Site.isAt_iff, hhome]
      constructor
      · rintro ⟨hname, hm⟩
        exact ⟨h.injective hx (Option.some.inj hm ▸ hy), hname.symm⟩
      · rintro ⟨rfl, hname⟩
        exact ⟨hname.symm, hy.symm.trans hx⟩
    rw [hdecl, find?_isAt_append, h.declared name hx]
    by_cases hat : a.isAt u m name = true
    · rw [if_pos hat, if_pos (hiff.1 hat), Option.map_or, Option.map_some]
    · rw [if_neg hat, if_neg (mt hiff.2 hat)]
  · refine List.pairwise_append.2 ⟨h.apart, List.pairwise_singleton _ _, fun b hb c hc => ?_⟩
    rw [List.mem_singleton.1 hc]
    exact hapart b hb

/-- A site is declared, unless it clashes with one before it. -/
theorem declare_cases (h : Layout u globals s table done) (hns : u.nodes.WellFormed)
    (hroot : u.nodes.Rooted) {a : Site} (hx : table[a.place]? = some x) (fromPos : Option Nat) :
    (∃ t target, s.declare (some x) a.name a.kind (some a.ident) fromPos = .ok (t, target) ∧
        Layout u globals t table (done ++ [a])) ∨
      ((∃ d, s.declare (some x) a.name a.kind (some a.ident) fromPos = .error d) ∧
        ∃ b ∈ done, Clash u b a) := by
  have hplace : a.place < table.size := (Array.getElem?_eq_some_iff.1 hx).1
  unfold Scopes.declare
  rcases h.target_cases hns hroot hx with ⟨⟨d, he⟩, b, hb, hname, hpasses⟩ |
    ⟨⟨n, y, hhome, hy, ht⟩, hpasses⟩
  · right
    simp only [he]
    exact ⟨⟨d, rfl⟩, b, hb, hname, .inr hpasses⟩
  · obtain ⟨c, hc⟩ := get?_of_lt (h.lt (h.node hy).1)
    have hdecl := h.declared a.name hy
    rw [declaration?, hc, Option.bind_some] at hdecl
    simp only [ht, hc]
    cases hfirst : done.find? (·.isAt u n a.name) with
    | none =>
      rw [hfirst, Option.map_none, Option.map_eq_none_iff] at hdecl
      simp only [hdecl]
      refine .inl ⟨_, _, rfl, h.push hplace hhome hy (fun b hb hclash => ?_)
        (.update _ _ ⟨fun _ => rfl, fun _ => rfl, fun _ => rfl⟩)
        (h.grown.update _ ⟨fun _ => rfl, fun _ => rfl, fun _ => rfl⟩ fun _ => rfl)
        (fun id => view_update (f := (·.append _ _)) (·.kind) (fun _ => rfl) _ _) fun x name => ?_⟩
      · rcases hclash.2 with hmeets | hp
        · refine List.find?_eq_none.1 hfirst b hb (Site.isAt_iff.2 ⟨hclash.1, ?_⟩)
          exact hmeets.1.trans hhome
        · exact hpasses b hb hclash.1 hp
      · rw [declaration?_append (h.lt (h.node hy).1)]
        split
        · rw [Option.map_or]
          rfl
        · rfl
    | some f =>
      rw [hfirst, Option.map_some, Option.map_eq_some_iff] at hdecl
      obtain ⟨d, hd, hbinder⟩ := hdecl
      have hkind : d.kind = f.kind := congrArg Prod.fst hbinder
      obtain ⟨hfname, hfhome⟩ := Site.isAt_iff.1 (List.find?_some hfirst)
      have hmem := List.mem_of_find?_eq_some hfirst
      simp only [hd, hkind]
      by_cases hblock : (f.kind.isBlockScoped || a.kind.isBlockScoped) = true
      · right
        rw [if_pos hblock]
        refine ⟨⟨_, rfl⟩, f, hmem, hfname, .inl ⟨hfhome.trans hhome.symm, ?_⟩⟩
        exact Bool.or_eq_true_iff.1 hblock
      · left
        rw [if_neg hblock]
        obtain ⟨hf, ha⟩ := Bool.or_eq_false_iff.1 (Bool.eq_false_iff.2 hblock)
        refine ⟨_, _, rfl, h.push hplace hhome hy (fun b hb hclash => ?_) (.refl _) h.grown
          (fun _ => rfl) fun x name => ?_⟩
        · rcases hclash.2 with ⟨hhome', hb'⟩ | hp
          · have hbb : b.kind.isBlockScoped = true := by simpa [ha] using hb'
            have hat : b.isAt u n a.name = true := Site.isAt_iff.2 ⟨hclash.1, hhome'.trans hhome⟩
            have hbars := (h.bars_iff hy).2 ⟨b, hb, hat, hbb⟩
            rw [bars, declaration?, hc, Option.bind_some, hd, Option.map_some, Option.getD_some,
              hkind, hf] at hbars
            exact Bool.false_ne_true hbars
          · exact hpasses b hb hclash.1 hp
        · split
          · next hxy =>
            obtain ⟨rfl, rfl⟩ := hxy
            rw [declaration?, hc, Option.bind_some, hd]
            rfl
          · rfl

/-- Sites are declared one after the other, up to the first that clashes with one before it. -/
theorem performs (h : Layout u globals s table done) (hns : u.nodes.WellFormed) (hroot : u.nodes.Rooted)
    {as : List Site} {r : Except Failure Scopes} (hx : ∀ a ∈ as, table[a.place]? = some x)
    (hp : Performs u x s as r) :
    (∃ t, r = .ok t ∧ Layout u globals t table (done ++ as)) ∨
      ((∃ ident name, r = .error (u.defectAt .duplicateConst ident name)) ∧
        ¬(done ++ as).Pairwise fun a b => ¬Clash u a b) ∨
      ((∃ e, r = .error e) ∧ u.options.disallowVars = true) := by
  induction hp generalizing done with
  | done => exact .inl ⟨_, rfl, (List.append_nil done).symm ▸ h⟩
  | quiet hstep _ ih => exact ih (h.step hstep) hx
  | @declare s t target fromPos a as r hd hp ih =>
    rcases h.declare_cases hns hroot (hx a List.mem_cons_self) fromPos with
      ⟨t', target', hd', hl⟩ | ⟨⟨d, hd'⟩, -⟩
    · cases hd.symm.trans hd'
      have := ih hl fun b hb => hx b (List.mem_cons_of_mem _ hb)
      rwa [List.append_assoc, List.singleton_append] at this
    · cases hd.symm.trans hd'
  | @refuse s fromPos a as d hd =>
    rcases h.declare_cases hns hroot (hx a List.mem_cons_self) fromPos with
      ⟨t', target', hd', -⟩ | ⟨-, b, hb, hclash⟩
    · cases hd.symm.trans hd'
    · refine .inr (.inl ⟨⟨_, _, rfl⟩, fun hapart => ?_⟩)
      exact (List.pairwise_append.1 hapart).2.2 b hb a List.mem_cons_self hclash
  | disallow hv => exact .inr (.inr ⟨⟨_, rfl⟩, hv⟩)

/-! ## Entering nodes -/

variable {own : ScopeId}

theorem getElem?_push_of_some (hi : table[i]? = some x) (own : ScopeId) :
    (table.push own)[i]? = some x := by
  rw [Array.getElem?_push, if_neg (Nat.ne_of_lt (Array.getElem?_eq_some_iff.1 hi).1), hi]

theorem lt_of_home? (h : Layout u globals s table done) (hns : u.nodes.WellFormed) {a : Site}
    (ha : a ∈ done) (hn : a.home? u = some n) : n < table.size :=
  Nat.lt_of_le_of_lt ((Site.inside_of_home? hn).le hns) (h.placed a ha)

/-- The next node has the scope that it stands in. -/
theorem pushSame (h : Layout u globals s table done) (hns : u.nodes.WellFormed) (hroot : u.nodes.Rooted)
    {m : Node} (hm : u.nodes.get? table.size = some m)
    (hs : opensScope u table.size m.form = false) :
    Layout u globals s (table.push (standing u table table.size)) done := by
  have hf : u.nodes.form? table.size = some m.form := by rw [Nodes.form?, hm, Option.map_some]
  have ho : opens u table.size = false := by rw [opens, hf, Option.any_some, hs]
  have hlt : table.size < u.nodes.size := (Array.getElem?_eq_some_iff.1 hm).1
  obtain ⟨p, hp⟩ : ∃ p, u.nodes.parent? table.size = some p := by
    cases hp : u.nodes.parent? table.size with
    | none => simp [opens_of_hoists (hoists_of_root hroot hf hp)] at ho
    | some p => exact ⟨p, rfl⟩
  have hstanding := standing_eq hns hp
  refine ⟨h.pos, h.top, h.global, (Array.size_push _).symm ▸ hlt, fun a ha => ?_, fun {i x} hi => ?_,
    fun {i x} hi => ?_, fun {i x} hi ho' => ?_, fun {x n} hn => ?_, fun {x n} hn => ?_, h.kind,
    h.declared, h.apart, h.grown⟩
  · exact (Array.size_push _).symm ▸ Nat.lt_succ_of_lt (h.placed a ha)
  · rcases getElem?_push_cases hi with ⟨-, hi⟩ | ⟨rfl, rfl⟩
    · exact h.lt hi
    · exact h.lt hstanding
  · rcases getElem?_push_cases hi with ⟨-, hi⟩ | ⟨rfl, rfl⟩
    · exact h.opener hi
    · rw [h.opener hstanding, opener?_of_parent hns hp ho]
  · rcases getElem?_push_cases hi with ⟨hlt, hi⟩ | ⟨rfl, rfl⟩
    · rw [standing_push hns (Nat.le_of_lt hlt)]
      exact h.same hi ho'
    · rw [standing_push hns (Nat.le_refl _)]
  · exact (h.node hn).imp_left fun hi => getElem?_push_of_some hi _
  · have hlt := (Array.getElem?_eq_some_iff.1 (h.node hn).1).1
    rw [standing_push hns (Nat.le_of_lt hlt)]
    exact h.parent hn

/-- The next node opens a scope. -/
theorem pushOwn (h : Layout u globals s table done) (hns : u.nodes.WellFormed)
    {m : Node} (hm : u.nodes.get? table.size = some m)
    (hs : opensScope u table.size m.form = true) {kind : ScopeKind} {flags : Flags}
    (hk : Opens m.form kind flags) :
    Layout u globals (s.alloc kind (some table.size) (some (standing u table table.size)) flags).1
      (table.push s.size) done := by
  have hf : u.nodes.form? table.size = some m.form := by rw [Nodes.form?, hm, Option.map_some]
  have ho : opens u table.size = true := by rw [opens, hf, Option.any_some, hs]
  have hh : hoists u table.size = true ↔ kind = .hoist := by
    rw [hoists, hf, Option.any_some]
    exact hk.isHoist_iff
  have hlt : table.size < u.nodes.size := (Array.getElem?_eq_some_iff.1 hm).1
  have hstanding : standing u table table.size < s.size := by
    cases hp : u.nodes.parent? table.size with
    | none => exact standing_of_root hp ▸ h.pos
    | some p => exact h.lt (standing_eq hns hp)
  have hne : some (standing u table table.size) ≠ some s.size :=
    fun e => Nat.ne_of_lt hstanding (Option.some.inj e)
  have hold {x : ScopeId} {n : NodeId} (hn : (s.alloc kind (some table.size)
      (some (standing u table table.size)) flags).1.node? (some x) = some n) :
      x = s.size ∧ n = table.size ∨ x ≠ s.size ∧ s.node? (some x) = some n := by
    rw [node?_alloc hne] at hn
    split at hn
    · next hx => exact .inl ⟨hx, (Option.some.inj hn).symm⟩
    · next hx => exact .inr ⟨hx, hn⟩
  have hmono {x : ScopeId} (hx : x < s.size) : x ≠ s.size := Nat.ne_of_lt hx
  refine ⟨by rw [size_alloc]; omega, ?_, fun name => ?_, (Array.size_push _).symm ▸ hlt, fun a ha => ?_,
    fun {i x} hi => ?_, fun {i x} hi => ?_, fun {i x} hi ho' => ?_, fun {x n} hn => ?_,
    fun {x n} hn => ?_, fun {x n} hn => ?_, fun {x n} name hn => ?_, h.apart,
    h.grown.alloc hstanding hk.unwrapped⟩
  · have htop := hmono (x := topScope) h.pos
    rw [node?_alloc hne, parent?_alloc hne, if_neg htop, if_neg htop]
    exact h.top
  · rw [declaration?_alloc hne]
    exact h.global name
  · exact (Array.size_push _).symm ▸ Nat.lt_succ_of_lt (h.placed a ha)
  · rw [size_alloc]
    rcases getElem?_push_cases hi with ⟨-, hi⟩ | ⟨rfl, rfl⟩
    · exact Nat.lt_succ_of_lt (h.lt hi)
    · exact Nat.lt_succ_self _
  · rw [node?_alloc hne]
    rcases getElem?_push_cases hi with ⟨-, hi⟩ | ⟨rfl, rfl⟩
    · rw [if_neg (hmono (h.lt hi)), h.opener hi]
    · rw [if_pos rfl, opener?_of_opens ho]
  · rcases getElem?_push_cases hi with ⟨hlt, hi⟩ | ⟨rfl, rfl⟩
    · rw [standing_push hns (Nat.le_of_lt hlt)]
      exact h.same hi ho'
    · rw [ho] at ho'
      cases ho'
  · rcases hold hn with ⟨rfl, rfl⟩ | ⟨-, hn⟩
    · exact ⟨by simp, ho⟩
    · exact (h.node hn).imp_left fun hi => getElem?_push_of_some hi _
  · rw [parent?_alloc hne]
    rcases hold hn with ⟨rfl, rfl⟩ | ⟨hx, hn⟩
    · rw [if_pos rfl, standing_push hns (Nat.le_refl _)]
    · have hlt := (Array.getElem?_eq_some_iff.1 (h.node hn).1).1
      rw [if_neg hx, standing_push hns (Nat.le_of_lt hlt), h.parent hn]
  · rw [kind?_alloc hne]
    rcases hold hn with ⟨rfl, rfl⟩ | ⟨hx, hn⟩
    · rw [if_pos rfl, hh, Option.some.injEq]
    · rw [if_neg hx, h.kind hn]
  · rw [declaration?_alloc hne]
    rcases hold hn with ⟨rfl, rfl⟩ | ⟨-, hn⟩
    · -- No site goes to a scope that is only just made.
      have hnone : s.declaration? (some s.size) name = none := by
        rw [declaration?, get?_eq_none (Nat.le_refl _), Option.bind_none]
      have hfind : done.find? (·.isAt u table.size name) = none :=
        List.find?_eq_none.2 fun a ha hat =>
          Nat.lt_irrefl _ (h.lt_of_home? hns ha (Site.isAt_iff.1 hat).2)
      rw [hnone, hfind]
      rfl
    · exact h.declared name hn

theorem sitesAt_eq {m : Node} (hm : u.nodes.get? i = some m) : sitesAt u i =
    outerSites u (m.parent.getD Nodes.root) m.form ++ innerSites u i m.form := by
  rw [sitesAt, Nodes.form?, Nodes.parent?, hm]
  rfl

/-- Entering the next node declares its sites, unless one of them clashes with one before it or is
not allowed. -/
theorem enterScopes (h : Layout u globals s table done) (hns : u.nodes.WellFormed)
    (hroot : u.nodes.Rooted) {m : Node} (hm : u.nodes.get? table.size = some m) :
    (∃ t own, enterScopes u s table.size (standing u table table.size) m.form = .ok (t, own) ∧
        Layout u globals t (table.push own) (done ++ sitesAt u table.size)) ∨
      ((∃ ident name, enterScopes u s table.size (standing u table table.size) m.form =
          .error (u.defectAt .duplicateConst ident name)) ∧
        ¬(done ++ sitesAt u table.size).Pairwise fun a b => ¬Clash u a b) ∨
      ((∃ e, enterScopes u s table.size (standing u table table.size) m.form = .error e) ∧
        u.options.disallowVars = true) := by
  have hf : u.nodes.form? table.size = some m.form := by rw [Nodes.form?, hm, Option.map_some]
  have hparent : u.nodes.parent? table.size = m.parent := by rw [Nodes.parent?, hm]; rfl
  have houter : ∀ a ∈ outerSites u (m.parent.getD Nodes.root) m.form,
      table[a.place]? = some (standing u table table.size) := by
    intro a ha
    cases hp : m.parent with
    | none =>
      obtain ⟨statements, comments, hform⟩ := hroot hf (hparent.trans hp)
      rw [hform] at ha
      cases ha
    | some p =>
      rw [place_of_mem_outerSites ha, hp, Option.getD_some]
      exact standing_eq hns (hparent.trans hp)
  have hdecl := enterScopes_declares (u := u) s table.size (m.parent.getD Nodes.root)
    (standing u table table.size) m.form
  rw [sitesAt_eq hm, ← List.append_assoc]
  generalize Binding.enterScopes u s table.size (standing u table table.size) m.form = c at hdecl
  cases hdecl with
  | @same r hs hin hp =>
    rw [hin, List.append_nil]
    rcases h.performs hns hroot houter hp with
      ⟨t, rfl, hl⟩ | ⟨⟨ident, name, rfl⟩, hclash⟩ | ⟨⟨e, rfl⟩, hv⟩
    · exact .inl ⟨t, _, rfl, hl.pushSame hns hroot hm hs⟩
    · exact .inr (.inl ⟨⟨ident, name, rfl⟩, hclash⟩)
    · exact .inr (.inr ⟨⟨e, rfl⟩, hv⟩)
  | @refused e hp =>
    rcases h.performs hns hroot houter hp with
      ⟨t, ht, -⟩ | ⟨⟨ident, name, he⟩, hclash⟩ | ⟨-, hv⟩
    · cases ht
    · cases he
      refine .inr (.inl ⟨⟨ident, name, rfl⟩, fun hapart => hclash ?_⟩)
      exact (List.pairwise_append.1 hapart).1
    · exact .inr (.inr ⟨⟨e, rfl⟩, hv⟩)
  | @own t kind flags r hs ho hp hp' =>
    rcases h.performs hns hroot houter hp with ⟨t', ht, hl⟩ | ⟨⟨ident, name, he⟩, -⟩ | ⟨⟨e, he⟩, -⟩
    · cases ht
      have hinner : ∀ a ∈ innerSites u table.size m.form,
          (table.push t.size)[a.place]? = some t.size := fun a ha => by
        rw [place_of_mem_innerSites ha]
        simp
      rcases (hl.pushOwn hns hm hs ho).performs hns hroot hinner hp' with
        ⟨t', rfl, hl'⟩ | ⟨⟨ident, name, rfl⟩, hclash⟩ | ⟨⟨e, rfl⟩, hv⟩
      · exact .inl ⟨t', _, rfl, hl'⟩
      · exact .inr (.inl ⟨⟨ident, name, rfl⟩, hclash⟩)
      · exact .inr (.inr ⟨⟨e, rfl⟩, hv⟩)
    · cases he
    · cases he

theorem enterNode {b : Build} {m : Node} (h : Layout u globals b.scopes b.nodeScopes done)
    (hns : u.nodes.WellFormed) (hroot : u.nodes.Rooted)
    (hm : u.nodes.get? b.nodeScopes.size = some m) :
    (∃ b', enterNode u b b.nodeScopes.size m = .ok b' ∧
        b'.nodeScopes.size = b.nodeScopes.size + 1 ∧
        Layout u globals b'.scopes b'.nodeScopes (done ++ sitesAt u b.nodeScopes.size)) ∨
      ((∃ ident name, enterNode u b b.nodeScopes.size m =
          .error (u.defectAt .duplicateConst ident name)) ∧
        ¬(done ++ sitesAt u b.nodeScopes.size).Pairwise fun a b => ¬Clash u a b) ∨
      ((∃ e, enterNode u b b.nodeScopes.size m = .error e) ∧ u.options.disallowVars = true) := by
  have hparent : u.nodes.parent? b.nodeScopes.size = m.parent := by rw [Nodes.parent?, hm]; rfl
  have hscope : (m.parent.bind fun p => b.nodeScopes[p]?).getD topScope =
      standing u b.nodeScopes b.nodeScopes.size := by rw [standing, hparent]
  unfold Binding.enterNode
  rw [hscope]
  dsimp only
  rcases h.enterScopes hns hroot hm with
    ⟨t, own, ht, hl⟩ | ⟨⟨ident, name, he⟩, hclash⟩ | ⟨⟨e, he⟩, hv⟩
  · rw [ht, ok_bind]
    split
    · split
      · exact .inl ⟨_, rfl, Array.size_push _, hl⟩
      · exact .inl ⟨_, rfl, Array.size_push _, hl⟩
    · exact .inl ⟨_, rfl, Array.size_push _, hl⟩
  · rw [he]
    exact .inr (.inl ⟨⟨ident, name, rfl⟩, hclash⟩)
  · rw [he]
    exact .inr (.inr ⟨⟨e, rfl⟩, hv⟩)

/-- Entering the nodes declares all sites, unless one of them clashes with one before it or is not
allowed. -/
theorem enterNodes {b : Build} {ns : List Node} (h : Layout u globals b.scopes b.nodeScopes done)
    (hns : u.nodes.WellFormed) (hroot : u.nodes.Rooted)
    (hrest : u.nodes.table.toList.drop b.nodeScopes.size = ns)
    (hdone : done = (List.range b.nodeScopes.size).flatMap (sitesAt u)) :
    (∃ b', enterNodes u b b.nodeScopes.size ns = .ok b' ∧
        Layout u globals b'.scopes b'.nodeScopes (sites u)) ∨
      ((∃ ident name, enterNodes u b b.nodeScopes.size ns =
          .error (u.defectAt .duplicateConst ident name)) ∧
        ¬(sites u).Pairwise fun a b => ¬Clash u a b) ∨
      ((∃ e, enterNodes u b b.nodeScopes.size ns = .error e) ∧ u.options.disallowVars = true) := by
  induction ns generalizing b done with
  | nil =>
    refine .inl ⟨b, rfl, ?_⟩
    have hsize : b.nodeScopes.size = u.nodes.size :=
      Nat.le_antisymm h.entered (by simpa [Nodes.size] using List.drop_eq_nil_iff.1 hrest)
    rw [sites, ← hsize, ← hdone]
    exact h
  | cons n ns ih =>
    have hn : u.nodes.get? b.nodeScopes.size = some n := by
      have := congrArg List.head? hrest
      rwa [List.head?_drop, List.head?_cons, Array.getElem?_toList] at this
    have hdone' : done ++ sitesAt u b.nodeScopes.size =
        (List.range (b.nodeScopes.size + 1)).flatMap (sitesAt u) := by
      rw [List.range_succ, List.flatMap_append, ← hdone, List.flatMap_singleton]
    unfold Binding.enterNodes
    rcases h.enterNode hns hroot hn with
      ⟨b', hb', hsize, hl⟩ | ⟨⟨ident, name, he⟩, hclash⟩ | ⟨⟨e, he⟩, hv⟩
    · rw [hb', ok_bind, ← hsize]
      refine ih hl ?_ (hsize ▸ hdone')
      rw [hsize, ← List.drop_drop, hrest, List.drop_one, List.tail_cons]
    · rw [he]
      refine .inr (.inl ⟨⟨ident, name, rfl⟩, fun hapart => hclash (hapart.sublist ?_)⟩)
      rw [hdone']
      exact (List.range_sublist.2 (Array.getElem?_eq_some_iff.1 hn).1).flatMap _
    · rw [he]
      exact .inr (.inr ⟨⟨e, rfl⟩, hv⟩)

end Layout

/-! ## Globals -/

theorem addGlobal_sameShape (s : Scopes) (id : Option ScopeId) (name : String) (kind : BindingKind)
    (fromPos : Option Nat) : s.SameShape (s.addGlobal id name kind fromPos) :=
  .update _ _ ⟨fun _ => rfl, fun _ => rfl, fun _ => rfl⟩

theorem node_addGlobal {id : ScopeId} (hid : id < s.size) (other : String) (kind : BindingKind)
    (fromPos : Option Nat) (name : String) :
    ((s.addGlobal id other kind fromPos).declaration? (some id) name).map (·.node) =
      if name = other then some none else (s.declaration? (some id) name).map (·.node) := by
  obtain ⟨c, hc⟩ := get?_of_lt hid
  rw [Scopes.declaration?, Scopes.declaration?, Scopes.addGlobal, get?_update_self, hc]
  simp only [Option.map_some, Option.bind_some, Scope.declaration?, Scope.append, Scope.remove,
    List.lookup_append, lookup_filter_ne, List.lookup_cons, List.lookup_nil]
  by_cases hn : name = other
  · simp [hn]
  · simp [hn, beq_eq_false_iff_ne.2 hn]

theorem Layout.addGlobal {globals : List String} {table : Array ScopeId} {done : List Site}
    (h : Layout u globals s table done) (other : String) (kind : BindingKind)
    (fromPos : Option Nat) :
    Layout u (globals ++ [other]) (s.addGlobal topScope other kind fromPos) table done := by
  have hs := addGlobal_sameShape s topScope other kind fromPos
  have hne {x : ScopeId} {n : NodeId} (hn : s.node? (some x) = some n) : some topScope ≠ some x := by
    intro hx
    cases h.top.1.symm.trans (hx ▸ hn)
  refine ⟨hs.size ▸ h.pos, ⟨(hs.node? _).trans h.top.1, (hs.parent? _).trans h.top.2⟩,
    fun name => ?_, h.entered, h.placed, fun hi => hs.size ▸ h.lt hi,
    fun hi => (hs.node? _).trans (h.opener hi), h.same,
    fun hn => h.node ((hs.node? _).symm.trans hn), fun hn => ?_, fun {x n} hn => ?_,
    fun {x n} name hn => ?_, h.apart,
    h.grown.update _ ⟨fun _ => rfl, fun _ => rfl, fun _ => rfl⟩ fun _ => rfl⟩
  · rw [node_addGlobal h.top_lt, h.global]
    by_cases hn : name = other <;> simp [hn]
  · exact (hs.parent? _).trans (h.parent ((hs.node? _).symm.trans hn))
  · have hn := (hs.node? _).symm.trans hn
    rw [Scopes.kind?, Scopes.addGlobal, get?_update_of_ne (hne hn)]
    exact h.kind hn
  · have hn := (hs.node? _).symm.trans hn
    rw [Scopes.declaration?, Scopes.addGlobal, get?_update_of_ne (hne hn)]
    exact h.declared name hn

theorem Layout.foldl_addGlobal {α : Type} {globals : List String} {table : Array ScopeId}
    {done : List Site} (name : α → String) (kind : α → BindingKind) (fromPos : α → Option Nat)
    (es : List α) (h : Layout u globals s table done) :
    Layout u (globals ++ es.map name)
      (es.foldl (fun s e => s.addGlobal topScope (name e) (kind e) (fromPos e)) s) table done := by
  induction es generalizing s globals with
  | nil => simpa using h
  | cons e es ih =>
    have hnext := ih (h.addGlobal (name e) (kind e) (fromPos e))
    rwa [List.append_assoc, List.singleton_append] at hnext

/-- The globals that a unit begins with. -/
def globalTables (u : CompilationUnit) : List (List (String × Bool)) :=
  Globals.always ++ u.options.environments.filterMap Globals.environment? ++ [u.options.globals]

theorem Layout.addTables {globals : List String} {table : Array ScopeId} {done : List Site}
    (h : Layout u globals s table done) (tables : List (List (String × Bool))) :
    Layout u (globals ++ tables.flatten.map (·.1)) (tables.foldl addTable s) table done := by
  induction tables generalizing s globals with
  | nil => simpa using h
  | cons t tables ih =>
    have hnext := ih (h.foldl_addGlobal (·.1) (fun e => if e.2 then .var else .const)
      (fun _ => none) t)
    rwa [List.append_assoc, ← List.map_append] at hnext

theorem addEnvironments_eq {names : List String} (h : addEnvironments u s names = .ok t) :
    t = (names.filterMap Globals.environment?).foldl addTable s := by
  induction names generalizing s with
  | nil =>
    cases h
    rfl
  | cons name names ih =>
    unfold addEnvironments at h
    split at h
    · next table htable => rw [List.filterMap_cons_some htable, List.foldl_cons, ih h]
    · cases h

/-- Before the nodes are entered there is the scope of the globals only. -/
theorem layout_environment (h : environment u = .ok s) :
    Layout u ((globalTables u).flatten.map (·.1)) s #[] [] := by
  unfold environment at h
  obtain ⟨t, ht, h⟩ := bind_eq_ok.1 h
  cases h
  have hnone : (none : Option ScopeId) ≠ some (Scopes.size {}) := by simp
  have hnode (x : ScopeId) (n : NodeId) :
      (Scopes.alloc {} .hoist none none { top := true }).1.node? (some x) ≠ some n := by
    rw [node?_alloc hnone]
    split <;> intro e <;> cases e
  have hfirst : Layout u [] (Scopes.alloc {} .hoist none none { top := true }).1 #[] [] := by
    refine ⟨by rw [size_alloc]; exact Nat.zero_lt_succ _, ⟨rfl, rfl⟩, fun name => rfl,
      Nat.zero_le _, by simp, by simp, by simp, by simp, fun hn => absurd hn (hnode _ _),
      fun hn => absurd hn (hnode _ _), fun hn => absurd hn (hnode _ _),
      fun _ hn => absurd hn (hnode _ _), .nil, .first _ _ rfl⟩
  rw [addEnvironments_eq ht]
  have hall := hfirst.addTables (globalTables u)
  rwa [List.nil_append, globalTables, List.foldl_append, List.foldl_append] at hall

end Binding

end LoopClosure
