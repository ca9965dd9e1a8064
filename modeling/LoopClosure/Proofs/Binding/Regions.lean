import LoopClosure.Proofs.Binding.Steps
import LoopClosure.Proofs.Scope.Path
import LoopClosure.Proofs.Syntax.Heads

/-!
# The regions of scopes

The scopes of a bound unit lie in one another as the nodes that open them do.

- `Regions u s table`: the nodes that `table` puts into a scope lie inside the node that opens it,
  and a node has the scope of its parent or opens one right below it.
- `LetsIn u s table`: what a scope declares with `let`, `const` or `class` is declared by a node that
  stands in it. There is no function between that node and the one that opens the scope
  (`Regions.lexical`).
- `Mapped u s table`: the two, and which declarations are globals and which scopes are functions'.
- `Scopes.Finds`: the scope that a name is found in, on the way up from another one.
- `bind_charted`: bound units have these regions, and each reference is found in the scope that it
  resolves to.
-/

namespace LoopClosure

open Syntax Scopes Binding

/-! ## Declarations after a change -/

namespace Scopes

variable {s t : Scopes} {x : ScopeId} {name : String} {d : Declaration}

theorem declare_target {id target : Option ScopeId} {kind : BindingKind} {node : Option NodeId}
    {fromPos : Option Nat} (hk : kind.isBlockScoped = true)
    (h : s.declare id name kind node fromPos = .ok (t, target)) : target = id := by
  have hnot : kind.isHoisted = false := by
    cases kind <;> first | rfl | cases hk
  unfold declare at h
  simp only [hnot, if_neg Bool.false_ne_true] at h
  cases id with
  | none =>
    cases h
    rfl
  | some id =>
    dsimp only at h
    split at h
    · cases h
      rfl
    · split at h
      · split at h
        · cases h
        · cases h
          rfl
      · cases h
        rfl

theorem declaration?_update_append {j : ScopeId} {other : String} {e : Declaration}
    (h : (s.update (some j) (·.append other e)).declaration? (some x) name = some d) :
    s.declaration? (some x) name = some d ∨ j = x ∧ other = name ∧ d = e := by
  rw [declaration?, get?_update] at h
  split at h
  · next hj =>
    obtain rfl := Option.some.inj hj
    cases hc : s.get? (some j) with
    | none => simp [hc] at h
    | some c =>
      have hd : (c.append other e).declaration? name = some d := by simpa [hc] using h
      rw [Scope.declaration?, Scope.append, List.lookup_append] at hd
      rcases Option.or_eq_some_iff.1 hd with hold | ⟨-, hnew⟩
      · left
        rwa [declaration?, hc]
      · right
        rw [List.lookup_cons] at hnew
        split at hnew
        · next heq =>
          exact ⟨rfl, (beq_iff_eq.1 heq).symm, (Option.some.inj hnew).symm⟩
        · cases hnew
  · exact .inl h

theorem declaration?_modify (s : Scopes) (id : Option ScopeId) (other : String)
    (f : Declaration → Declaration) (x : ScopeId) (name : String) :
    (s.modify id other f).declaration? (some x) name =
      if id = some x ∧ name = other then (s.declaration? (some x) name).map f
      else s.declaration? (some x) name := by
  rw [modify, declaration?, get?_update]
  by_cases hid : id = some x
  · rw [if_pos hid, declaration?]
    cases hc : s.get? (some x) with
    | none => simp
    | some c =>
      have hm : (c.modify other f).declaration? name =
          if name = other then (c.declaration? name).map f else c.declaration? name :=
        lookup_map_entry other name f c.declarations
      rw [Option.map_some, Option.bind_some, Option.bind_some, hm]
      simp [hid]
  · simp [hid, declaration?]

theorem declaration?_addFlags (s : Scopes) (id x : Option ScopeId) (flags : Flags) (name : String) :
    (s.addFlags id flags).declaration? x name = s.declaration? x name :=
  declaration?_update (f := fun c => { c with flags := c.flags.union flags }) (fun _ => rfl) id x

theorem declaration?_markPropagates (s : Scopes) (id x : Option ScopeId) (other name : String) :
    (s.markPropagates id other).declaration? x name = s.declaration? x name :=
  declaration?_update (f := (·.propagate other)) (fun _ => rfl) id x

end Scopes

namespace Binding

variable {u : CompilationUnit} {G : Grants} {s t : Scopes} {x : ScopeId} {name : String}
  {d : Declaration}

theorem Step.sameShape (h : Step u G s t) : s.SameShape t := by
  cases h with
  | declare _ _ hd =>
    rcases declare_cases hd with rfl | ⟨j, c, -, -, -, rfl⟩
    · exact .refl _
    · exact .update _ _ ⟨fun _ => rfl, fun _ => rfl, fun _ => rfl⟩
  | modify => exact .update _ _ ⟨fun _ => rfl, fun _ => rfl, fun _ => rfl⟩
  | addFlags => exact .update _ _ ⟨fun _ => rfl, fun _ => rfl, fun _ => rfl⟩
  | markPropagates => exact .update _ _ ⟨fun _ => rfl, fun _ => rfl, fun _ => rfl⟩
  | addReference id name ident => exact .update _ _ (.addReference name ident)

theorem Steps.sameShape (h : Steps u G s t) : s.SameShape t := by
  induction h with
  | refl => exact .refl _
  | tail _ hstep ih => exact ih.trans hstep.sameShape

/-- A declaration was there, or it was granted. -/
theorem Step.declaration? (h : Step u G s t) (hd : t.declaration? (some x) name = some d) :
    (∃ e, s.declaration? (some x) name = some e ∧ e.Agrees d) ∨
      ∃ ident id, d.node = some ident ∧ u.nodes.identifier? ident = some name ∧
        G id d.kind name ident d.fromPos ∧ (d.kind.isBlockScoped = true → id = x) ∧
        d.isGlobal = false := by
  cases h with
  | declare hn hg h =>
    rcases declare_cases h with rfl | ⟨j, c, htarget, -, -, rfl⟩
    · exact .inl ⟨d, hd, .refl d⟩
    · rcases declaration?_update_append hd with hold | ⟨rfl, rfl, rfl⟩
      · exact .inl ⟨d, hold, .refl d⟩
      · refine .inr ⟨_, _, rfl, hn, hg, fun hk => ?_, rfl⟩
        exact Option.some.inj ((declare_target hk h).symm.trans htarget)
  | modify id other hf =>
    rw [declaration?_modify] at hd
    split at hd
    · obtain ⟨e, he, rfl⟩ := Option.map_eq_some_iff.1 hd
      exact .inl ⟨e, he, hf e⟩
    · exact .inl ⟨d, hd, .refl d⟩
  | addFlags =>
    rw [declaration?_addFlags] at hd
    exact .inl ⟨d, hd, .refl d⟩
  | markPropagates =>
    rw [declaration?_markPropagates] at hd
    exact .inl ⟨d, hd, .refl d⟩
  | addReference id other ident =>
    rw [declaration?_addReference] at hd
    exact .inl ⟨d, hd, .refl d⟩

theorem Steps.declaration? (h : Steps u G s t) (hd : t.declaration? (some x) name = some d) :
    (∃ e, s.declaration? (some x) name = some e ∧ e.Agrees d) ∨
      ∃ ident id, d.node = some ident ∧ u.nodes.identifier? ident = some name ∧
        G id d.kind name ident d.fromPos ∧ (d.kind.isBlockScoped = true → id = x) ∧
        d.isGlobal = false := by
  induction h generalizing d with
  | refl => exact .inl ⟨d, hd, .refl d⟩
  | tail _ hstep ih =>
    rcases hstep.declaration? hd with ⟨e, he, hed⟩ | hgranted
    · rcases ih he with ⟨e', he', hed'⟩ | ⟨ident, id, hi, hn, hg, hx, hglobal⟩
      · exact .inl ⟨e', he', hed'.trans hed⟩
      · exact .inr ⟨ident, id, hed.node ▸ hi, hn, hed.fromPos ▸ hed.kind ▸ hg, hed.kind ▸ hx,
          hed.isGlobal ▸ hglobal⟩
    · exact .inr hgranted

/-- Which scopes are those of functions does not change. -/
theorem Step.isFunction_eq (h : Step u G s t) (x : ScopeId) :
    (t.flags (some x)).function = (s.flags (some x)).function := by
  cases h with
  | declare _ _ h =>
    rcases declare_cases h with rfl | ⟨j, c, -, -, -, rfl⟩
    · rfl
    · exact flags_view_update (f := (·.append _ _)) (·.function) (fun _ => rfl) _ _
  | modify => exact flags_view_update (f := (·.modify _ _)) (·.function) (fun _ => rfl) _ _
  | addFlags id hf =>
    refine flags_view_update (f := fun c => { c with flags := c.flags.union _ }) (·.function)
      (fun c => ?_) _ _
    rcases hf with rfl | rfl <;> exact Bool.or_false _
  | markPropagates => exact flags_view_update (f := (·.propagate _)) (·.function) (fun _ => rfl) _ _
  | addReference =>
    refine flags_view_update (f := (·.addReference _ _)) (·.function) (fun c => ?_) _ _
    unfold Scope.addReference
    split <;> rfl

theorem Steps.isFunction_eq (h : Steps u G s t) (x : ScopeId) :
    (t.flags (some x)).function = (s.flags (some x)).function := by
  induction h with
  | refl => rfl
  | tail _ hstep ih => exact (hstep.isFunction_eq x).trans ih

/-- Names stay declared. -/
theorem Step.isSome_declaration? (h : Step u G s t)
    (hd : (s.declaration? (some x) name).isSome = true) :
    (t.declaration? (some x) name).isSome = true := by
  obtain ⟨d, hd⟩ := Option.isSome_iff_exists.1 hd
  cases h with
  | declare _ _ h =>
    rcases declare_cases h with rfl | ⟨j, c, -, hc, -, rfl⟩
    · simp [hd]
    · rw [Scopes.declaration?, get?_update]
      split
      · next hj =>
        rw [Scopes.declaration?, ← hj, hc] at hd
        have hl : c.declarations.lookup name = some d := hd
        simp [← hj, hc, Scope.append, Scope.declaration?, List.lookup_append, hl]
      · exact Option.isSome_iff_exists.2 ⟨d, hd⟩
  | modify =>
    rw [declaration?_modify]
    split <;> simp [hd]
  | addFlags => simp [declaration?_addFlags, hd]
  | markPropagates => simp [declaration?_markPropagates, hd]
  | addReference => simp [declaration?_addReference, hd]

end Binding

/-- On the way up from a scope, `target` is the first that declares the name. -/
inductive Scopes.Finds (s : Scopes) (name : String) (target : ScopeId) : ScopeId → Prop
  | here (h : (s.declaration? (some target) name).isSome = true) : Finds s name target target
  | up {x p : ScopeId} (hx : (s.declaration? (some x) name).isSome = false)
    (hp : s.parent? (some x) = some p) (h : Finds s name target p) : Finds s name target x

/-! ## Regions -/

namespace Binding

/-- The scope that a node stands in. -/
def standing (u : CompilationUnit) (table : Array ScopeId) (i : NodeId) : ScopeId :=
  ((u.nodes.parent? i).bind fun p => table[p]?).getD topScope

/-- `table` gives the scopes of the first nodes; what lies in a scope lies inside the node that opens
it. -/
structure Regions (u : CompilationUnit) (s : Scopes) (table : Array ScopeId) : Prop where
  top : s.node? (some topScope) = none
  around : ∀ {i n : NodeId} {x : ScopeId}, table[i]? = some x → s.node? (some x) = some n →
    u.nodes.Inside n i
  nest : ∀ {x p : ScopeId}, s.parent? (some x) = some p → ∃ n, s.node? (some x) = some n ∧
    ∀ m, s.node? (some p) = some m → u.nodes.Inside m n
  step : ∀ {i p : NodeId} {x : ScopeId}, table[i]? = some x → u.nodes.parent? i = some p →
    ∃ y, table[p]? = some y ∧ (x = y ∨ s.node? (some x) = some i ∧ s.parent? (some x) = some y)
  own : ∀ {i : NodeId} {x : ScopeId} {form : Form NodeId}, table[i]? = some x →
    u.nodes.form? i = some form → opensScope u i form = true → s.node? (some x) = some i

/-- A node declares the name in scope `x` with `let`, `const` or `class`, to be used from `fromPos`
on. -/
def LetAt (u : CompilationUnit) (table : Array ScopeId) (x : ScopeId) (name : String)
    (ident : NodeId) (fromPos : Option Nat) : Prop :=
  ∃ i form own, u.nodes.form? i = some form ∧ table[i]? = some own ∧
    Lexical u (standing u table i) own form x name ident fromPos

/-- Block-scoped declarations, but for globals, are those of nodes. -/
def LetsIn (u : CompilationUnit) (s : Scopes) (table : Array ScopeId) : Prop :=
  ∀ (x : ScopeId) (name : String) (d : Declaration), s.declaration? (some x) name = some d →
    d.kind.isBlockScoped = true → x = topScope ∨ ∃ ident, d.node = some ident ∧
      u.nodes.identifier? ident = some name ∧ LetAt u table x name ident d.fromPos

variable {u : CompilationUnit} {G : Grants} {s t : Scopes} {table : Array ScopeId} {x : ScopeId}
  {name : String} {ident : NodeId} {fromPos : Option Nat} {n : Node}

theorem standing_push (hns : u.nodes.WellFormed) {i : NodeId} (hi : i ≤ table.size)
    (own : ScopeId) : standing u (table.push own) i = standing u table i := by
  unfold standing
  cases hp : u.nodes.parent? i with
  | none => rfl
  | some p =>
    have hlt : p < table.size := Nat.lt_of_lt_of_le (hns.parent_lt hp) hi
    rw [Option.bind_some, Option.bind_some, Array.getElem?_push, if_neg (Nat.ne_of_lt hlt)]

theorem LetAt.push (hns : u.nodes.WellFormed) (h : LetAt u table x name ident fromPos)
    (own : ScopeId) : LetAt u (table.push own) x name ident fromPos := by
  obtain ⟨i, form, own', hf, hi, hl⟩ := h
  have hlt : i < table.size := (Array.getElem?_eq_some_iff.1 hi).1
  refine ⟨i, form, own', hf, ?_, (standing_push hns (Nat.le_of_lt hlt) own).symm ▸ hl⟩
  rw [Array.getElem?_push, if_neg (Nat.ne_of_lt hlt), hi]

theorem LetsIn.push (hns : u.nodes.WellFormed) (h : LetsIn u s table) (own : ScopeId) :
    LetsIn u s (table.push own) := fun x name d hd hk =>
  (h x name d hd hk).imp_right fun ⟨ident, hnode, hname, hlet⟩ => ⟨ident, hnode, hname, hlet.push hns own⟩

theorem LetsIn.steps (h : LetsIn u s table) (hsteps : Steps u G s t)
    (hg : ∀ {x : ScopeId} {kind : BindingKind} {name : String} {ident : NodeId}
      {fromPos : Option Nat}, kind.isBlockScoped = true → G x kind name ident fromPos →
        LetAt u table x name ident fromPos) :
    LetsIn u t table := by
  intro x name d hd hk
  rcases hsteps.declaration? hd with ⟨e, he, hed⟩ | ⟨ident, id, hnode, hname, hgrant, hx, -⟩
  · obtain rfl | ⟨ident, hi, hname, hlet⟩ := h x name e he (hed.kind ▸ hk)
    · exact .inl rfl
    · exact .inr ⟨ident, hed.node ▸ hi, hname, hed.fromPos ▸ hlet⟩
  · obtain rfl := hx hk
    exact .inr ⟨ident, hnode, hname, hg hk hgrant⟩

theorem Regions.sameShape (h : Regions u s table) (hs : s.SameShape t) : Regions u t table where
  top := (hs.node? _).trans h.top
  around hi hn := h.around hi (hs.node? _ ▸ hn)
  nest hp := by
    obtain ⟨n, hn, hin⟩ := h.nest (hs.parent? _ ▸ hp)
    exact ⟨n, (hs.node? _).trans hn, fun m hm => hin m (hs.node? _ ▸ hm)⟩
  step hi hp := by
    obtain ⟨y, hy, hxy⟩ := h.step hi hp
    exact ⟨y, hy, hxy.imp_right fun hown => ⟨(hs.node? _).trans hown.1, (hs.parent? _).trans hown.2⟩⟩
  own hi hf ho := (hs.node? _).trans (h.own hi hf ho)

theorem getElem?_push_cases {i : NodeId} {own x : ScopeId} (h : (table.push own)[i]? = some x) :
    i < table.size ∧ table[i]? = some x ∨ i = table.size ∧ x = own := by
  rw [Array.getElem?_push] at h
  split at h
  · next hi => exact .inr ⟨hi, (Option.some.inj h).symm⟩
  · exact .inl ⟨(Array.getElem?_eq_some_iff.1 h).1, h⟩

/-- The scope that the next node stands in is the one of its parent. -/
theorem standing_eq (hns : u.nodes.WellFormed) {p : NodeId}
    (hp : u.nodes.parent? table.size = some p) :
    table[p]? = some (standing u table table.size) := by
  have hlt := hns.parent_lt hp
  simp [standing, hp, Array.getElem?_eq_getElem hlt]

theorem standing_of_root (hp : u.nodes.parent? table.size = none) :
    standing u table table.size = topScope := by
  simp [standing, hp]

/-- The next node stays in the scope that it stands in. -/
theorem Regions.pushSame (hns : u.nodes.WellFormed) (h : Regions u s table)
    (hn : u.nodes.get? table.size = some n) (hs : opensScope u table.size n.form = false) :
    Regions u s (table.push (standing u table table.size)) := by
  have hold {i : NodeId} {x : ScopeId} (hi : table[i]? = some x) :
      (table.push (standing u table table.size))[i]? = some x := by
    rw [Array.getElem?_push, if_neg (Nat.ne_of_lt (Array.getElem?_eq_some_iff.1 hi).1), hi]
  refine ⟨h.top, fun {i m x} hi hm => ?_, h.nest, fun {i p x} hi hp => ?_,
    fun {i x form} hi hf ho => ?_⟩
  · rcases getElem?_push_cases hi with ⟨-, hi⟩ | ⟨rfl, rfl⟩
    · exact h.around hi hm
    · cases hp : u.nodes.parent? table.size with
      | none =>
        rw [standing_of_root hp, h.top] at hm
        cases hm
      | some p => exact .up hp (h.around (standing_eq hns hp) hm)
  · rcases getElem?_push_cases hi with ⟨-, hi⟩ | ⟨rfl, rfl⟩
    · obtain ⟨y, hy, hxy⟩ := h.step hi hp
      exact ⟨y, hold hy, hxy⟩
    · exact ⟨_, hold (standing_eq hns hp), .inl rfl⟩
  · rcases getElem?_push_cases hi with ⟨-, hi⟩ | ⟨rfl, rfl⟩
    · exact h.own hi hf ho
    · rw [Nodes.form?, hn, Option.map_some, Option.some.injEq] at hf
      rw [← hf, hs] at ho
      cases ho

/-- The next node opens a scope. -/
theorem Regions.pushOwn (hns : u.nodes.WellFormed) (h : Regions u s table) (hw : s.WellFormed)
    (hlt : ∀ {i : NodeId} {x : ScopeId}, table[i]? = some x → x < s.size) (hpos : 0 < s.size)
    (kind : ScopeKind) (flags : Flags) :
    Regions u (s.alloc kind (some table.size) (some (standing u table table.size)) flags).1
      (table.push s.size) := by
  have hold {i : NodeId} {x : ScopeId} (hi : table[i]? = some x) :
      (table.push s.size)[i]? = some x := by
    rw [Array.getElem?_push, if_neg (Nat.ne_of_lt (Array.getElem?_eq_some_iff.1 hi).1), hi]
  have hstanding : standing u table table.size < s.size := by
    cases hp : u.nodes.parent? table.size with
    | none => rwa [standing_of_root hp]
    | some p => exact hlt (standing_eq hns hp)
  have hne : some (standing u table table.size) ≠ some s.size := fun e =>
    Nat.ne_of_lt hstanding (Option.some.inj e)
  have hnode := @node?_alloc s kind (some table.size) _ flags hne
  have hparent := @parent?_alloc s kind (some table.size) _ flags hne
  have hnodeOld {x : ScopeId} (hx : x < s.size) := (hnode x).trans (if_neg (Nat.ne_of_lt hx))
  refine ⟨(hnodeOld hpos).trans h.top, fun {i m x} hi hm => ?_, fun {x p} hp => ?_,
    fun {i p x} hi hp => ?_, fun {i x form} hi hf hopens => ?_⟩
  · rcases getElem?_push_cases hi with ⟨-, hi⟩ | ⟨rfl, rfl⟩
    · exact h.around hi ((hnodeOld (hlt hi)).symm.trans hm)
    · rw [hnode, if_pos rfl, Option.some.injEq] at hm
      exact hm ▸ .refl
  · rw [hparent] at hp
    split at hp
    · next hx =>
      subst hx
      obtain rfl := Option.some.inj hp
      refine ⟨table.size, (hnode _).trans (if_pos rfl), fun m hm => ?_⟩
      rw [hnodeOld hstanding] at hm
      cases hp : u.nodes.parent? table.size with
      | none =>
        rw [standing_of_root hp, h.top] at hm
        cases hm
      | some p => exact .up hp (h.around (standing_eq hns hp) hm)
    · next hx =>
      obtain ⟨m, hm, hin⟩ := h.nest hp
      refine ⟨m, (hnode x).trans ((if_neg hx).trans hm), fun m' hm' => hin m' ?_⟩
      exact (hnodeOld (hw.parent_lt hp)).symm.trans hm'
  · rcases getElem?_push_cases hi with ⟨-, hi⟩ | ⟨rfl, rfl⟩
    · obtain ⟨y, hy, hxy⟩ := h.step hi hp
      have hx := Nat.ne_of_lt (hlt hi)
      refine ⟨y, hold hy, hxy.imp_right fun hown => ?_⟩
      exact ⟨(hnode x).trans ((if_neg hx).trans hown.1), (hparent x).trans ((if_neg hx).trans hown.2)⟩
    · refine ⟨_, hold (standing_eq hns hp), .inr ⟨(hnode _).trans (if_pos rfl), ?_⟩⟩
      exact (hparent _).trans (if_pos rfl)
  · rcases getElem?_push_cases hi with ⟨-, hi⟩ | ⟨rfl, rfl⟩
    · exact (hnodeOld (hlt hi)).trans (h.own hi hf hopens)
    · exact (hnode _).trans (if_pos rfl)

/-- What lies inside a node with a scope of its own is in the scope of a node inside. -/
theorem Regions.inside_own (h : Regions u s table) {f p : NodeId} {form : Form NodeId}
    (hf : u.nodes.form? f = some form) (ho : opensScope u f form = true)
    (hi : u.nodes.Inside f p) (hp : table[p]? = some x) :
    ∃ m, s.node? (some x) = some m ∧ u.nodes.Inside f m := by
  induction hi generalizing x with
  | refl => exact ⟨f, h.own hp hf ho, .refl⟩
  | @up id p hup hi ih =>
    obtain ⟨y, hy, rfl | ⟨hnode, -⟩⟩ := h.step hp hup
    · exact ih hy
    · exact ⟨id, hnode, .up hup hi⟩

/-- No function comes between a node and the one that opens its scope. -/
theorem Regions.directly (hns : u.nodes.WellFormed) (h : Regions u s table) {i m : NodeId}
    (hi : table[i]? = some x) (hm : s.node? (some x) = some m) : u.nodes.Directly m i := by
  refine .of_inside (h.around hi hm) fun f form hf hfun hmf hfi => ?_
  have ho : opensScope u f form = true := by cases form <;> first | rfl | cases hfun
  obtain ⟨m', hm', hin⟩ := h.inside_own hf ho hfi hi
  rw [hm, Option.some.injEq] at hm'
  exact (hm' ▸ hin).antisymm hns hmf

/-- A `let`, `const` or `class` is a statement right in the scope that it declares in, or a class
expression, which declares its own name. -/
theorem Regions.lexical (hns : u.nodes.WellFormed) (h : Regions u s table)
    (hl : LetAt u table x name ident fromPos) {m : NodeId} (hm : s.node? (some x) = some m) :
    (∃ i form p own, u.nodes.form? i = some form ∧ form.isStatement = true ∧
      u.nodes.parent? i = some p ∧ table[p]? = some x ∧ u.nodes.Directly m i ∧ i ≠ m ∧
      u.nodes.Inside i ident ∧ Lexical u x own form x name ident fromPos) ∨
    ∃ heritage members,
      u.nodes.form? m = some (.classBody .expression (some ident) heritage members) := by
  obtain ⟨i, form, own, hf, hi, hlex⟩ := hl
  have hstatement (hs : form.isStatement = true) (hx : standing u table i = x)
      (hin : u.nodes.Inside i ident) (hlex : Lexical u x own form x name ident fromPos) :
      ∃ i form p own, u.nodes.form? i = some form ∧ form.isStatement = true ∧
        u.nodes.parent? i = some p ∧ table[p]? = some x ∧ u.nodes.Directly m i ∧ i ≠ m ∧
        u.nodes.Inside i ident ∧ Lexical u x own form x name ident fromPos := by
    cases hp : u.nodes.parent? i with
    | none =>
      rw [← hx, standing, hp] at hm
      exact absurd (h.top.symm.trans hm) (fun e => by cases e)
    | some p =>
      have hlt : p < table.size :=
        Nat.lt_trans (hns.parent_lt hp) (Array.getElem?_eq_some_iff.1 hi).1
      have hpx : table[p]? = some x := by
        simpa [standing, hp, Array.getElem?_eq_getElem hlt] using hx
      have hd := h.directly hns hpx hm
      refine ⟨i, form, p, own, hf, hs, hp, hpx,
        .up hf (Form.isFunction_of_isStatement hs) hp hd, ?_, hin, hlex⟩
      exact Nat.ne_of_gt (Nat.lt_of_le_of_lt (hd.inside.le hns) (hns.parent_lt hp))
  cases hlex with
  | @bindings keyword ds d target init name ident hk hd ht hident =>
    have hin : u.nodes.Inside i ident :=
      (Nodes.Inside.of_parent (Nodes.parent?_of_form? hns hf hd)).trans
        ((Nodes.Inside.of_parent (Nodes.parent?_of_form? hns ht List.mem_cons_self)).trans
          (Nodes.inside_of_mem_bindingIds hns hident))
    exact .inl (hstatement rfl rfl hin (.bindings hk hd ht hident))
  | declaration =>
    have hin : u.nodes.Inside i ident :=
      .of_parent (Nodes.parent?_of_form? hns hf List.mem_cons_self)
    exact .inl (hstatement rfl rfl hin .declaration)
  | @expression ident heritage members name =>
    have hnode := h.own hi hf rfl
    rw [hm, Option.some.injEq] at hnode
    exact .inr ⟨heritage, members, hnode ▸ hf⟩

/-- A name that is found lies inside the node that opens the scope that it is found in. -/
theorem Regions.finds_inside (h : Regions u s table) {target : ScopeId} {m : NodeId}
    (hf : s.Finds name target x) (hm : s.node? (some target) = some m) :
    ∃ o, s.node? (some x) = some o ∧ u.nodes.Inside m o := by
  induction hf with
  | here => exact ⟨m, hm, .refl⟩
  | up _ hp _ ih =>
    obtain ⟨o, ho, hin⟩ := h.nest hp
    obtain ⟨o', ho', hin'⟩ := ih
    exact ⟨o, ho, hin'.trans (hin o' ho')⟩

/-- The way from a name inside a node with a scope of its own to a scope outside leads through that
scope, which does not declare the name. -/
theorem Regions.isSome_eq_false (h : Regions u s table) {own target : ScopeId} {f i m : NodeId}
    (hown : table[f]? = some own) (hnode : s.node? (some own) = some f) (hi : u.nodes.Inside f i)
    (hx : table[i]? = some x) (hf : s.Finds name target x) (hm : s.node? (some target) = some m)
    (hout : ¬u.nodes.Inside f m) : (s.declaration? (some own) name).isSome = false := by
  induction hi generalizing x with
  | refl =>
    rw [hown, Option.some.injEq] at hx
    subst x
    cases hf with
    | here =>
      rw [hm, Option.some.injEq] at hnode
      exact absurd (hnode ▸ .refl) hout
    | up hx => exact hx
  | @up id p hup hi ih =>
    obtain ⟨y, hy, rfl | ⟨hnode, hparent⟩⟩ := h.step hx hup
    · exact ih hy hf
    · cases hf with
      | here =>
        rw [hm, Option.some.injEq] at hnode
        exact absurd (hnode ▸ .up hup hi) hout
      | up _ hp hf =>
        rw [hparent, Option.some.injEq] at hp
        exact ih hy (hp ▸ hf)

/-! ## Entering all nodes -/

/-- The globals are what no identifier of the unit declares. -/
def GlobalsIn (s : Scopes) : Prop :=
  ∀ (x : ScopeId) (name : String) (d : Declaration), s.declaration? (some x) name = some d →
    d.isGlobal = d.node.isNone

/-- The scopes of functions are those that functions open. -/
def FunctionsIn (u : CompilationUnit) (s : Scopes) : Prop :=
  ∀ x : ScopeId, (s.flags (some x)).function =
    (s.node? (some x)).any fun n => (u.nodes.form? n).any (·.isFunction)

theorem GlobalsIn.steps (h : GlobalsIn s) (hsteps : Steps u G s t) : GlobalsIn t := by
  intro x name d hd
  rcases hsteps.declaration? hd with ⟨e, he, hed⟩ | ⟨ident, -, hnode, -, -, -, hglobal⟩
  · rw [← hed.isGlobal, ← hed.node, h x name e he]
  · rw [hglobal, hnode, Option.isNone_some]

theorem FunctionsIn.steps (h : FunctionsIn u s) (hsteps : Steps u G s t) : FunctionsIn u t := by
  intro x
  rw [hsteps.isFunction_eq, h x, hsteps.sameShape.node?]

theorem FunctionsIn.alloc (h : FunctionsIn u s) {kind : ScopeKind} {i : NodeId} {p : ScopeId}
    {flags : Flags} {form : Form NodeId} (hlt : p < s.size) (hf : u.nodes.form? i = some form)
    (ho : Opens form kind flags) : FunctionsIn u (s.alloc kind (some i) (some p) flags).1 := by
  have hne : some p ≠ some s.size := fun e => Nat.ne_of_lt hlt (Option.some.inj e)
  intro x
  rw [flags_alloc hne, node?_alloc hne]
  split
  · rw [Option.any_some, hf, Option.any_some]
    cases ho <;> rfl
  · exact h x

/-- The scopes of the first nodes have their regions, and what is declared in them stands there. -/
structure Mapped (u : CompilationUnit) (s : Scopes) (table : Array ScopeId) : Prop where
  regions : Regions u s table
  lets : LetsIn u s table
  globals : GlobalsIn s
  functions : FunctionsIn u s

namespace Mapped

variable {b b' : Build} {own : ScopeId}

theorem enters (hns : u.nodes.WellFormed) (hm : Mapped u b.scopes b.nodeScopes) (hb : Entered u b)
    (hn : u.nodes.get? b.nodeScopes.size = some n)
    (h : Enters u b.nodeScopes.size (standing u b.nodeScopes b.nodeScopes.size) n.form b.scopes t
      own) : Mapped u t (b.nodeScopes.push own) := by
  have hform : u.nodes.form? b.nodeScopes.size = some n.form := by rw [Nodes.form?, hn]; rfl
  have hlets {own : ScopeId} {r t : Scopes} (hl : LetsIn u r (b.nodeScopes.push own))
      (hsteps : Steps u (.lexical u (standing u b.nodeScopes b.nodeScopes.size) own n.form) r t) :
      LetsIn u t (b.nodeScopes.push own) :=
    hl.steps hsteps fun hk hg => ⟨b.nodeScopes.size, n.form, own, hform, by simp,
      (standing_push hns (Nat.le_refl _) own).symm ▸ hg hk⟩
  cases h with
  | same hs h =>
    exact ⟨(hm.regions.pushSame hns hn hs).sameShape h.sameShape, hlets (hm.lets.push hns _) h,
      hm.globals.steps h, hm.functions.steps h⟩
  | @own r kind flags hs h ho h' =>
    have hr := h.sameShape
    have hlt {i : NodeId} {x : ScopeId} (hi : b.nodeScopes[i]? = some x) : x < r.size :=
      hr.size ▸ hb.nodeScope_lt hi
    have hpos : 0 < r.size := hr.size ▸ hb.size_pos
    have hnew := (hm.regions.sameShape hr).pushOwn hns (hb.wellFormed.of_sameShape hr) hlt hpos kind
      flags
    have hstanding : standing u b.nodeScopes b.nodeScopes.size < r.size :=
      hr.size ▸ hb.scope_lt (u.nodes.parent? b.nodeScopes.size)
    have hne : some (standing u b.nodeScopes b.nodeScopes.size) ≠ some r.size := fun e =>
      Nat.ne_of_lt hstanding (Option.some.inj e)
    refine ⟨hnew.sameShape h'.sameShape, hlets (fun x name d hd hk => ?_) h',
      GlobalsIn.steps (fun x name d hd => ?_) h',
      ((hm.functions.steps h).alloc hstanding hform ho).steps h'⟩
    · rw [declaration?_alloc hne] at hd
      exact hlets (hm.lets.push hns _) h x name d hd hk
    · rw [declaration?_alloc hne] at hd
      exact hm.globals.steps h x name d hd

theorem enterNode (hns : u.nodes.WellFormed) (hm : Mapped u b.scopes b.nodeScopes)
    (hb : Entered u b) (hn : u.nodes.get? b.nodeScopes.size = some n)
    (h : enterNode u b b.nodeScopes.size n = .ok b') : Mapped u b'.scopes b'.nodeScopes := by
  have hparent : u.nodes.parent? b.nodeScopes.size = n.parent := by rw [Nodes.parent?, hn]; rfl
  obtain ⟨own, he, htable⟩ := enterNode_scopes h
  rw [← hparent] at he
  exact htable ▸ hm.enters hns hb hn (enterScopes_enters he)

theorem enterNodes {ns : List Node} (hns : u.nodes.WellFormed)
    (hm : Mapped u b.scopes b.nodeScopes) (hb : Entered u b)
    (hrest : u.nodes.table.toList.drop b.nodeScopes.size = ns)
    (h : enterNodes u b b.nodeScopes.size ns = .ok b') : Mapped u b'.scopes b'.nodeScopes :=
  hb.invariant (P := fun b => Mapped u b.scopes b.nodeScopes) hm
    (fun hb hm hn h => enterNode hns hm hb hn h) hrest h

/-! ## Globals -/

/-- A global is no concern of the nodes. -/
theorem addGlobal {s : Scopes} {table : Array ScopeId} (hm : Mapped u s table) (other : String)
    (kind : BindingKind) (fromPos : Option Nat) :
    Mapped u (s.addGlobal topScope other kind fromPos) table := by
  have hshape : s.SameShape (s.addGlobal topScope other kind fromPos) :=
    .update _ _ ⟨fun _ => rfl, fun _ => rfl, fun _ => rfl⟩
  -- A declaration that is found afterwards was there, or it is the global.
  have hcases {x : ScopeId} {name : String} {d : Declaration}
      (hd : (s.addGlobal topScope other kind fromPos).declaration? (some x) name = some d) :
      s.declaration? (some x) name = some d ∨ x = topScope ∧ d.isGlobal = d.node.isNone := by
    rw [Scopes.declaration?, Scopes.addGlobal, get?_update] at hd
    split at hd
    · next hx =>
      obtain rfl := Option.some.inj hx
      obtain ⟨c', hc', hd⟩ := Option.bind_eq_some_iff.1 hd
      obtain ⟨c, hc, rfl⟩ := Option.map_eq_some_iff.1 hc'
      rw [Scope.declaration?, Scope.append, Scope.remove, List.lookup_append,
        lookup_filter_ne] at hd
      rcases Option.or_eq_some_iff.1 hd with hold | ⟨-, hnew⟩
      · split at hold
        · cases hold
        · left
          rwa [Scopes.declaration?, hc]
      · rw [List.lookup_cons] at hnew
        split at hnew
        · cases hnew
          exact .inr ⟨rfl, rfl⟩
        · cases hnew
    · exact .inl hd
  refine ⟨hm.regions.sameShape hshape, fun x name d hd hk => ?_, fun x name d hd => ?_, fun x => ?_⟩
  · rcases hcases hd with hd | ⟨hx, -⟩
    · exact hm.lets x name d hd hk
    · exact .inl hx
  · exact (hcases hd).elim (hm.globals x name d) And.right
  · rw [hshape.node?, ← hm.functions x]
    exact flags_view_update (f := fun c => (c.remove other).append other _) (·.function)
      (fun _ => rfl) _ _

theorem addTable {s : Scopes} {table : Array ScopeId} (hm : Mapped u s table)
    (globals : List (String × Bool)) : Mapped u (addTable s globals) table := by
  unfold Binding.addTable
  induction globals generalizing s with
  | nil => exact hm
  | cons e globals ih => exact ih (hm.addGlobal _ _ _)

theorem addTables {s : Scopes} {table : Array ScopeId} (hm : Mapped u s table)
    (tables : List (List (String × Bool))) : Mapped u (tables.foldl Binding.addTable s) table := by
  induction tables generalizing s with
  | nil => exact hm
  | cons globals tables ih => exact ih (hm.addTable globals)

theorem addEnvironments {s : Scopes} {table : Array ScopeId} {names : List String}
    (hm : Mapped u s table) (h : addEnvironments u s names = .ok t) : Mapped u t table := by
  induction names generalizing s with
  | nil =>
    cases h
    exact hm
  | cons name names ih =>
    unfold Binding.addEnvironments at h
    split at h
    · exact ih (hm.addTable _) h
    · cases h

theorem environment (h : environment u = .ok s) : Mapped u s #[] := by
  unfold Binding.environment at h
  obtain ⟨t, ht, h⟩ := bind_eq_ok.1 h
  cases h
  have hnone : (none : Option ScopeId) ≠ some (Scopes.size {}) := fun e => by cases e
  have htop : Mapped u (Scopes.alloc {} .hoist none none { top := true }).1 #[] := by
    refine ⟨⟨rfl, fun hi => by simp at hi, fun {x p} hp => ?_, fun hi => by simp at hi,
      fun hi => by simp at hi⟩, fun x name d hd => ?_, fun x name d hd => ?_, fun x => ?_⟩
    · rw [parent?_alloc hnone] at hp
      split at hp
      · cases hp
      · cases hp
    · rw [declaration?_alloc hnone] at hd
      cases hd
    · rw [declaration?_alloc hnone] at hd
      cases hd
    · rw [flags_alloc hnone, node?_alloc hnone]
      split <;> rfl
  exact ((htop.addTables _).addEnvironments ht).addTable _

/-- Resolving adds no declaration and no scope. -/
theorem steps {s : Scopes} {table : Array ScopeId} (hm : Mapped u s table)
    (h : Steps u .none s t) : Mapped u t table :=
  ⟨hm.regions.sameShape h.sameShape, hm.lets.steps h fun _ hg => hg.elim, hm.globals.steps h,
    hm.functions.steps h⟩

end Mapped

end Binding

/-! ## Resolving -/

namespace Scopes

variable {s t : Scopes} {name : String} {target x : ScopeId}

theorem finds_of_walkUp {n : Nat} (h : (s.walkUp n (some x)).find? (fun id =>
    ((s.get? (some id)).map (·.declares name)).getD false) = some target) :
    s.Finds name target x := by
  induction n generalizing x with
  | zero => cases h
  | succ n ih =>
    rw [walkUp_succ, List.find?_cons, declares_eq] at h
    split at h
    · next hx =>
      obtain rfl := Option.some.inj h
      exact .here hx
    · next hx =>
      cases hp : s.parent? (some x) with
      | none =>
        rw [hp, walkUp_none] at h
        cases h
      | some p => exact .up hx hp (ih (hp ▸ h))

theorem finds_of_lookup? {id : Option ScopeId} (h : s.lookup? id name = some target) :
    ∃ x, id = some x ∧ s.Finds name target x := by
  cases id with
  | none => cases h
  | some x => exact ⟨x, rfl, finds_of_walkUp h⟩

theorem Finds.lt_size (h : s.Finds name target x) : target < s.size := by
  induction h with
  | here hd =>
    obtain ⟨d, hd⟩ := Option.isSome_iff_exists.1 hd
    exact lt_size_of_declaration? hd
  | up _ _ _ ih => exact ih

theorem Finds.congr (h : s.Finds name target x) (hp : ∀ id, t.parent? id = s.parent? id)
    (hd : ∀ x : ScopeId, (t.declaration? (some x) name).isSome =
      (s.declaration? (some x) name).isSome) : t.Finds name target x := by
  induction h with
  | here h => exact .here ((hd _).trans h)
  | up hx hup _ ih => exact .up ((hd _).trans hx) ((hp _).trans hup) ih

end Scopes

namespace Binding

variable {u : CompilationUnit} {s t : Scopes} {b : Build} {name : String} {target x : ScopeId}

/-- Steps that declare nothing. -/
theorem Steps.isSome_eq (h : Steps u .none s t) (x : ScopeId) (name : String) :
    (t.declaration? (some x) name).isSome = (s.declaration? (some x) name).isSome := by
  rw [Bool.eq_iff_iff]
  constructor
  · intro ht
    obtain ⟨d, hd⟩ := Option.isSome_iff_exists.1 ht
    rcases h.declaration? hd with ⟨e, he, -⟩ | ⟨_, _, _, _, hg, _⟩
    · exact Option.isSome_iff_exists.2 ⟨e, he⟩
    · exact hg.elim
  · intro hs
    induction h with
    | refl => exact hs
    | tail _ hstep ih => exact hstep.isSome_declaration? ih

theorem Steps.finds (h : Steps u .none s t) (hf : s.Finds name target x) : t.Finds name target x :=
  hf.congr h.sameShape.parent? fun x => h.isSome_eq x name

/-- What is resolved is found, and is among the references. -/
def AllFound (u : CompilationUnit) (b : Build) (r : Resolving) : Prop :=
  ∀ (ident : NodeId) (e : Resolution), r.resolved[ident]? = some (some e) →
    ident ∈ b.references.toList ∧ ∃ name x, u.nodes.identifier? ident = some name ∧
      b.nodeScopes[ident]? = some x ∧ r.scopes.Finds name e.scope x

theorem AllFound.resolveReference {r r' : Resolving} {ident : NodeId} (hr : AllFound u b r)
    (hident : ident ∈ b.references.toList) (h : resolveReference u b r ident = .ok r') :
    AllFound u b r' := by
  have hsteps := resolveReference_steps h
  intro i e hi
  have hold (hi : r.resolved[i]? = some (some e)) : i ∈ b.references.toList ∧ ∃ name x,
      u.nodes.identifier? i = some name ∧ b.nodeScopes[i]? = some x ∧
        r'.scopes.Finds name e.scope x := by
    obtain ⟨hmem, name, x, hname, hx, hf⟩ := hr i e hi
    exact ⟨hmem, name, x, hname, hx, hsteps.finds hf⟩
  rcases resolveReference_cases h with ⟨rfl, -⟩ | ⟨name, e', hres⟩
  · exact hold hi
  · rw [hres.resolved] at hi
    by_cases heq : ident = i
    · subst i
      have hlt : ident < r.resolved.size := by
        have := (Array.getElem?_eq_some_iff.1 hi).1
        rwa [Array.size_setIfInBounds] at this
      rw [Array.getElem?_setIfInBounds_self_of_lt hlt, Option.some.injEq, Option.some.injEq] at hi
      subst e'
      obtain ⟨x, hx, hf⟩ := finds_of_lookup? hres.found
      exact ⟨hident, name, x, hres.named, hx, hsteps.finds hf⟩
    · rw [Array.getElem?_setIfInBounds_ne heq] at hi
      exact hold hi

theorem AllFound.resolveAll {r r' : Resolving} {idents : List NodeId} (hr : AllFound u b r)
    (hidents : ∀ ident ∈ idents, ident ∈ b.references.toList)
    (h : resolveAll u b r idents = .ok r') : AllFound u b r' := by
  induction idents generalizing r with
  | nil =>
    cases h
    exact hr
  | cons ident idents ih =>
    obtain ⟨r₁, h₁, h⟩ := bind_eq_ok.1 h
    exact ih (hr.resolveReference (hidents _ List.mem_cons_self) h₁)
      (fun i hi => hidents i (List.mem_cons_of_mem _ hi)) h

end Binding

/-! ## Bound units -/

/-- The scopes of a bound unit have their regions, and what references resolve to is found. -/
structure Bound.Charted (b : Bound) : Prop where
  mapped : Mapped b.unit b.scopes b.nodeScopes
  found : ∀ {ident : NodeId} {r : Resolution}, b.resolution? ident = some r →
    ident ∈ b.references ∧ isReference b.nodes ident = true ∧
      ∃ name x, b.nodes.identifier? ident = some name ∧ b.nodeScope? ident = some x ∧
        b.scopes.Finds name r.scope x

theorem bind_charted {u : CompilationUnit} {root : NodeId} {b : Bound} (hns : u.nodes.WellFormed)
    (hb : bind u root = .ok b) : b.Charted := by
  have href {r : NodeId} (hr : r ∈ b.references) := isReference_of_bind hb hr
  unfold bind at hb
  split at hb
  · next comments hform =>
    obtain ⟨s, hs, h⟩ := bind_eq_ok.1 hb
    obtain ⟨build, hbuild, h⟩ := bind_eq_ok.1 h
    extract_lets listed globals at h
    obtain ⟨r, hr, h⟩ := bind_eq_ok.1 h
    cases h
    have hbuilt := (Mapped.environment hs).enterNodes hns (entered_environment hs) rfl hbuild
    have hglobals : Mapped u globals build.nodeScopes := by
      dsimp only [globals]
      generalize build.scopes = t at hbuilt
      induction listed generalizing t with
      | nil => exact hbuilt
      | cons e listed ih => exact ih _ (hbuilt.addGlobal _ _ _)
    have hfound : AllFound u build ⟨globals, .replicate u.nodes.size none⟩ := by
      intro ident e he
      rw [Array.getElem?_replicate] at he
      split at he <;> cases he
    refine ⟨hglobals.steps (resolveAll_steps hr), fun {ident e} he => ?_⟩
    obtain ⟨hmem, hrest⟩ := hfound.resolveAll (fun _ h => h) hr ident e
      (Option.join_eq_some_iff.1 he)
    exact ⟨hmem, href hmem, hrest⟩
  · cases hb

end LoopClosure
