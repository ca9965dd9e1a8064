import LoopClosure.Proofs.Binding.Scopes
import LoopClosure.Proofs.Lowering.Splitting
import LoopClosure.Proofs.Scope.Path

/-!
# What a wrap changes

`Bound.wrap` makes the body of a loop a function: it opens or splits off a scope for it, declares
the names of the head as parameters there, and lets the references to them that lie in the body
resolve to the parameters.

- `Bound.Extends b b'`: to what `b` says about scopes, `b'` adds scopes and declarations that are
  not block-scoped. Nodes may get another scope, but between it and an old one there is a function
  exactly if there was one before.
- `Bound.Retargets header body b b'`: a reference resolves in `b'` as it did in `b`, unless it lies
  in the body and resolved to the scope `header`; then it may resolve to a declaration that is not
  block-scoped.
- `wrap_extends`: a wrap is both, and keeps the bound program well scoped.
-/

namespace LoopClosure

open Syntax Syntax.Nodes Scopes

theorem Syntax.Nodes.exists_block_of_isBlock {ns : Nodes} {id : NodeId}
    (h : ((ns.form? id).map (·.isBlock)).getD false = true) :
    ∃ statements, ns.form? id = some (.block statements) := by
  cases hform : ns.form? id with
  | none => simp [hform] at h
  | some form => cases form <;> first | exact ⟨_, rfl⟩ | simp [hform, Form.isBlock] at h

/-- What stands behind a name that the head of a loop binds. -/
theorem Syntax.Nodes.exists_of_mem_headerNames {ns : Nodes} {loop : NodeId} {name : String}
    (h : name ∈ ns.headerNames loop) : ∃ each left right body keyword ds,
      ns.form? loop = some (.forEach each left right body) ∧
      ns.form? left = some (.bindings keyword ds) ∧ keyword ≠ .var ∧
      ∃ d ∈ ds, ∃ target init, ns.form? d = some (.declarator target init) ∧
        ∃ ident ∈ ns.bindingIds target, ns.identifier? ident = some name := by
  unfold headerNames at h
  split at h
  · next each left right body hloop =>
    split at h
    · cases h
    · next keyword ds hk hleft =>
      obtain ⟨d, hd, h⟩ := List.mem_flatMap.1 h
      split at h
      · next target init ht =>
        obtain ⟨ident, hident, hname⟩ := List.mem_filterMap.1 h
        exact ⟨each, left, right, body, keyword, ds, hloop, hleft, hk, d, hd, target, init, ht,
          ident, hident, hname⟩
      · cases h
    · cases h
  · cases h

/-! ## Tables that differ in uses only -/

def Scope.withoutUses (c : Scope) : Scope := { c with references := [] }

theorem Scope.withoutUses_addReference (c : Scope) (name : String) (ident : NodeId) :
    (c.addReference name ident).withoutUses = c.withoutUses := by
  unfold Scope.addReference
  split <;> rfl

namespace Scopes

variable {s t r : Scopes}

/-- The tables agree on all but the uses that scopes list. -/
structure OnlyUses (s t : Scopes) : Prop where
  size : t.size = s.size
  get? : ∀ id, (t.get? id).map Scope.withoutUses = (s.get? id).map Scope.withoutUses

namespace OnlyUses

theorem refl (s : Scopes) : OnlyUses s s := ⟨rfl, fun _ => rfl⟩

theorem trans (h : OnlyUses r s) (h' : OnlyUses s t) : OnlyUses r t :=
  ⟨h'.size.trans h.size, fun id => (h'.get? id).trans (h.get? id)⟩

theorem update (s : Scopes) (id : Option ScopeId) {f : Scope → Scope}
    (hf : ∀ c, (f c).withoutUses = c.withoutUses) : OnlyUses s (s.update id f) :=
  ⟨size_update s id f, view_update Scope.withoutUses hf id⟩

theorem addReference (s : Scopes) (id : Option ScopeId) (name : String) (ident : NodeId) :
    OnlyUses s (s.addReference id name ident) :=
  .update s id fun c => c.withoutUses_addReference name ident

theorem takeReferences (s : Scopes) (id : Option ScopeId) (name : String) :
    OnlyUses s (s.takeReferences id name).1 :=
  .update s id fun _ => rfl

/-- What can be seen of a scope without its uses. -/
theorem view (h : OnlyUses s t) {α : Type} (v : Scope → α)
    (hv : ∀ c, v c.withoutUses = v c) (id : Option ScopeId) :
    (t.get? id).map v = (s.get? id).map v := by
  have hcomp : v = v ∘ Scope.withoutUses := funext fun c => (hv c).symm
  rw [hcomp, ← Option.map_map, h.get?, Option.map_map]

theorem kind? (h : OnlyUses s t) (id : Option ScopeId) : t.kind? id = s.kind? id :=
  h.view (·.kind) (fun _ => rfl) id

theorem declaration? (h : OnlyUses s t) (id : Option ScopeId) (name : String) :
    t.declaration? id name = s.declaration? id name :=
  bind_eq_of_map_eq (h.view (·.declaration? name) (fun _ => rfl) id)

theorem sameShape (h : OnlyUses s t) : SameShape s t where
  size := h.size
  parent? id := bind_eq_of_map_eq (h.view (·.parent) (fun _ => rfl) id)
  childIds id := congrArg (Option.getD · []) (h.view (·.children) (fun _ => rfl) id)
  node? id := bind_eq_of_map_eq (h.view (·.node) (fun _ => rfl) id)

theorem toExtends (h : OnlyUses s t) : s.Extends t := by
  have hshape := h.sameShape
  refine ⟨Nat.le_of_eq h.size.symm, fun _ => hshape.node? _,
    fun hd => (h.declaration? _ _).trans hd,
    fun hd => .inl ((h.declaration? _ _).symm.trans hd), fun _ _ => ?_, fun _ => ?_⟩
  · refine functionBelow_congr (fun _ => hshape.parent? _) fun id => ?_
    rw [flags, h.view (·.flags) (fun _ => rfl)]
    rfl
  · exact Nat.le_of_eq (by rw [walk, walk, walkUp_congr fun _ => hshape.parent? _])

end OnlyUses

/-- A parameter goes to the hoisting scope that it is declared at. -/
theorem declare_param {scope : ScopeId} {name : String} (hk : s.kind? scope = some .hoist)
    (hn : s.declaration? scope name = none) : s.declare scope name .param none none =
      .ok (s.update scope (·.append name { kind := .param, node := none, fromPos := none }),
        some scope) := by
  obtain ⟨c, hc, hck⟩ := Option.map_eq_some_iff.1 hk
  have htarget : s.hoistTarget name (s.walk scope) = .ok (some scope) := by
    have hwalk : s.walk scope = scope :: s.walkUp 9999 (s.parent? scope) := rfl
    rw [hwalk, hoistTarget, hc]
    simp [Scope.isHoist, hck]
  have hcn : c.declaration? name = none := by
    rw [declaration?, hc] at hn
    exact hn
  simp only [declare, BindingKind.isHoisted, if_pos, htarget, hc, hcn]

end Scopes

namespace Bound

variable {b b' b'' : Bound}

/-! ## Relations between bound programs -/

/-- A reference resolves to a declaration that is not block-scoped. -/
def Settled (b : Bound) (ident : NodeId) : Prop :=
  ∃ r name d, b.resolution? ident = some r ∧ b.nodes.identifier? ident = some name ∧
    b.scopes.declaration? r.scope name = some d ∧ d.kind.isBlockScoped = false

/-- `b'` has the scopes and declarations of `b` and more. -/
structure Extends (b b' : Bound) : Prop where
  unit : b'.unit = b.unit
  references : b'.references = b.references
  scopes : b.scopes.Extends b'.scopes
  nodeScope_eq_none : ∀ {i : NodeId}, b.nodeScope? i = none → b'.nodeScope? i = none
  nodeScope : ∀ {i : NodeId} {x : ScopeId}, b.nodeScope? i = some x →
    ∃ y, b'.nodeScope? i = some y ∧ (y = x ∨ b.scopes.size ≤ y) ∧
      ∀ {outer : ScopeId}, outer < b.scopes.size →
        (b'.scopes.FunctionBelow outer y ↔ b.scopes.FunctionBelow outer x)

/-- References to the scope `header` in the body may resolve in `b'` to what is not block-scoped;
all others resolve as they did. -/
def Retargets (header : Option ScopeId) (body : NodeId) (b b' : Bound) : Prop :=
  ∀ ident, b'.resolution? ident = b.resolution? ident ∨
    (b.nodes.contains body ident = true ∧
      ∃ r, b.resolution? ident = some r ∧ header = some r.scope) ∧ b'.Settled ident

namespace Extends

theorem refl (b : Bound) : Extends b b where
  unit := rfl
  references := rfl
  scopes := .refl _
  nodeScope_eq_none h := h
  nodeScope h := ⟨_, h, .inl rfl, fun _ => Iff.rfl⟩

theorem trans (h : Extends b b') (h' : Extends b' b'') : Extends b b'' where
  unit := h'.unit.trans h.unit
  references := h'.references.trans h.references
  scopes := h.scopes.trans h'.scopes
  nodeScope_eq_none hi := h'.nodeScope_eq_none (h.nodeScope_eq_none hi)
  nodeScope hi := by
    obtain ⟨y, hy, hyx, hpath⟩ := h.nodeScope hi
    obtain ⟨z, hz, hzy, hpath'⟩ := h'.nodeScope hy
    refine ⟨z, hz, ?_, fun ho =>
      (hpath' (Nat.lt_of_lt_of_le ho h.scopes.size_le)).trans (hpath ho)⟩
    rcases hzy with rfl | hzy
    · exact hyx
    · exact .inr (Nat.le_trans h.scopes.size_le hzy)

theorem nodes (h : Extends b b') : b'.nodes = b.nodes := congrArg CompilationUnit.nodes h.unit

/-- Only the table of scopes is another one. -/
theorem of_scopes (hlt : ∀ {i : NodeId} {x : ScopeId}, b.nodeScope? i = some x → x < b.scopes.size)
    (hu : b'.unit = b.unit) (hr : b'.references = b.references)
    (hn : b'.nodeScopes = b.nodeScopes) (hs : b.scopes.Extends b'.scopes) : Extends b b' where
  unit := hu
  references := hr
  scopes := hs
  nodeScope_eq_none hi := by
    rw [nodeScope?, hn]
    exact hi
  nodeScope {i x} hi := by
    refine ⟨x, ?_, .inl rfl, fun ho => hs.functionBelow_iff ho (hlt hi)⟩
    rw [nodeScope?, hn]
    exact hi

theorem settled (h : Extends b b') {ident : NodeId} (hs : b.Settled ident)
    (hr : b'.resolution? ident = b.resolution? ident) : b'.Settled ident := by
  obtain ⟨r, name, d, hres, hname, hd, hk⟩ := hs
  exact ⟨r, name, d, hr.trans hres, h.nodes ▸ hname, h.scopes.kept hd, hk⟩

end Extends

namespace Retargets

variable {header : Option ScopeId} {body : NodeId}

theorem refl (b : Bound) : Retargets header body b b := fun _ => .inl rfl

theorem trans (h : Retargets header body b b') (hn : b'.nodes = b.nodes) (he : Extends b' b'')
    (h' : Retargets header body b' b'') : Retargets header body b b'' := by
  intro ident
  rcases h' ident with hr' | ⟨⟨hin, r, hr', hscope⟩, hset⟩
  · rcases h ident with hr | ⟨hr, hset⟩
    · exact .inl (hr'.trans hr)
    · exact .inr ⟨hr, he.settled hset hr'⟩
  · rcases h ident with hr | ⟨hr, -⟩
    · exact .inr ⟨⟨hn ▸ hin, r, hr.symm.trans hr', hscope⟩, hset⟩
    · exact .inr ⟨hr, hset⟩

theorem of_resolved (h : b'.resolved = b.resolved) : Retargets header body b b' := by
  intro ident
  left
  rw [resolution?, h]
  rfl

end Retargets

/-! ## The scope of a body -/

theorem WellScoped.withScopes {s : Scopes} (hb : b.WellScoped) (hshape : b.scopes.SameShape s)
    (huses : ∀ {id : ScopeId} {name : String} {ident : NodeId}, ident ∈ s.usesOf id name →
      b.nodes.identifier? ident = some name ∧ ∃ r, b.resolution? ident = some r ∧ r.scope = id) :
    (b.withScopes s).WellScoped where
  wellFormed := hb.wellFormed.of_sameShape hshape
  nodeScope_lt hi := by
    have := hb.nodeScope_lt hi
    rwa [← hshape.size] at this
  listed := huses

theorem openBlock_sameShape (b : Bound) (scope : ScopeId) : b.scopes.SameShape
    ((b.scopes.setKind scope .hoist).addFlags scope { loopWrapper := true }) :=
  (SameShape.update b.scopes scope (f := fun c => { c with kind := .hoist })
    ⟨fun _ => rfl, fun _ => rfl, fun _ => rfl⟩).trans
      (.update _ _ ⟨fun _ => rfl, fun _ => rfl, fun _ => rfl⟩)

/-- The body has a scope of its own, which becomes a hoisting scope. -/
theorem openBlock_spec (hb : b.WellScoped) (scope : ScopeId) :
    let s := (b.scopes.setKind scope .hoist).addFlags scope { loopWrapper := true }
    (b.withScopes s).WellScoped ∧ b.Extends (b.withScopes s) ∧
      (scope < b.scopes.size → s.kind? scope = some .hoist) := by
  intro s
  have hext : b.scopes.Extends (b.scopes.setKind scope .hoist) :=
    .update_keeping (f := fun c => { c with kind := .hoist }) _ _
      ⟨fun _ => rfl, fun _ => rfl, fun _ => rfl⟩ (fun _ => rfl) fun _ _ => rfl
  have hext' : (b.scopes.setKind scope .hoist).Extends s :=
    .update_keeping (f := fun c => { c with flags := c.flags.union { loopWrapper := true } }) _ _
      ⟨fun _ => rfl, fun _ => rfl, fun _ => rfl⟩ (fun c => Bool.or_false c.flags.function)
      fun _ _ => rfl
  refine ⟨hb.withScopes (openBlock_sameShape b scope) fun hx => ?_,
    .of_scopes hb.nodeScope_lt rfl rfl rfl (hext.trans hext'), fun hlt => ?_⟩
  · rw [usesOf_addFlags, usesOf_setKind] at hx
    exact hb.listed hx
  · obtain ⟨c, hc⟩ := get?_of_lt hlt
    simp [s, kind?, setKind, addFlags, get?_update_self, hc]

/-- What moving scopes below a new one keeps. -/
structure Split (s t : Scopes) (outer : ScopeId) : Prop where
  inserted : Inserted s t outer
  size : t.size = s.size + 1
  wellFormed : t.WellFormed

theorem split_alloc {s : Scopes} {outer : ScopeId} (hs : s.WellFormed) (hlt : outer < s.size)
    (body : NodeId) : Split s (s.alloc .hoist body outer { loopWrapper := true }).1 outer :=
  ⟨inserted_alloc hlt rfl, size_alloc, hs.alloc fun _ hp => Option.some.inj hp ▸ hlt⟩

theorem Split.reparent {s t : Scopes} {outer child : ScopeId} (h : Split s t outer)
    (hlt : child < s.size) (hp : s.parent? child = some outer) :
    Split s (t.reparent child (some s.size)) outer where
  inserted := h.inserted.reparent hlt hp (h.size ▸ Nat.lt_succ_self _)
  size := by rw [size_reparent, h.size]
  wellFormed := h.wellFormed.reparent (h.size ▸ Nat.lt_succ_of_lt hlt) fun p e => by
    cases e
    rw [h.size]
    exact Nat.lt_succ_self _

theorem split_reparents {s t : Scopes} {outer : ScopeId} {children : List ScopeId}
    (h : Split s t outer) (hc : ∀ c ∈ children, s.parent? c = some outer) :
    Split s (children.foldl (fun t c => t.reparent c (some s.size)) t) outer := by
  induction children generalizing t with
  | nil => exact h
  | cons c children ih =>
    have hp := hc c List.mem_cons_self
    exact ih (h.reparent (lt_size_of_parent? hp) hp)
      fun c' hc' => hc c' (List.mem_cons_of_mem _ hc')

theorem split_splitBody (hb : b.scopes.WellFormed) {outer : ScopeId} (hlt : outer < b.scopes.size)
    (body : NodeId) : Split b.scopes (b.splitBody body outer).1.scopes outer :=
  split_reparents (split_alloc hb hlt body) fun _ hc => parent?_of_mem_moved hlt hb hc

/-- The body gets a new scope, below the one that it lies in. -/
theorem splitBody_spec (hb : b.WellScoped) {body : NodeId} {outer : ScopeId}
    (hlt : outer < b.scopes.size) :
    (b.splitBody body outer).1.WellScoped ∧ b.Extends (b.splitBody body outer).1 ∧
      (b.splitBody body outer).1.scopes.kind? (b.splitBody body outer).2 = some .hoist ∧
      (b.splitBody body outer).1.resolved = b.resolved := by
  have hsplit := split_splitBody hb.wellFormed hlt body
  have hcases {i : NodeId} {x : ScopeId} (hi : b.nodeScope? i = some x) :
      (b.splitBody body outer).1.nodeScope? i = some x ∨
        (b.splitBody body outer).1.nodeScope? i = some b.scopes.size ∧ x = outer := by
    rw [nodeScope?_splitBody]
    split
    · next hin => exact .inr ⟨rfl, Option.some.inj (hi.symm.trans hin.2)⟩
    · exact .inl hi
  have hnone {i : NodeId} (hi : b.nodeScope? i = none) :
      (b.splitBody body outer).1.nodeScope? i = none := by
    rw [nodeScope?_splitBody, hi]
    simp
  have hext : b.scopes.Extends (b.splitBody body outer).1.scopes :=
    .of_inserted hsplit.inserted hb.wellFormed (hsplit.size ▸ Nat.le_succ _)
      (fun hid => (node?_splitBody hlt _).trans (if_neg (Nat.ne_of_lt hid)))
      (declaration?_splitBody hlt)
  refine ⟨⟨hsplit.wellFormed, fun {i x} hi => ?_, fun {id name ident} hx => ?_⟩,
    ⟨rfl, rfl, hext, hnone, fun {i x} hi => ?_⟩, kind?_splitBody_new hlt, rfl⟩
  · rw [hsplit.size]
    cases hold : b.nodeScope? i with
    | none =>
      rw [hnone hold] at hi
      cases hi
    | some y =>
      rcases hcases hold with h | ⟨h, -⟩ <;> rw [h, Option.some.injEq] at hi
      · exact Nat.lt_succ_of_lt (hi ▸ hb.nodeScope_lt hold)
      · exact hi ▸ Nat.lt_succ_self _
  · rw [usesOf_splitBody hlt] at hx
    exact hb.listed hx
  · rcases hcases hi with h | ⟨h, rfl⟩
    · exact ⟨x, h, .inl rfl, fun ho => hext.functionBelow_iff ho (hb.nodeScope_lt hi)⟩
    · exact ⟨_, h, .inr (Nat.le_refl _), fun ho =>
        hsplit.inserted.functionBelow_new_iff hb.wellFormed ho⟩

/-- The scope that a body gets is a hoisting one; references resolve as before. -/
theorem openBody_spec (hb : b.WellScoped) {body outer : NodeId} (blockBody : Bool)
    (hlt : outer < b.scopes.size) :
    (b.openBody body blockBody outer).1.WellScoped ∧
      b.Extends (b.openBody body blockBody outer).1 ∧
      (b.openBody body blockBody outer).1.scopes.kind? (b.openBody body blockBody outer).2 =
        some .hoist ∧
      (b.openBody body blockBody outer).1.resolved = b.resolved := by
  cases blockBody with
  | true =>
    obtain ⟨hw, he, hk⟩ := openBlock_spec hb outer
    exact ⟨hw, he, hk hlt, rfl⟩
  | false => exact splitBody_spec hb hlt

/-! ## Parameters -/

/-- What holds on the way through the uses of a name of the head: uses that are still to come are
listed nowhere, and those put back at the head do not lie in the body. -/
structure Retargeting (b : Bound) (header : Option ScopeId) (scope : ScopeId) (body : NodeId)
    (name : String) (idents : List NodeId) : Prop where
  wellScoped : b.WellScoped
  declared : ∃ d, b.scopes.declaration? scope name = some d ∧ d.kind.isBlockScoped = false
  kept : ∀ {x : NodeId}, x ∈ b.scopes.usesOf header name → b.nodes.contains body x = true →
    header = some scope
  pending : ∀ {x : NodeId}, x ∈ idents → b.nodes.identifier? x = some name ∧
    ∃ r, b.resolution? x = some r ∧
      (header = some r.scope ∨ (r.scope = scope ∧ b.nodes.contains body x = true))

theorem resolution?_retarget (b : Bound) (ident i : NodeId) (scope : ScopeId) :
    (b.retarget ident scope).resolution? i =
      if i = ident then (b.resolution? i).map fun r => { r with scope } else b.resolution? i := by
  simp only [resolution?, retarget, Array.getElem?_modify]
  split
  · subst i
    cases b.resolved[ident]? <;> simp
  · simp_all [eq_comm]

section Params

variable {header : Option ScopeId} {scope : ScopeId} {body : NodeId} {name : String}
  {ident : NodeId} {idents : List NodeId}

/-- A use in the body goes to the parameter. -/
theorem Retargeting.move (h : Retargeting b header scope body name (ident :: idents))
    (hin : b.nodes.contains body ident = true) :
    let b' := (b.retarget ident scope).withScopes (b.scopes.addReference scope name ident)
    Retargeting b' header scope body name idents ∧ b.Retargets header body b' := by
  intro b'
  have huses : OnlyUses b.scopes b'.scopes := .addReference b.scopes scope name ident
  obtain ⟨hname, r, hr, hplace⟩ := h.pending List.mem_cons_self
  have hres (i : NodeId) : b'.resolution? i =
      if i = ident then (b.resolution? i).map fun r => { r with scope } else b.resolution? i :=
    resolution?_retarget b ident i scope
  have hself : b'.resolution? ident = some { r with scope } := by
    rw [hres, if_pos rfl, hr]
    rfl
  have hdeclared : ∃ d, b'.scopes.declaration? scope name = some d ∧
      d.kind.isBlockScoped = false := by
    obtain ⟨d, hd, hk⟩ := h.declared
    exact ⟨d, (huses.declaration? _ _).trans hd, hk⟩
  refine ⟨⟨⟨h.wellScoped.wellFormed.of_sameShape huses.sameShape, fun hi => ?_,
    fun {id other y} hy => ?_⟩, hdeclared, fun {y} hy hc => ?_, fun {y} hy => ?_⟩, fun y => ?_⟩
  · rw [huses.size]
    exact h.wellScoped.nodeScope_lt hi
  · rcases mem_usesOf_addReference hy with hy | ⟨rfl, hid, rfl⟩
    · obtain ⟨hother, r', hr', hid⟩ := h.wellScoped.listed hy
      refine ⟨hother, ?_⟩
      by_cases hyi : y = ident
      · subst y
        -- Listed already, so at the scope that it is moved to.
        rw [hr, Option.some.injEq] at hr'
        subst r'
        refine ⟨_, hself, ?_⟩
        rcases hplace with hheader | ⟨hscope, -⟩
        · have : other = name := Option.some.inj (hother.symm.trans hname)
          subst other
          rw [hid] at hheader
          exact Option.some.inj ((h.kept (hheader ▸ hy) hin).symm.trans hheader)
        · exact hscope.symm.trans hid
      · exact ⟨r', by rw [hres, if_neg hyi, hr'], hid⟩
    · exact ⟨hname, _, hself, (Option.some.inj hid).symm⟩
  · rcases mem_usesOf_addReference hy with hy | ⟨-, hid, -⟩
    · exact h.kept hy hc
    · exact hid
  · obtain ⟨hyname, r', hr', hyplace⟩ := h.pending (List.mem_cons_of_mem _ hy)
    refine ⟨hyname, ?_⟩
    by_cases hyi : y = ident
    · subst y
      exact ⟨_, hself, .inr ⟨rfl, hin⟩⟩
    · exact ⟨r', by rw [hres, if_neg hyi, hr'], hyplace⟩
  · by_cases hyi : y = ident
    · subst y
      rcases hplace with hheader | ⟨rfl, -⟩
      · obtain ⟨d, hd, hk⟩ := hdeclared
        exact .inr ⟨⟨hin, r, hr, hheader⟩, _, name, d, hself, hname, hd, hk⟩
      · exact .inl (hself.trans hr.symm)
    · exact .inl (by rw [hres, if_neg hyi])

/-- A use outside of the body stays at the head. -/
theorem Retargeting.keep (h : Retargeting b header scope body name (ident :: idents))
    (hout : b.nodes.contains body ident = false) :
    Retargeting (b.withScopes (b.scopes.addReference header name ident)) header scope body name
      idents := by
  have huses : OnlyUses b.scopes (b.scopes.addReference header name ident) :=
    .addReference _ _ _ _
  obtain ⟨hname, r, hr, hplace⟩ := h.pending List.mem_cons_self
  refine ⟨h.wellScoped.withScopes huses.sameShape fun {id other y} hy => ?_, ?_,
    fun {y} hy hc => ?_, fun hy => h.pending (List.mem_cons_of_mem _ hy)⟩
  · rcases mem_usesOf_addReference hy with hy | ⟨rfl, hid, rfl⟩
    · exact h.wellScoped.listed hy
    · refine ⟨hname, r, hr, ?_⟩
      rcases hplace with hheader | ⟨-, hin⟩
      · exact (Option.some.inj (hid.trans hheader)).symm
      · rw [hout] at hin
        cases hin
  · obtain ⟨d, hd, hk⟩ := h.declared
    exact ⟨d, (huses.declaration? _ _).trans hd, hk⟩
  · rcases mem_usesOf_addReference hy with hy | ⟨rfl, -, -⟩
    · exact h.kept hy hc
    · rw [show b.nodes.contains body y = true from hc] at hout
      cases hout

/-- What a step on the way to parameters keeps. -/
structure ParamStep (header : Option ScopeId) (body : NodeId) (b b' : Bound) : Prop where
  toExtends : b.Extends b'
  retargets : b.Retargets header body b'
  kind? : ∀ id, b'.scopes.kind? id = b.scopes.kind? id

namespace ParamStep

theorem refl (b : Bound) : ParamStep header body b b := ⟨.refl b, .refl b, fun _ => rfl⟩

theorem trans (h : ParamStep header body b b') (h' : ParamStep header body b' b'') :
    ParamStep header body b b'' where
  toExtends := h.toExtends.trans h'.toExtends
  retargets := h.retargets.trans h.toExtends.nodes h'.toExtends h'.retargets
  kind? id := (h'.kind? id).trans (h.kind? id)

theorem of_onlyUses (hb : b.WellScoped) (hu : b'.unit = b.unit) (hr : b'.references = b.references)
    (hn : b'.nodeScopes = b.nodeScopes) (hs : OnlyUses b.scopes b'.scopes)
    (hres : b.Retargets header body b') : ParamStep header body b b' :=
  ⟨.of_scopes hb.nodeScope_lt hu hr hn hs.toExtends, hres, hs.kind?⟩

end ParamStep

theorem retargetUses_spec (h : Retargeting b header scope body name idents) :
    let b' := idents.foldl
      (fun b ident =>
        if b.nodes.contains body ident then
          (b.retarget ident scope).withScopes (b.scopes.addReference scope name ident)
        else b.withScopes (b.scopes.addReference header name ident)) b
    b'.WellScoped ∧ ParamStep header body b b' := by
  intro b'
  induction idents generalizing b with
  | nil => exact ⟨h.wellScoped, .refl b⟩
  | cons ident idents ih =>
    dsimp only [b']
    rw [List.foldl_cons]
    by_cases hin : b.nodes.contains body ident = true
    · rw [if_pos hin]
      obtain ⟨hnext, hres⟩ := h.move hin
      obtain ⟨hw, hstep⟩ := ih hnext
      refine ⟨hw, .trans ?_ hstep⟩
      exact .of_onlyUses h.wellScoped rfl rfl rfl (.addReference b.scopes scope name ident) hres
    · rw [if_neg hin]
      obtain ⟨hw, hstep⟩ := ih (h.keep (by simpa using hin))
      refine ⟨hw, .trans ?_ hstep⟩
      exact .of_onlyUses h.wellScoped rfl rfl rfl (.addReference b.scopes header name ident)
        (.of_resolved rfl)

theorem retargetHeader_spec (header : Option ScopeId) (body : NodeId) (hb : b.WellScoped)
    (hd : ∃ d, b.scopes.declaration? scope name = some d ∧ d.kind.isBlockScoped = false) :
    (b.retargetHeader header scope body name).WellScoped ∧
      ParamStep header body b (b.retargetHeader header scope body name) := by
  have htake : OnlyUses b.scopes (b.scopes.takeReferences header name).1 := .takeReferences _ _ _
  have hw : (b.withScopes (b.scopes.takeReferences header name).1).WellScoped :=
    hb.withScopes htake.sameShape fun hx => hb.listed (mem_usesOf_takeReferences.1 hx).1
  have hinit : Retargeting (b.withScopes (b.scopes.takeReferences header name).1) header scope body
      name (b.scopes.usesOf header name) := by
    refine ⟨hw, ?_, fun hx _ => ?_, fun {x} hx => ?_⟩
    · obtain ⟨d, hd, hk⟩ := hd
      exact ⟨d, (htake.declaration? _ _).trans hd, hk⟩
    · exact absurd ⟨rfl, rfl⟩ (mem_usesOf_takeReferences.1 hx).2
    · cases header with
      | none => cases hx
      | some id =>
        obtain ⟨hname, r, hr, hid⟩ := hb.listed hx
        exact ⟨hname, r, hr, .inl (congrArg some hid.symm)⟩
  obtain ⟨hw', hstep⟩ := retargetUses_spec hinit
  refine ⟨hw', .trans ?_ hstep⟩
  exact .of_onlyUses hb rfl rfl rfl htake (.of_resolved rfl)

theorem declareParam_spec (header : Option ScopeId) (body : NodeId) (hb : b.WellScoped)
    (hk : b.scopes.kind? scope = some .hoist)
    (hn : b.scopes.declaration? scope name = none) :
    let b' := b.withScopes (b.scopes.update scope
      (·.append name { kind := .param, node := none, fromPos := none }))
    b'.WellScoped ∧ ParamStep header body b b' ∧
      ∃ d, b'.scopes.declaration? scope name = some d ∧ d.kind.isBlockScoped = false := by
  intro b'
  let f : Scope → Scope := (·.append name { kind := .param, node := none, fromPos := none })
  obtain ⟨c, hc, -⟩ := Option.map_eq_some_iff.1 hk
  have hext : b.scopes.Extends b'.scopes := .declare rfl (declare_param hk hn)
  have hshape : b.scopes.SameShape (b.scopes.update scope f) :=
    .update b.scopes scope ⟨fun _ => rfl, fun _ => rfl, fun _ => rfl⟩
  refine ⟨hb.withScopes hshape fun hx => ?_, ⟨.of_scopes hb.nodeScope_lt rfl rfl rfl hext,
    .of_resolved rfl, fun id => ?_⟩, { kind := .param, node := none, fromPos := none },
    (declaration?_append (lt_size_of_get? hc)).trans (by simp [hn]), rfl⟩
  · rw [usesOf_update (f := f) fun _ => rfl] at hx
    exact hb.listed hx
  · exact view_update (f := f) (·.kind) (fun _ => rfl) _ id

/-- The names of the head become parameters. -/
theorem addParams_spec {names params : List String} (hb : b.WellScoped)
    (hk : b.scopes.kind? scope = some .hoist)
    (h : addParams header scope body b names = .ok (b', params)) :
    b'.WellScoped ∧ ParamStep header body b b' := by
  induction names generalizing b b' params with
  | nil =>
    cases h
    exact ⟨hb, .refl b⟩
  | cons name names ih =>
    unfold addParams at h
    split at h
    · exact ih hb hk h
    · next hnot =>
      have hn := not_declares_iff.1 hnot
      rw [declare_param hk hn] at h
      obtain ⟨⟨b₁, params₁⟩, hrest, h⟩ := bind_eq_ok.1 h
      cases h
      obtain ⟨hw, hdecl, hd⟩ := declareParam_spec header body hb hk hn
      obtain ⟨hw', hretarget⟩ := retargetHeader_spec header body hw hd
      have hstep := hdecl.trans hretarget
      obtain ⟨hw'', hrest⟩ := ih hw' ((hstep.kind? _).trans hk) hrest
      exact ⟨hw'', hstep.trans hrest⟩

end Params

/-- A wrap of a block is told so. -/
theorem block_of_wrap {loop body : NodeId} {w : Wrap} (h : b.wrap loop body = .ok (b', w))
    (hw : w.blockBody = true) : ∃ statements, b.nodes.form? w.body = some (.block statements) := by
  unfold wrap at h
  split at h
  · cases h
  · obtain ⟨⟨b₂, params⟩, -, h⟩ := bind_eq_ok.1 h
    cases h
    exact exists_block_of_isBlock hw

/-- The head of a loop that binds names is a `let` or `const`. -/
theorem headerNames_eq_nil_or (b : Bound) (loop : NodeId) : b.nodes.headerNames loop = [] ∨
    ∃ each left right body, b.nodes.form? loop = some (.forEach each left right body) ∧
      Binding.isLexical b.unit left = true := by
  rcases hnames : b.nodes.headerNames loop with _ | ⟨name, names⟩
  · exact .inl rfl
  · obtain ⟨each, left, right, body, keyword, ds, hloop, hleft, hk, -⟩ :=
      exists_of_mem_headerNames (hnames ▸ List.mem_cons_self)
    refine .inr ⟨each, left, right, body, hloop, ?_⟩
    rw [Binding.isLexical, show b.unit.nodes.form? left = _ from hleft]
    exact decide_eq_true hk

/-- A wrap adds to the scopes. Of the references it retargets those to the scope of the head, if the
head is a `let` or `const`. -/
theorem wrap_spec {loop body : NodeId} {w : Wrap} (hb : b.WellScoped)
    (h : b.wrap loop body = .ok (b', w)) :
    w.loop = loop ∧ w.body = body ∧ b'.WellScoped ∧ b.Extends b' ∧
      (b'.resolved = b.resolved ∨ b.Retargets (b.nodeScope? loop) body b' ∧
        ∃ each left right body, b.nodes.form? loop = some (.forEach each left right body) ∧
          Binding.isLexical b.unit left = true) := by
  unfold wrap at h
  split at h
  · cases h
  · next outer houter =>
    dsimp only at h
    obtain ⟨⟨b₂, params⟩, hparams, h⟩ := bind_eq_ok.1 h
    cases h
    obtain ⟨hw, hext, hk, hres⟩ := openBody_spec hb _ (hb.nodeScope_lt houter)
    obtain ⟨hw', hstep⟩ := addParams_spec hw hk hparams
    refine ⟨rfl, rfl, hw', hext.trans hstep.toExtends, ?_⟩
    rcases headerNames_eq_nil_or b loop with hnil | hlexical
    · left
      rw [hext.nodes, hnil] at hparams
      cases hparams
      exact hres
    · exact .inr ⟨.trans (.of_resolved hres) hext.nodes hstep.toExtends hstep.retargets, hlexical⟩

end Bound

end LoopClosure
