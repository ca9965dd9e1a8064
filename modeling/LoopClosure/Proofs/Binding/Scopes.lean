import Mathlib.Data.List.Find
import LoopClosure.Binding.Bind
import LoopClosure.Proofs.Scope.Hoist
import LoopClosure.Proofs.Scope.Path
import LoopClosure.Proofs.Success

/-!
# The scopes of a bound program

What holds of the tables that `bind` makes, whatever the program (`bind_wellScoped`): the tree of
scopes is well formed, every node has a scope of the table, a use that a scope lists is a reference
that resolves there, and a loop over a collection whose head declares with `let` or `const` has a
scope of its own.

Entering nodes changes the table by allocations and by updates that keep the tree, the uses and the
marks (`Built`); only a `catch` marks the names that it binds (`enterScopes_opened`). Resolving
references changes no more than uses, marks and types.
-/

namespace LoopClosure

open Syntax Binding Scopes

/-- `f` changes no more of a scope than its declarations, flags and temporaries. -/
structure Scope.Mild (f : Scope → Scope) : Prop extends Scope.Tame f where
  kind : ∀ c, (f c).kind = c.kind
  references : ∀ c, (f c).references = c.references
  propagates : ∀ c, (f c).propagates = c.propagates

namespace Scopes

variable {s t u : Scopes}

/-- `t` comes from `s` by allocations and by updates that keep the tree, the uses and the marks. -/
inductive Built (s : Scopes) : Scopes → Prop where
  | refl : Built s s
  | update {t : Scopes} {f : Scope → Scope} (id : Option ScopeId) (hf : Scope.Mild f)
    (h : Built s t) : Built s (t.update id f)
  | alloc {t : Scopes} (kind : ScopeKind) (node : Option NodeId) {parent : Option ScopeId}
    (flags : Flags) (hp : ∀ p, parent = some p → p < t.size) (h : Built s t) :
    Built s (t.alloc kind node parent flags).1

namespace Built

theorem trans (h : Built s t) (h' : Built t u) : Built s u := by
  induction h' with
  | refl => exact h
  | update id hf _ ih => exact .update id hf ih
  | alloc kind node flags hp _ ih => exact .alloc kind node flags hp ih

theorem size_le (h : Built s t) : s.size ≤ t.size := by
  induction h with
  | refl => exact Nat.le_refl _
  | update => rwa [size_update]
  | alloc => rw [size_alloc]; omega

theorem wellFormed (h : Built s t) (hs : WellFormed s) : WellFormed t := by
  induction h with
  | refl => exact hs
  | update id hf _ ih => exact ih.of_sameShape (.update _ id hf.toTame)
  | alloc _ _ _ hp _ ih => exact ih.alloc hp

/-- The scopes that were there keep their place in the tree. -/
theorem place_eq (h : Built s t) {id : ScopeId} (hid : id < s.size) :
    t.node? (some id) = s.node? (some id) ∧ t.parent? (some id) = s.parent? (some id) ∧
      t.kind? (some id) = s.kind? (some id) := by
  induction h with
  | refl => exact ⟨rfl, rfl, rfl⟩
  | @update t _ j hf _ ih =>
    have hshape := SameShape.update t j hf.toTame
    exact ⟨(hshape.node? _).trans ih.1, (hshape.parent? _).trans ih.2.1,
      (view_update (·.kind) hf.kind j _).trans ih.2.2⟩
  | alloc _ _ _ hp ht ih =>
    have hne := Nat.ne_of_lt (Nat.lt_of_lt_of_le hid ht.size_le)
    have hparent := fun e => Nat.lt_irrefl _ (hp _ e)
    rwa [node?_alloc hparent, parent?_alloc hparent, kind?_alloc hparent, if_neg hne, if_neg hne,
      if_neg hne]

theorem node?_eq (h : Built s t) {id : ScopeId} (hid : id < s.size) :
    t.node? (some id) = s.node? (some id) := (h.place_eq hid).1

theorem walkUp_eq (h : Built s t) (hs : WellFormed s) (n : Nat) {id : ScopeId}
    (hid : id < s.size) : t.walkUp n (some id) = s.walkUp n (some id) := by
  induction n generalizing id with
  | zero => rfl
  | succ n ih =>
    rw [walkUp_succ, walkUp_succ, (h.place_eq hid).2.1]
    cases hp : s.parent? (some id) with
    | none => rw [walkUp_none, walkUp_none]
    | some p => rw [ih (hs.parent_lt hp)]

theorem closestHoist?_eq (h : Built s t) (hs : WellFormed s) {id : ScopeId} (hid : id < s.size) :
    t.closestHoist? (some id) = s.closestHoist? (some id) := by
  unfold closestHoist? walk
  rw [h.walkUp_eq hs _ hid]
  refine List.find?_congr fun y hy => ?_
  obtain ⟨c, hc⟩ := get?_of_mem_walkUp hs (fun _ e => Option.some.inj e ▸ hid) hy
  rw [(h.place_eq (lt_size_of_get? hc)).2.2]

theorem sameLists (h : Built s t) : SameLists s t := by
  induction h with
  | refl => exact .refl s
  | update id hf _ ih => exact ih.trans (.update _ id hf.references)
  | alloc _ _ _ _ _ ih => exact ih.trans (.alloc _ _ _ _ _)

theorem hasPropagated_eq (h : Built s t) (y : ScopeId) (name : String) :
    t.hasPropagated (some y) name = s.hasPropagated (some y) name := by
  induction h with
  | refl => rfl
  | update id hf _ ih =>
    refine Eq.trans ?_ ih
    unfold hasPropagated
    rw [view_update (fun c => decide (name ∈ c.propagates)) fun c => by rw [hf.propagates]]
  | alloc _ _ _ hp _ ih =>
    rw [hasPropagated_alloc fun e => Nat.lt_irrefl _ (hp _ e), ih]

/-! ## What changes declarations and flags only -/

theorem of_update {f : Scope → Scope} (id : Option ScopeId) (hf : Scope.Mild f) :
    Built s (s.update id f) :=
  .update id hf .refl

theorem addGlobal (id : Option ScopeId) (name : String) (kind : BindingKind)
    (fromPos : Option Nat) : Built s (s.addGlobal id name kind fromPos) :=
  .of_update id
    ⟨⟨fun _ => rfl, fun _ => rfl, fun _ => rfl⟩, fun _ => rfl, fun _ => rfl, fun _ => rfl⟩

theorem addType (id : Option ScopeId) (name : String) (type : ValueType) :
    Built s (s.addType id name type) :=
  .of_update id
    ⟨⟨fun _ => rfl, fun _ => rfl, fun _ => rfl⟩, fun _ => rfl, fun _ => rfl, fun _ => rfl⟩

theorem addFlags (id : Option ScopeId) (flags : Flags) : Built s (s.addFlags id flags) :=
  .of_update id
    ⟨⟨fun _ => rfl, fun _ => rfl, fun _ => rfl⟩, fun _ => rfl, fun _ => rfl, fun _ => rfl⟩

theorem foldl {α : Type} {step : Scopes → α → Scopes} (h : ∀ s a, Built s (step s a))
    (as : List α) (s : Scopes) : Built s (as.foldl step s) := by
  induction as generalizing s with
  | nil => exact .refl
  | cons a as ih => exact (h s a).trans (ih _)

theorem declare {id target : Option ScopeId} {name : String} {kind : BindingKind}
    {node : Option NodeId} {fromPos : Option Nat}
    (h : s.declare id name kind node fromPos = .ok (t, target)) : Built s t := by
  rcases declare_cases h with rfl | ⟨j, c, -, -, -, rfl⟩
  · exact .refl
  · exact .of_update _
      ⟨⟨fun _ => rfl, fun _ => rfl, fun _ => rfl⟩, fun _ => rfl, fun _ => rfl, fun _ => rfl⟩

end Built

end Scopes

namespace Syntax.Nodes

variable {ns : Nodes} {id : NodeId}

theorem lt_size_of_form? {form : Form NodeId} (h : ns.form? id = some form) : id < ns.size := by
  obtain ⟨n, hn, -⟩ := Option.map_eq_some_iff.1 h
  exact (Array.getElem?_eq_some_iff.1 hn).1

theorem lt_size_of_identifier? {name : String} (h : ns.identifier? id = some name) :
    id < ns.size := by
  unfold identifier? at h
  split at h
  · exact lt_size_of_form? ‹_›
  · cases h

end Syntax.Nodes

namespace Binding

variable {u : CompilationUnit} {s t : Scopes}

/-- A table that lists the same uses in the same tree. -/
structure SameUses (s t : Scopes) : Prop where
  shape : s.SameShape t
  lists : s.SameLists t

namespace SameUses

theorem refl (s : Scopes) : SameUses s s := ⟨.refl s, .refl s⟩

theorem trans {r : Scopes} (h : SameUses s t) (h' : SameUses t r) : SameUses s r :=
  ⟨h.shape.trans h'.shape, h.lists.trans h'.lists⟩

theorem usesOf (h : SameUses s t) (id : Option ScopeId) (name : String) :
    t.usesOf id name = s.usesOf id name := h.lists.usesOf id name

theorem update {f : Scope → Scope} (s : Scopes) (id : Option ScopeId) (hf : Scope.Tame f)
    (hr : ∀ c, (f c).references = c.references) : SameUses s (s.update id f) :=
  ⟨.update s id hf, .update s id hr⟩

theorem modify (s : Scopes) (id : Option ScopeId) (name : String) (f : Declaration → Declaration) :
    SameUses s (s.modify id name f) :=
  .update s id ⟨fun _ => rfl, fun _ => rfl, fun _ => rfl⟩ fun _ => rfl

/-- Marks of several names at one scope. -/
theorem markAll (s : Scopes) (id : Option ScopeId) (names : List String) :
    SameUses s (names.foldl (fun s name => s.markPropagates id name) s) := by
  induction names generalizing s with
  | nil => exact .refl s
  | cons name names ih =>
    have h : SameUses s (s.markPropagates id name) :=
      .update s id ⟨fun _ => rfl, fun _ => rfl, fun _ => rfl⟩ fun _ => rfl
    exact h.trans (ih _)

end SameUses

/-! ## Entering a node -/

theorem declareAt_built {scope : ScopeId} {name : String} {kind : BindingKind} {ident : NodeId}
    {fromPos : Option Nat} {target : Option ScopeId}
    (h : declareAt u s scope name kind ident fromPos = .ok (t, target)) : s.Built t := by
  unfold declareAt at h
  split at h
  · cases h
    exact .declare ‹_›
  · cases h

theorem declareAll_built {scope : ScopeId} {kind : BindingKind} {fromPos : Option Nat}
    {type : Option ValueType} {idents : List NodeId}
    (h : declareAll u scope kind fromPos type s idents = .ok t) : s.Built t := by
  induction idents generalizing s with
  | nil =>
    cases h
    exact .refl
  | cons ident idents ih =>
    unfold declareAll at h
    split at h
    · exact ih h
    · obtain ⟨⟨s', target⟩, hd, h⟩ := bind_eq_ok.1 h
      refine (declareAt_built hd).trans (.trans ?_ (ih h))
      split
      · exact .addType _ _ _
      · exact .refl

theorem declareDeclarator_built {scope : ScopeId} {keyword : VarKeyword} {d : NodeId}
    (h : declareDeclarator u scope keyword s d = .ok t) : s.Built t := by
  unfold declareDeclarator at h
  split at h
  · split at h
    · cases h
    · exact declareAll_built h
  · cases h
    exact .refl

theorem declareDeclarators_built {scope : ScopeId} {keyword : VarKeyword} {ds : List NodeId}
    (h : declareDeclarators u scope keyword s ds = .ok t) : s.Built t := by
  induction ds generalizing s with
  | nil =>
    cases h
    exact .refl
  | cons d ds ih =>
    obtain ⟨s', hd, h⟩ := bind_eq_ok.1 h
    exact (declareDeclarator_built hd).trans (ih h)

theorem flagFunctions_built (s : Scopes) (flags : Flags) (n : Nat) (scope : Option ScopeId) :
    s.Built (flagFunctions s flags n scope) := by
  induction n generalizing s scope with
  | zero => exact .refl
  | succ n ih =>
    unfold flagFunctions
    split
    · exact .refl
    · dsimp only
      split
      · exact (Scopes.Built.addFlags _ _).trans (ih _ _)
      · exact .addFlags _ _

/-- `own` is a scope of `t`, which comes from `s` by building. -/
structure Opened (s t : Scopes) (own : ScopeId) : Prop where
  built : s.Built t
  own_lt : own < t.size

theorem Opened.refl {own : ScopeId} (h : own < s.size) : Opened s s own := ⟨.refl, h⟩

theorem Opened.then {own : ScopeId} {r : Scopes} (h : Opened s t own) (h' : t.Built r) :
    Opened s r own :=
  ⟨h.built.trans h', Nat.lt_of_lt_of_le h.own_lt h'.size_le⟩

theorem alloc_opened {scope : ScopeId} (hlt : scope < s.size) (kind : ScopeKind)
    (node : Option NodeId) (flags : Flags) :
    Opened s (s.alloc kind node scope flags).1 (s.alloc kind node scope flags).2 :=
  ⟨.alloc kind node flags (fun _ e => Option.some.inj e ▸ hlt) .refl, by simp⟩

theorem enterFunction_opened {id : NodeId} {scope own : ScopeId} {params : List NodeId}
    {arrow : Bool} (hlt : scope < s.size)
    (h : enterFunction u s id scope params arrow = .ok (t, own)) : Opened s t own := by
  unfold enterFunction at h
  obtain ⟨s', hd, h⟩ := bind_eq_ok.1 h
  cases h
  exact (alloc_opened hlt _ _ _).then (declareAll_built hd)

theorem blockWhen_opened {id : NodeId} {scope own : ScopeId} {isOwn : Bool} (hlt : scope < s.size)
    (h : (Except.ok (if isOwn then s.alloc .block id scope {} else (s, scope)) :
      Except Failure (Scopes × ScopeId)) = .ok (t, own)) : Opened s t own := by
  cases isOwn
  · cases h
    exact .refl hlt
  · cases h
    exact alloc_opened hlt _ _ _

/-- The names that a `catch` binds. -/
def caughtNames (u : CompilationUnit) : Form NodeId → List String
  | .catchClause param _ => ((param.map u.nodes.bindingIds).getD []).filterMap u.nodes.identifier?
  | _ => []

/-- A `catch` marks what it binds at the nearest hoisting scope. -/
theorem enterCatch_opened {id : NodeId} {scope own : ScopeId} {param : Option NodeId}
    {body : NodeId} (hlt : scope < s.size)
    (h : enterScopes u s id scope (.catchClause param body) = .ok (t, own)) :
    ∃ r, Opened s r own ∧ t = (caughtNames u (.catchClause param body)).foldl
      (fun s name => s.markPropagates (r.closestHoist? scope) name) r := by
  obtain ⟨r, hd, h⟩ := bind_eq_ok.1 h
  cases h
  exact ⟨r, (alloc_opened hlt _ _ _).then (declareAll_built hd), rfl⟩

/-- What entering another node does. -/
theorem enterOther_opened {id : NodeId} {scope own : ScopeId} {form : Form NodeId}
    (hlt : scope < s.size) (hcatch : ∀ param body, form ≠ .catchClause param body)
    (h : enterScopes u s id scope form = .ok (t, own)) : Opened s t own := by
  unfold enterScopes at h
  split at h
  · cases h
    exact alloc_opened hlt _ _ _
  · -- A function declaration puts its name into the scope around, then opens its own.
    split at h
    · next name _ =>
      obtain ⟨⟨s', target⟩, hd, h⟩ := bind_eq_ok.1 h
      have hb := (declareAt_built hd).trans (.addType scope name .function)
      have ho := enterFunction_opened (Nat.lt_of_lt_of_le hlt hb.size_le) h
      exact ⟨hb.trans ho.built, ho.own_lt⟩
    · exact enterFunction_opened hlt h
  · obtain ⟨⟨s', inner⟩, hf, h⟩ := bind_eq_ok.1 h
    have ho := enterFunction_opened hlt hf
    dsimp only at h
    split at h
    · obtain ⟨⟨s'', target⟩, hd, h⟩ := bind_eq_ok.1 h
      cases h
      exact ho.then ((declareAt_built hd).trans (.addType _ _ _))
    · cases h
      exact ho
  · exact enterFunction_opened hlt h
  · split at h
    · next name _ =>
      obtain ⟨⟨s', target⟩, hd, h⟩ := bind_eq_ok.1 h
      cases h
      have hb := (declareAt_built hd).trans (.addType scope name .class_)
      have ho := alloc_opened (Nat.lt_of_lt_of_le hlt hb.size_le) .hoist id { class_ := true }
      exact ⟨hb.trans ho.built, ho.own_lt⟩
    · cases h
      exact alloc_opened hlt _ _ _
  · dsimp only at h
    split at h
    · obtain ⟨⟨s', target⟩, hd, h⟩ := bind_eq_ok.1 h
      cases h
      exact (alloc_opened hlt _ _ _).then ((declareAt_built hd).trans (.addType _ _ _))
    · cases h
      exact alloc_opened hlt _ _ _
  · obtain ⟨s', hd, h⟩ := bind_eq_ok.1 h
    cases h
    exact (Opened.refl hlt).then (declareDeclarators_built hd)
  · exact blockWhen_opened hlt h
  · exact blockWhen_opened hlt h
  · exact blockWhen_opened hlt h
  · exact blockWhen_opened hlt h
  · exact absurd rfl (hcatch _ _)
  · cases h
    exact (Opened.refl hlt).then (flagFunctions_built _ _ _ _)
  · split at h
    · cases h
      exact (Opened.refl hlt).then (flagFunctions_built _ _ _ _)
    · cases h
      exact .refl hlt
  · cases h
    exact .refl hlt

/-- What entering a node does: then it marks what a `catch` binds. -/
theorem enterScopes_opened {id : NodeId} {scope own : ScopeId} {form : Form NodeId}
    (hlt : scope < s.size) (h : enterScopes u s id scope form = .ok (t, own)) :
    ∃ r, Opened s r own ∧ t = (caughtNames u form).foldl
      (fun s name => s.markPropagates (r.closestHoist? scope) name) r := by
  cases form with
  | catchClause param body => exact enterCatch_opened hlt h
  | _ => exact ⟨t, enterOther_opened hlt (fun _ _ e => by cases e) h, rfl⟩

/-- A loop over a collection whose head is a `let` or `const` opens a scope of its own. -/
theorem node?_enterScopes_forEach {id left right body : NodeId} {each : Iteration}
    {scope own : ScopeId} (hlt : scope < s.size) (hlex : isLexical u left = true)
    (h : enterScopes u s id scope (.forEach each left right body) = .ok (t, own)) :
    t.node? own = some id := by
  have halloc : s.alloc .block id scope {} = (t, own) := by
    simpa only [enterScopes, hlex, if_pos, Except.ok.injEq] using h
  obtain ⟨rfl, rfl⟩ := Prod.mk.inj halloc
  have hne : some scope ≠ some s.size := fun e => Nat.ne_of_lt hlt (Option.some.inj e)
  exact (node?_alloc hne s.size).trans (if_pos rfl)

/-! ## Entering all nodes -/

/-- The scopes that entering a node leaves, and the one that the node has. -/
theorem enterNode_scopes {b b' : Build} {id : NodeId} {n : Node} (h : enterNode u b id n = .ok b') :
    ∃ own, enterScopes u b.scopes id ((n.parent.bind fun p => b.nodeScopes[p]?).getD topScope) n.form =
        .ok (b'.scopes, own) ∧ b'.nodeScopes = b.nodeScopes.push own := by
  unfold enterNode at h
  obtain ⟨⟨t, own⟩, he, h⟩ := bind_eq_ok.1 h
  dsimp only at h
  split at h
  · split at h
    · cases h
      exact ⟨own, he, rfl⟩
    · cases h
      exact ⟨own, he, rfl⟩
  · cases h
    exact ⟨own, he, rfl⟩

/-- What holds after the first nodes are entered. -/
structure Entered (u : CompilationUnit) (b : Build) : Prop where
  wellFormed : b.scopes.WellFormed
  size_pos : 0 < b.scopes.size
  unused : ∀ id : ScopeId, b.scopes.listsOf id = []
  nodeScope_lt : ∀ {i : NodeId} {s : ScopeId}, b.nodeScopes[i]? = some s → s < b.scopes.size
  header : ∀ {i left right body : NodeId} {each : Iteration}, i < b.nodeScopes.size →
    u.nodes.form? i = some (.forEach each left right body) → isLexical u left = true →
    ∃ h, b.nodeScopes[i]? = some h ∧ b.scopes.node? h = some i
  nodup : b.references.toList.Nodup
  reference_lt : ∀ {r : NodeId}, r ∈ b.references.toList → r < b.nodeScopes.size
  isReference : ∀ {r : NodeId}, r ∈ b.references.toList → isReference u.nodes r = true

namespace Entered

variable {b b' : Build}

/-- A node is entered in a scope of the table. -/
theorem scope_lt (hb : Entered u b) (parent : Option NodeId) :
    (parent.bind fun p => b.nodeScopes[p]?).getD topScope < b.scopes.size := by
  cases hs : parent.bind fun p => b.nodeScopes[p]? with
  | none => exact hb.size_pos
  | some s =>
    obtain ⟨p, -, hp⟩ := Option.bind_eq_some_iff.1 hs
    exact hb.nodeScope_lt hp

theorem push (hb : Entered u b) {scope own : ScopeId} {n : Node}
    (hn : u.nodes.get? b.nodeScopes.size = some n) (hlt : scope < b.scopes.size)
    (he : enterScopes u b.scopes b.nodeScopes.size scope n.form = .ok (t, own)) :
    Entered u { b with scopes := t, nodeScopes := b.nodeScopes.push own } := by
  obtain ⟨r, ho, ht⟩ := enterScopes_opened hlt he
  have hmarks : SameUses r t := ht ▸ .markAll _ _ _
  have hle : b.scopes.size ≤ t.size := hmarks.shape.size ▸ ho.built.size_le
  refine ⟨(ho.built.wellFormed hb.wellFormed).of_sameShape hmarks.shape,
    Nat.lt_of_lt_of_le hb.size_pos hle, fun id => ?_, fun {i s} hi => ?_,
    fun {i left right body each} hi hf hlex => ?_, hb.nodup, fun hr => ?_, hb.isReference⟩
  · exact (hmarks.lists.listsOf id).trans ((ho.built.sameLists.listsOf id).trans (hb.unused id))
  · rw [Array.getElem?_push] at hi
    split at hi
    · cases hi
      exact hmarks.shape.size ▸ ho.own_lt
    · exact Nat.lt_of_lt_of_le (hb.nodeScope_lt hi) hle
  · rw [Array.size_push] at hi
    rw [Array.getElem?_push]
    by_cases hlast : i = b.nodeScopes.size
    · subst i
      refine ⟨own, if_pos rfl, ?_⟩
      rw [Nodes.form?, hn, Option.map_some, Option.some.injEq] at hf
      exact node?_enterScopes_forEach hlt hlex (hf ▸ he)
    · obtain ⟨sc, hsc, hnode⟩ := hb.header (Nat.lt_of_le_of_ne (Nat.le_of_lt_succ hi) hlast) hf hlex
      refine ⟨sc, by rw [if_neg hlast, hsc], ?_⟩
      rw [hmarks.shape.node?, ho.built.node?_eq (hb.nodeScope_lt hsc), hnode]
  · rw [Array.size_push]
    exact Nat.lt_succ_of_lt (hb.reference_lt hr)

theorem enterNode {n : Node} (hb : Entered u b) (hn : u.nodes.get? b.nodeScopes.size = some n)
    (h : enterNode u b b.nodeScopes.size n = .ok b') :
    Entered u b' ∧ b'.nodeScopes.size = b.nodeScopes.size + 1 := by
  unfold Binding.enterNode at h
  extract_lets scope at h
  obtain ⟨⟨t, own⟩, he, h⟩ := bind_eq_ok.1 h
  have hp := hb.push hn (hb.scope_lt n.parent) he
  have hsize : (b.nodeScopes.push own).size = b.nodeScopes.size + 1 := Array.size_push _
  have hfresh : b.nodeScopes.size ∉ b.references.toList := fun hr =>
    Nat.lt_irrefl _ (hb.reference_lt hr)
  dsimp only at h
  split at h
  · split at h
    · next href =>
      cases h
      refine ⟨⟨hp.wellFormed, hp.size_pos, hp.unused, hp.nodeScope_lt, hp.header, ?_,
        fun {r} hr => ?_, fun {r} hr => ?_⟩, hsize⟩
      · rw [Array.toList_push, List.nodup_append]
        exact ⟨hb.nodup, by simp, fun a ha c hc => by
          rintro rfl
          exact hfresh (List.mem_singleton.1 hc ▸ ha)⟩
      · rw [Array.toList_push, List.mem_append, List.mem_singleton] at hr
        rcases hr with hr | rfl
        · exact hp.reference_lt hr
        · exact hsize ▸ Nat.lt_succ_self _
      · rw [Array.toList_push, List.mem_append, List.mem_singleton] at hr
        rcases hr with hr | rfl
        · exact hp.isReference hr
        · exact href
    · cases h
      exact ⟨hp, hsize⟩
  · cases h
    exact ⟨hp, hsize⟩

theorem enterNodes {ns : List Node} (hb : Entered u b)
    (hns : u.nodes.table.toList.drop b.nodeScopes.size = ns)
    (h : enterNodes u b b.nodeScopes.size ns = .ok b') :
    Entered u b' ∧ b'.nodeScopes.size = b.nodeScopes.size + ns.length := by
  induction ns generalizing b with
  | nil =>
    cases h
    exact ⟨hb, rfl⟩
  | cons n ns ih =>
    obtain ⟨b₁, h₁, h⟩ := bind_eq_ok.1 h
    have hn : u.nodes.get? b.nodeScopes.size = some n := by
      have := congrArg List.head? hns
      rwa [List.head?_drop, List.head?_cons, Array.getElem?_toList] at this
    obtain ⟨hb₁, hsize⟩ := hb.enterNode hn h₁
    have hns₁ : u.nodes.table.toList.drop b₁.nodeScopes.size = ns := by
      rw [hsize, ← List.drop_drop, hns, List.drop_one, List.tail_cons]
    obtain ⟨hb', hsize'⟩ := ih hb₁ hns₁ (hsize ▸ h)
    exact ⟨hb', by rw [hsize', hsize, List.length_cons]; omega⟩

/-- What entering each of the nodes keeps holds behind the last. -/
theorem invariant {P : Build → Prop} {ns : List Node} (hb : Entered u b) (hP : P b)
    (hstep : ∀ {b b₁ : Build} {n : Node}, Entered u b → P b →
      u.nodes.get? b.nodeScopes.size = some n →
        Binding.enterNode u b b.nodeScopes.size n = .ok b₁ → P b₁)
    (hns : u.nodes.table.toList.drop b.nodeScopes.size = ns)
    (h : Binding.enterNodes u b b.nodeScopes.size ns = .ok b') : P b' := by
  induction ns generalizing b with
  | nil =>
    cases h
    exact hP
  | cons n ns ih =>
    obtain ⟨b₁, h₁, h⟩ := bind_eq_ok.1 h
    have hn : u.nodes.get? b.nodeScopes.size = some n := by
      have := congrArg List.head? hns
      rwa [List.head?_drop, List.head?_cons, Array.getElem?_toList] at this
    obtain ⟨hb₁, hsize⟩ := hb.enterNode hn h₁
    refine ih hb₁ (hstep hb hP hn h₁) ?_ (hsize ▸ h)
    rw [hsize, ← List.drop_drop, hns, List.drop_one, List.tail_cons]

end Entered

/-! ## The scope of the globals -/

theorem addTable_built (s : Scopes) (table : List (String × Bool)) : s.Built (addTable s table) :=
  .foldl (fun _ _ => .addGlobal _ _ _ _) table s

theorem addEnvironments_built {names : List String} (h : addEnvironments u s names = .ok t) :
    s.Built t := by
  induction names generalizing s with
  | nil =>
    cases h
    exact .refl
  | cons name names ih =>
    unfold addEnvironments at h
    split at h
    · exact (addTable_built _ _).trans (ih h)
    · cases h

/-- The empty table with the scope of the globals. -/
theorem environment_built (h : environment u = .ok s) :
    (Scopes.alloc {} .hoist none none { top := true }).1.Built s := by
  unfold environment at h
  obtain ⟨t, ht, h⟩ := bind_eq_ok.1 h
  cases h
  exact ((Scopes.Built.foldl addTable_built _ _).trans (addEnvironments_built ht)).trans
    (addTable_built _ _)

theorem entered_environment (h : environment u = .ok s) : Entered u { scopes := s } := by
  have hb := environment_built h
  have hnone : ∀ p : ScopeId, none = some p → p < Scopes.size {} := fun p hp => nomatch hp
  have hinit : Scopes.Built {} s := Scopes.Built.trans (.alloc _ _ _ hnone .refl) hb
  refine ⟨hinit.wellFormed .empty, Nat.lt_of_lt_of_le (by simp) hb.size_le,
    fun id => hinit.sameLists.listsOf id, fun hi => ?_, fun hi => ?_, by simp,
    fun hr => ?_, fun hr => ?_⟩
  · simp at hi
  · simp at hi
  · simp at hr
  · simp at hr

/-! ## Resolving -/

/-- What the references resolved so far keep: a use that a scope lists was resolved to it, and is
none of those to come. -/
structure Resolved (u : CompilationUnit) (s : Scopes) (r : Resolving) (idents : List NodeId) :
    Prop where
  shape : s.SameShape r.scopes
  size : r.resolved.size = u.nodes.size
  listed : ∀ {id : ScopeId} {name : String} {ident : NodeId}, ident ∈ r.scopes.usesOf id name →
    ident ∉ idents ∧ u.nodes.identifier? ident = some name ∧
      ∃ e, r.resolved[ident]? = some (some e) ∧ e.scope = id

namespace SameUses

theorem markPassage (s : Scopes) (inner : Option ScopeId) (outer : ScopeId) (name : String) :
    SameUses s (markPassage s inner outer name) := by
  unfold Binding.markPassage
  generalize ((s.walk inner).takeWhile (· ≠ outer)).filter _ = ids
  induction ids generalizing s with
  | nil => exact .refl s
  | cons id ids ih =>
    have h : SameUses s (s.markPropagates id name) :=
      .update s id ⟨fun _ => rfl, fun _ => rfl, fun _ => rfl⟩ fun _ => rfl
    exact h.trans (ih _)

end SameUses

theorem declares_of_lookup? {id : Option ScopeId} {name : String} {target : ScopeId}
    (h : s.lookup? id name = some target) : (s.declaration? (some target) name).isSome := by
  have hd := List.find?_some h
  rwa [declares_eq] at hd

theorem declaration?_addReference (id j : Option ScopeId) (name other : String) (ident : NodeId) :
    (s.addReference id name ident).declaration? j other = s.declaration? j other :=
  declaration?_update (fun c => by unfold Scope.addReference; split <;> rfl) id j

theorem kind?_addReference (id j : Option ScopeId) (name : String) (ident : NodeId) :
    (s.addReference id name ident).kind? j = s.kind? j :=
  view_update (f := (·.addReference name ident)) (·.kind)
    (fun c => by unfold Scope.addReference; split <;> rfl) id j

theorem kind?_modify (id j : Option ScopeId) (name : String) (f : Declaration → Declaration) :
    (s.modify id name f).kind? j = s.kind? j :=
  view_update (f := (·.modify name f)) (·.kind) (fun _ => rfl) id j

theorem hasPropagated_modify (id j : Option ScopeId) (name other : String)
    (f : Declaration → Declaration) :
    (s.modify id name f).hasPropagated j other = s.hasPropagated j other := by
  unfold hasPropagated Scopes.modify
  rw [view_update (f := (·.modify name f)) (fun c => decide (other ∈ c.propagates)) fun _ => rfl]

theorem hasPropagated_addReference (id j : Option ScopeId) (name other : String) (ident : NodeId) :
    (s.addReference id name ident).hasPropagated j other = s.hasPropagated j other := by
  unfold hasPropagated Scopes.addReference
  rw [view_update (f := (·.addReference name ident)) (fun c => decide (other ∈ c.propagates))
    fun c => by unfold Scope.addReference; split <;> rfl]

theorem hasPropagated_markPropagates {id j : Option ScopeId} {name other : String} :
    (s.markPropagates id name).hasPropagated j other = true ↔
      s.hasPropagated j other = true ∨ (s.get? j).isSome = true ∧ j = id ∧ other = name := by
  have hmark (c : Scope) : other ∈ (c.propagate name).propagates ↔
      other ∈ c.propagates ∨ other = name := mem_appendNew
  unfold hasPropagated markPropagates
  rw [get?_update]
  cases hc : s.get? j with
  | none => simp
  | some c =>
    split
    · next hj => simp [hmark, hj]
    · next hj => simp [Ne.symm hj]

theorem isSome_get?_markPropagates (id j : Option ScopeId) (name : String) :
    ((s.markPropagates id name).get? j).isSome = (s.get? j).isSome := by
  rw [markPropagates, get?_update]
  split <;> simp

/-- Marks of one name at several scopes. -/
theorem hasPropagated_marks {ids : List ScopeId} {y : ScopeId} {name other : String} :
    (ids.foldl (fun s (id : ScopeId) => s.markPropagates id name) s).hasPropagated (some y) other =
        true ↔
      s.hasPropagated (some y) other = true ∨
        (s.get? (some y)).isSome = true ∧ y ∈ ids ∧ other = name := by
  induction ids generalizing s with
  | nil => simp
  | cons id ids ih =>
    rw [List.foldl_cons, ih, hasPropagated_markPropagates, isSome_get?_markPropagates,
      List.mem_cons, Option.some.injEq, or_assoc, ← and_or_left, ← or_and_right]

/-- Marks of several names at one scope. -/
theorem hasPropagated_markAll {names : List String} {id : Option ScopeId} {y : ScopeId}
    {other : String} :
    (names.foldl (fun s name => s.markPropagates id name) s).hasPropagated (some y) other = true ↔
      s.hasPropagated (some y) other = true ∨
        (s.get? (some y)).isSome = true ∧ id = some y ∧ other ∈ names := by
  induction names generalizing s with
  | nil => simp
  | cons name names ih =>
    rw [List.foldl_cons, ih, hasPropagated_markPropagates, isSome_get?_markPropagates,
      List.mem_cons, @eq_comm _ id, or_assoc, ← and_or_left, ← and_or_left]

theorem hasPropagated_markPassage {inner : Option ScopeId} {outer y : ScopeId}
    {name other : String} :
    (markPassage s inner outer name).hasPropagated (some y) other = true ↔
      s.hasPropagated (some y) other = true ∨ other = name ∧
        y ∈ (s.walk inner).takeWhile (· ≠ outer) ∧ s.kind? (some y) = some .hoist := by
  unfold markPassage
  rw [hasPropagated_marks, List.mem_filter, decide_eq_true_eq]
  refine or_congr_right ⟨fun h => ⟨h.2.2, h.2.1⟩, fun ⟨hname, h⟩ => ⟨?_, h, hname⟩⟩
  obtain ⟨c, hc, -⟩ := Option.map_eq_some_iff.1 h.2
  rw [hc, Option.isSome_some]

/-- A hoisting scope between the scope `inner` of a reference and that of the binding, `outer`. If
the two have one nearest hoisting scope, no such scope counts. -/
def LiesBetween (s : Scopes) (inner : Option ScopeId) (outer y : ScopeId) : Prop :=
  s.closestHoist? inner ≠ s.closestHoist? (some outer) ∧
    y ∈ (s.walk inner).takeWhile (· ≠ outer) ∧ s.kind? (some y) = some .hoist

/-- A reference marks the hoisting scopes between its scope and the one of the binding. -/
theorem hasPropagated_passage {inner : Option ScopeId} {target y : ScopeId} {ident : NodeId}
    {name other : String} {t : Scopes} (ht : t = s.addReference (some target) name ident) :
    (if t.closestHoist? inner ≠ t.closestHoist? (some target) then
        markPassage (t.modify (some target) name fun d => { d with captured := true }) inner target
          name
      else t).hasPropagated (some y) other = true ↔
      s.hasPropagated (some y) other = true ∨ other = name ∧ LiesBetween s inner target y := by
  subst ht
  have hshape : s.SameShape (s.addReference (some target) name ident) :=
    .update _ _ (.addReference name ident)
  have hold : (s.addReference (some target) name ident).hasPropagated (some y) other =
      s.hasPropagated (some y) other := hasPropagated_addReference _ _ _ _ _
  have hclosest (id : Option ScopeId) :
      (s.addReference (some target) name ident).closestHoist? id = s.closestHoist? id :=
    closestHoist?_congr (fun _ => hshape.parent? _) (fun id : ScopeId =>
      kind?_addReference (s := s) (some target) id name ident) id
  rw [hclosest, hclosest]
  split
  · next hpasses =>
    have hnote : (s.addReference (some target) name ident).SameShape
        ((s.addReference (some target) name ident).modify (some target) name
          fun d => { d with captured := true }) :=
      .update _ _ ⟨fun _ => rfl, fun _ => rfl, fun _ => rfl⟩
    rw [hasPropagated_markPassage, hasPropagated_modify, hold, kind?_modify, kind?_addReference,
      walk, walkUp_congr (fun _ => hnote.parent? _), walkUp_congr (fun _ => hshape.parent? _)]
    exact or_congr_right (and_congr_right fun _ => (and_iff_right hpasses).symm)
  · next hsame =>
    rw [hold]
    exact (or_iff_left fun h => hsame h.2.1).symm

/-- What resolving a reference that is found does. The hoisting scopes that it passes get the mark of
the name. -/
structure Resolves (u : CompilationUnit) (b : Build) (r r' : Resolving) (ident : NodeId)
    (name : String) (e : Resolution) : Prop where
  named : u.nodes.identifier? ident = some name
  found : r.scopes.lookup? b.nodeScopes[ident]? name = some e.scope
  declared : ∃ d, r.scopes.declaration? (some e.scope) name = some d ∧ e.declaration = d.node
  uses : SameUses (r.scopes.addReference (some e.scope) name ident) r'.scopes
  marks : ∀ (y : ScopeId) (other : String), r'.scopes.hasPropagated (some y) other = true ↔
    r.scopes.hasPropagated (some y) other = true ∨
      other = name ∧ LiesBetween r.scopes b.nodeScopes[ident]? e.scope y
  resolved : r'.resolved = r.resolved.setIfInBounds ident (some e)
  writable : ident ∈ b.writes →
    ∀ d, r.scopes.declaration? (some e.scope) name = some d → d.kind ≠ .const

theorem Resolves.marked {b : Build} {r r' : Resolving} {ident : NodeId} {name : String}
    {e : Resolution} (h : Resolves u b r r' ident name e) :
    r.scopes.closestHoist? b.nodeScopes[ident]? = r.scopes.closestHoist? (some e.scope) ∨
      ∀ y ∈ (r.scopes.walk b.nodeScopes[ident]?).takeWhile (· ≠ e.scope),
        r.scopes.kind? (some y) = some .hoist → r'.scopes.hasPropagated (some y) name = true :=
  or_iff_not_imp_left.2 fun hne y hy hk => (h.marks y name).2 (.inr ⟨rfl, hne, hy, hk⟩)

/-- What resolving a reference does, unless it fails. -/
theorem resolveReference_cases {b : Build} {r r' : Resolving} {ident : NodeId}
    (h : resolveReference u b r ident = .ok r') :
    (r' = r ∧ ∀ name, u.nodes.identifier? ident = some name →
        r.scopes.lookup? b.nodeScopes[ident]? name = none) ∨
      ∃ name e, Resolves u b r r' ident name e := by
  unfold resolveReference at h
  split at h
  · next start stop name parent hn =>
    have hname : u.nodes.identifier? ident = some name := by
      rw [Nodes.identifier?, Nodes.form?, hn]
      rfl
    extract_lets inner at h
    split at h
    · next hlookup =>
      split at h
      · cases h
      · cases h
        refine .inl ⟨rfl, fun other hother => ?_⟩
        cases hname.symm.trans hother
        exact hlookup
    · next target htarget =>
      right
      have hdecl := declares_of_lookup? htarget
      extract_lets t captured note passed typed at h
      have hpassed : SameUses t passed := by
        dsimp only [passed]
        split
        · exact (SameUses.modify _ _ _ _).trans (.markPassage _ _ _ _)
        · exact .refl t
      have htyped : SameUses passed typed := by
        dsimp only [typed]
        split
        · exact .modify _ _ _ _
        · exact .refl passed
      have hmarks (y : ScopeId) (other : String) :
          typed.hasPropagated (some y) other = true ↔
            r.scopes.hasPropagated (some y) other = true ∨
              other = name ∧ LiesBetween r.scopes inner target y := by
        have hadded : typed.hasPropagated (some y) other = passed.hasPropagated (some y) other := by
          dsimp only [typed]
          split
          · exact hasPropagated_modify _ _ _ _ _
          · rfl
        rw [hadded]
        exact hasPropagated_passage rfl
      split at h
      · next hnone =>
        rw [declaration?_addReference] at hnone
        exact absurd hnone (Option.isSome_iff_ne_none.1 hdecl)
      · next d hd =>
        rw [declaration?_addReference] at hd
        extract_lets early at h
        split at h
        · cases h
        · split at h
          · cases h
          · next hnot =>
            cases h
            refine ⟨name, _, hname, htarget, ⟨d, hd, rfl⟩, hpassed.trans htyped, hmarks, rfl,
              fun hmem d' hd' hconst => hnot ?_⟩
            cases hd.symm.trans hd'
            exact Bool.and_eq_true_iff.2 ⟨Array.contains_iff_mem.2 hmem, decide_eq_true hconst⟩
  · next hnot =>
    cases h
    refine .inl ⟨rfl, fun name hname => ?_⟩
    unfold Nodes.identifier? at hname
    split at hname
    · next hform =>
      obtain ⟨⟨start, stop, form, parent⟩, hn, rfl⟩ := Option.map_eq_some_iff.1 hform
      exact absurd hn (hnot _ _ _ _)
    · cases hname

theorem resolved_resolveAll {b : Build} {r r' : Resolving} {idents : List NodeId}
    (hr : Resolved u s r idents) (hnodup : idents.Nodup)
    (h : resolveAll u b r idents = .ok r') : Resolved u s r' [] := by
  induction idents generalizing r with
  | nil =>
    cases h
    exact hr
  | cons ident idents ih =>
    obtain ⟨r₁, h₁, h⟩ := bind_eq_ok.1 h
    obtain ⟨hfresh, hrest⟩ := List.nodup_cons.1 hnodup
    refine ih ?_ hrest h
    rcases resolveReference_cases h₁ with ⟨rfl, -⟩ | ⟨name, e, hname, -, -, hsame, -, hres⟩
    · exact ⟨hr.shape, hr.size, fun hx => (hr.listed hx).imp_left (List.not_mem_of_not_mem_cons)⟩
    · have hident : ident < r.resolved.size := by
        rw [hr.size]
        exact Nodes.lt_size_of_identifier? hname
      refine ⟨(hr.shape.trans (.update _ _ (.addReference name ident))).trans hsame.shape, ?_,
        fun {id other x} hx => ?_⟩
      · rw [hres, Array.size_setIfInBounds, hr.size]
      · rw [hsame.usesOf] at hx
        rw [hres]
        rcases mem_usesOf_addReference hx with hx | ⟨rfl, hid, rfl⟩
        · obtain ⟨hmem, hn, e', he', hid⟩ := hr.listed hx
          obtain ⟨hne, hmem⟩ := not_or.1 (mt List.mem_cons.2 hmem)
          exact ⟨hmem, hn, e', by rw [Array.getElem?_setIfInBounds_ne (Ne.symm hne), he'], hid⟩
        · exact ⟨hfresh, hname, e, Array.getElem?_setIfInBounds_self_of_lt hident,
            (Option.some.inj hid).symm⟩

end Binding

/-! ## Bound programs -/

namespace Bound

/-- The scopes and the nodes of a unit fit together. -/
structure WellScoped (b : Bound) : Prop where
  wellFormed : b.scopes.WellFormed
  nodeScope_lt : ∀ {i : NodeId} {s : ScopeId}, b.nodeScope? i = some s → s < b.scopes.size
  listed : ∀ {id : ScopeId} {name : String} {ident : NodeId}, ident ∈ b.scopes.usesOf id name →
    b.nodes.identifier? ident = some name ∧ ∃ r, b.resolution? ident = some r ∧ r.scope = id

/-- Each loop over a collection whose head is a `let` or `const` has a scope of its own. -/
def HeadersOpen (b : Bound) : Prop :=
  ∀ {loop left right body : NodeId} {each : Iteration},
    b.nodes.form? loop = some (.forEach each left right body) →
    Binding.isLexical b.unit left = true →
    ∃ h, b.nodeScope? loop = some h ∧ b.scopes.node? h = some loop

end Bound

section Bind

variable {u : CompilationUnit} {root : NodeId} {b : Bound}

theorem bind_unit (h : bind u root = .ok b) : b.unit = u := by
  unfold bind at h
  split at h
  · obtain ⟨s, -, h⟩ := bind_eq_ok.1 h
    obtain ⟨build, -, h⟩ := bind_eq_ok.1 h
    extract_lets listed globals at h
    obtain ⟨r, -, h⟩ := bind_eq_ok.1 h
    cases h
    rfl
  · cases h

theorem bind_wellScoped (h : bind u root = .ok b) : b.WellScoped ∧ b.HeadersOpen := by
  unfold bind at h
  split at h
  · next comments hform =>
    obtain ⟨s, hs, h⟩ := bind_eq_ok.1 h
    obtain ⟨build, hbuild, h⟩ := bind_eq_ok.1 h
    extract_lets listed globals at h
    obtain ⟨r, hr, h⟩ := bind_eq_ok.1 h
    cases h
    obtain ⟨he, hsize⟩ := (entered_environment hs).enterNodes rfl hbuild
    have hglobals : build.scopes.Built globals := .foldl (fun _ _ => .addGlobal _ _ _ _) _ _
    have hinit : Resolved u globals ⟨globals, .replicate u.nodes.size none⟩
        build.references.toList := by
      refine ⟨.refl _, by simp, fun {id name ident} hx => ?_⟩
      rw [usesOf_eq, hglobals.sameLists.listsOf, he.unused] at hx
      cases hx
    have hres := resolved_resolveAll hinit he.nodup hr
    refine ⟨⟨(hglobals.wellFormed he.wellFormed).of_sameShape hres.shape, fun {i s} hi => ?_,
      fun {id name ident} hx => ?_⟩, fun {loop left right body each} hf hlex => ?_⟩
    · rw [hres.shape.size]
      exact Nat.lt_of_lt_of_le (he.nodeScope_lt hi) hglobals.size_le
    · obtain ⟨-, hname, e, hident, hid⟩ := hres.listed hx
      exact ⟨hname, e, by simp [Bound.resolution?, hident], hid⟩
    · have hloop : loop < build.nodeScopes.size := by
        have hlt : loop < u.nodes.size := Nodes.lt_size_of_form? hf
        simpa [hsize, Nodes.size] using hlt
      obtain ⟨header, hscope, hnode⟩ := he.header hloop hf hlex
      refine ⟨header, hscope, ?_⟩
      rw [hres.shape.node?, hglobals.node?_eq (he.nodeScope_lt hscope), hnode]
  · cases h

/-- What a bound program lists as references are references. -/
theorem isReference_of_bind (h : bind u root = .ok b) {r : NodeId} (hr : r ∈ b.references) :
    isReference u.nodes r = true := by
  unfold bind at h
  split at h
  · obtain ⟨s, hs, h⟩ := bind_eq_ok.1 h
    obtain ⟨build, hbuild, h⟩ := bind_eq_ok.1 h
    extract_lets listed globals at h
    obtain ⟨r, -, h⟩ := bind_eq_ok.1 h
    cases h
    exact ((entered_environment hs).enterNodes rfl hbuild).1.isReference hr
  · cases h

end Bind

end LoopClosure
