import LoopClosure.Proofs.Binding.Fresh
import LoopClosure.Proofs.Lowering.Detection
import LoopClosure.Proofs.Lowering.Nest

/-!
# How wrapping fails

A failure is `Diagnosed` if it is one of the two loop diagnostics. Wrapping the loops of a bound unit
fails in no other way (`wrapLoops_diagnosed`), since every body has a scope (`Bound.Total`) and the
scope that it gets takes any parameter. What the unit does not know by name the wraps do not make
known (`Bound.KnowsNoMore`).
-/

namespace LoopClosure

open Syntax Scopes

/-! ## Failures -/

/-- One of the two diagnostics about loops. -/
def Failure.IsLoopDiagnostic : Failure → Prop
  | .defect d => d.defect? = some .unsupportedLoopHeaderCapture ∨
      d.defect? = some .loopClosureNotTransformable
  | .internal _ => False

/-- A computation that fails at most with a loop diagnostic. -/
def Diagnosed {α : Type} (x : Except Failure α) : Prop :=
  ∀ e, x = .error e → e.IsLoopDiagnostic

namespace Diagnosed

variable {α β : Type}

theorem ok (a : α) : Diagnosed (.ok a) := fun _ h => (nomatch h)

theorem of_exists {x : Except Failure α} (h : ∃ a, x = .ok a) : Diagnosed x := by
  obtain ⟨a, rfl⟩ := h
  exact ok a

theorem bind {x : Except Failure α} {f : α → Except Failure β} (hx : Diagnosed x)
    (hf : ∀ a, x = .ok a → Diagnosed (f a)) : Diagnosed (x >>= f) := by
  cases x with
  | error e => exact fun e' h => hx e' (by cases h; rfl)
  | ok a => exact hf a rfl

end Diagnosed

theorem CompilationUnit.isLoopDiagnostic_defect (u : CompilationUnit) {d : Defect} {start length : Nat}
    {arg : String} (h : d = .unsupportedLoopHeaderCapture ∨ d = .loopClosureNotTransformable) :
    (u.defect d start length arg).IsLoopDiagnostic := by
  rcases h with rfl | rfl
  · exact .inl rfl
  · exact .inr rfl

theorem CompilationUnit.isLoopDiagnostic_defectAt (u : CompilationUnit) {d : Defect} {id : NodeId}
    {arg : String} (h : d = .unsupportedLoopHeaderCapture ∨ d = .loopClosureNotTransformable) :
    (u.defectAt d id arg).IsLoopDiagnostic := by
  unfold CompilationUnit.defectAt
  split <;> exact u.isLoopDiagnostic_defect h

namespace Bound

variable {b b' : Bound} {name : String}

/-! ## One wrap -/

/-- Every node has a scope. -/
def Total (b : Bound) : Prop := ∀ id < b.nodes.size, ∃ scope, b.nodeScope? id = some scope

theorem Extends.total (h : b.Extends b') (ht : b.Total) : b'.Total := by
  intro id hid
  obtain ⟨x, hx⟩ := ht id (h.nodes ▸ hid)
  obtain ⟨y, hy, -⟩ := h.nodeScope hx
  exact ⟨y, hy⟩

theorem exists_addParams {header : Option ScopeId} {scope : ScopeId} {body : NodeId}
    {names : List String} (hb : b.WellScoped) (hk : b.scopes.kind? scope = some .hoist) :
    ∃ r, addParams header scope body b names = .ok r := by
  induction names generalizing b with
  | nil => exact ⟨_, rfl⟩
  | cons name names ih =>
    unfold addParams
    split
    · exact ih hb hk
    · next hnot =>
      have hn := not_declares_iff.1 hnot
      obtain ⟨hw, hstep, hd⟩ := declareParam_spec header body hb hk hn
      obtain ⟨hw', hstep'⟩ := retargetHeader_spec header body hw hd
      obtain ⟨⟨b', params⟩, hr⟩ := ih hw' (((hstep.trans hstep').kind? _).trans hk)
      rw [declare_param hk hn]
      exact ⟨_, bind_eq_ok.2 ⟨_, hr, rfl⟩⟩

/-- The body of a node that has a scope can be wrapped. -/
theorem exists_wrap (hb : b.WellScoped) (ht : b.Total) {loop body : NodeId}
    (hbody : body < b.nodes.size) : ∃ r, b.wrap loop body = .ok r := by
  obtain ⟨outer, houter⟩ := ht body hbody
  unfold wrap
  rw [houter]
  extract_lets blockBody header
  have hopen : (b.openBody body blockBody outer).1.WellScoped ∧ _ ∧
      (b.openBody body blockBody outer).1.scopes.kind? (b.openBody body blockBody outer).2 =
        some .hoist ∧ _ := openBody_spec hb blockBody (hb.nodeScope_lt houter)
  obtain ⟨hw, -, hk, -⟩ := hopen
  obtain ⟨⟨b', params⟩, hr⟩ : ∃ r, addParams header _ body (b.openBody body blockBody outer).1
    ((b.openBody body blockBody outer).1.nodes.headerNames loop) = .ok r := exists_addParams hw hk
  exact ⟨_, bind_eq_ok.2 ⟨_, hr, rfl⟩⟩

theorem wrapHazard_diagnosed (hb : b.WellScoped) (ht : b.Total) (hns : b.nodes.WellFormed)
    (wraps : Array Wrap) (h : Hazard) : Diagnosed (b.wrapHazard wraps h) := by
  unfold wrapHazard
  extract_lets untransformable
  have huntransformable : Diagnosed (.error untransformable : Except Failure (Bound × Array Wrap)) :=
    fun e he => by
      cases he
      exact b.unit.isLoopDiagnostic_defectAt (.inr rfl)
  split
  · exact huntransformable
  · exact .ok _
  · next body _ hbody =>
    split
    · intro e he
      cases he
      unfold headerCapture
      split
      · exact b.unit.isLoopDiagnostic_defectAt (.inl rfl)
      · exact b.unit.isLoopDiagnostic_defect (.inl rfl)
    · split
      · exact huntransformable
      · split
        · exact .ok _
        · obtain ⟨form, hform, hloop⟩ := Option.bind_eq_some_iff.1 hbody
          obtain ⟨n, hn⟩ := Nodes.exists_get?_of_parent?_eq_some
            (Nodes.parent?_of_form? hns hform (Form.mem_children_of_loopBody? hloop))
          have hlt : body < b.nodes.size := (Array.getElem?_eq_some_iff.1 hn).1
          exact (Diagnosed.of_exists (exists_wrap hb ht hlt)).bind fun _ _ => .ok _

theorem wrapAll_diagnosed {wraps : Array Wrap} {idents : List NodeId} (hb : b.WellScoped)
    (ht : b.Total) (hns : b.nodes.WellFormed) : Diagnosed (wrapAll b wraps idents) := by
  induction idents generalizing b wraps with
  | nil => exact .ok _
  | cons ident idents ih =>
    unfold wrapAll
    split
    · exact ih hb ht hns
    · refine (wrapHazard_diagnosed hb ht hns wraps _).bind fun ⟨b₁, wraps₁⟩ hstep => ?_
      obtain ⟨hb₁, hext⟩ := wrapHazard_extends hb hstep
      exact ih hb₁ (hext.total ht) (hext.nodes.symm ▸ hns)

theorem wrapLoops_diagnosed (hb : b.WellScoped) (ht : b.Total) (hns : b.nodes.WellFormed) :
    Diagnosed b.wrapLoops :=
  wrapAll_diagnosed hb ht hns

/-! ## Names that are not known -/

theorem reparent_avoids {s : Scopes} (h : s.Avoids name) (child : ScopeId) (parent : Option ScopeId) :
    (s.reparent child parent).Avoids name := by
  unfold Scopes.reparent
  extract_lets old s₁ s₂
  split
  · exact h
  · have h₁ : s₁.Avoids name := h.update old fun c hc => ⟨hc.propagates, hc.kind⟩
    have h₂ : s₂.Avoids name := h₁.update child fun c hc => ⟨hc.propagates, hc.kind⟩
    exact h₂.update parent fun c hc => ⟨hc.propagates, hc.kind⟩

/-- The wraps add no identifier, and their scopes know no name more. -/
structure KnowsNoMore (b b' : Bound) : Prop where
  identifiers : b'.identifiers = b.identifiers
  avoids : ∀ {name : String}, b.scopes.Avoids name → b'.scopes.Avoids name

namespace KnowsNoMore

theorem refl (b : Bound) : KnowsNoMore b b := ⟨rfl, id⟩

theorem trans {b'' : Bound} (h : KnowsNoMore b b') (h' : KnowsNoMore b' b'') : KnowsNoMore b b'' :=
  ⟨h'.identifiers.trans h.identifiers, fun ha => h'.avoids (h.avoids ha)⟩

theorem openBody (b : Bound) (body : NodeId) (blockBody : Bool) (scope : ScopeId) :
    KnowsNoMore b (b.openBody body blockBody scope).1 := by
  cases blockBody with
  | true =>
    refine ⟨rfl, fun {name} h => ?_⟩
    have hkind : (b.scopes.setKind scope .hoist).Avoids name :=
      h.update _ fun c hc => ⟨hc.propagates, hc.kind⟩
    exact Avoids.update (f := fun c => { c with flags := c.flags.union { loopWrapper := true } })
      hkind (some scope) fun c hc => ⟨hc.propagates, hc.kind⟩
  | false =>
    refine ⟨rfl, fun {name} h => ?_⟩
    have hmoved (children : List ScopeId) (t : Scopes) (ht : t.Avoids name) :
        (children.foldl (fun t c => t.reparent c (some b.scopes.size)) t).Avoids name := by
      induction children generalizing t with
      | nil => exact ht
      | cons c children ih => exact ih _ (reparent_avoids ht c _)
    have halloc : (b.scopes.alloc .hoist body scope { loopWrapper := true }).1.Avoids name := h.alloc
    exact hmoved _ _ halloc

theorem retargetHeader (b : Bound) (header : Option ScopeId) (scope : ScopeId) (body : NodeId)
    (name : String) : KnowsNoMore b (b.retargetHeader header scope body name) := by
  have huses (idents : List NodeId) (b : Bound) : KnowsNoMore b (idents.foldl
      (fun b ident =>
        if b.nodes.contains body ident then
          (b.retarget ident scope).withScopes (b.scopes.addReference scope name ident)
        else b.withScopes (b.scopes.addReference header name ident)) b) := by
    refine foldl_rel refl trans fun t ident _ _ => ?_
    split
    · exact ⟨rfl, fun h => h.update scope fun c hc => hc.addReference ident⟩
    · exact ⟨rfl, fun h => h.update header fun c hc => hc.addReference ident⟩
  have htake : KnowsNoMore b (b.withScopes (b.scopes.takeReferences header name).1) :=
    ⟨rfl, fun h => h.update header fun c hc => ⟨hc.propagates, hc.kind⟩⟩
  exact htake.trans (huses _ _)

theorem addParams {header : Option ScopeId} {scope : ScopeId} {body : NodeId}
    {names params : List String} (h : Bound.addParams header scope body b names = .ok (b', params)) :
    KnowsNoMore b b' := by
  induction names generalizing b b' params with
  | nil =>
    cases h
    exact .refl _
  | cons name names ih =>
    unfold Bound.addParams at h
    split at h
    · exact ih h
    · split at h
      · cases h
      · next s target hd =>
        obtain ⟨⟨b₁, params₁⟩, hrest, h⟩ := bind_eq_ok.1 h
        cases h
        have hdeclared : KnowsNoMore b (b.withScopes s) := by
          refine ⟨rfl, fun ha => ?_⟩
          rcases Scopes.declare_cases hd with rfl | ⟨j, c, -, -, -, rfl⟩
          · exact ha
          · exact ha.update _ fun c hc => hc.append fun _ => rfl
        exact (hdeclared.trans (retargetHeader _ header scope body name)).trans (ih hrest)

theorem wrap {loop body : NodeId} {w : Wrap} (h : b.wrap loop body = .ok (b', w)) :
    KnowsNoMore b b' := by
  unfold Bound.wrap at h
  split at h
  · cases h
  · obtain ⟨⟨b₂, params⟩, hparams, h⟩ := bind_eq_ok.1 h
    cases h
    exact (openBody _ _ _ _).trans (addParams hparams)

theorem wrapAll {wraps wraps' : Array Wrap} {idents : List NodeId}
    (h : Bound.wrapAll b wraps idents = .ok (b', wraps')) : KnowsNoMore b b' := by
  induction idents generalizing b wraps with
  | nil =>
    cases h
    exact .refl _
  | cons ident idents ih =>
    unfold Bound.wrapAll at h
    split at h
    · exact ih h
    · obtain ⟨⟨b₁, wraps₁⟩, hstep, hrest⟩ := bind_eq_ok.1 h
      obtain ⟨-, -, ⟨rfl, -⟩ | ⟨body, w, -, -, -, hwrap, -⟩⟩ := wrapHazard_cases hstep
      · exact ih hrest
      · exact (wrap hwrap).trans (ih hrest)

end KnowsNoMore

end Bound

/-- Every node of a bound unit has a scope. -/
theorem bind_total {u : CompilationUnit} {root : NodeId} {b : Bound} (h : bind u root = .ok b) :
    b.Total := by
  unfold bind at h
  split at h
  · obtain ⟨s, hs, h⟩ := bind_eq_ok.1 h
    obtain ⟨build, hbuild, h⟩ := bind_eq_ok.1 h
    extract_lets listed globals at h
    obtain ⟨r, -, h⟩ := bind_eq_ok.1 h
    cases h
    have hsize : build.nodeScopes.size = u.nodes.size := by
      simpa [Nodes.size] using ((Binding.entered_environment hs).enterNodes rfl hbuild).2
    intro id hid
    have hlt : id < build.nodeScopes.size := hsize ▸ hid
    exact ⟨build.nodeScopes[id], Array.getElem?_eq_getElem hlt⟩
  · cases h

end LoopClosure
