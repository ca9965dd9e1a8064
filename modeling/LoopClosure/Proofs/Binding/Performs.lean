import LoopClosure.Proofs.Binding.Sites

/-!
# Declaring the sites of a node

Entering a node declares its sites one after the other, those where it stands and those of its own
scope, and stops at the first that is refused (`enterScopes_declares`). This is told of a run that
fails as well as of one that succeeds.
-/

namespace LoopClosure.Binding

open Syntax Scopes

/-- Declaring sites at the scope `x` gives the result: a table, or the refusal of the first site that
cannot be declared, or of a `var` where there must be none. -/
inductive Performs (u : CompilationUnit) (x : ScopeId) :
    Scopes → List Site → Except Failure Scopes → Prop
  | done (s : Scopes) : Performs u x s [] (.ok s)
  | quiet {s t : Scopes} {sites : List Site} {r : Except Failure Scopes} (h : Step u .none s t)
    (h' : Performs u x t sites r) : Performs u x s sites r
  | declare {s t : Scopes} {target : Option ScopeId} {fromPos : Option Nat} {a : Site}
    {sites : List Site} {r : Except Failure Scopes}
    (hd : s.declare x a.name a.kind a.ident fromPos = .ok (t, target))
    (h : Performs u x t sites r) : Performs u x s (a :: sites) r
  | refuse {s : Scopes} {fromPos : Option Nat} {a : Site} {sites : List Site} {d : Duplicate}
    (hd : s.declare x a.name a.kind a.ident fromPos = .error d) :
    Performs u x s (a :: sites) (.error (u.defectAt .duplicateConst a.ident d.name))
  | disallow {s : Scopes} {sites : List Site} (hv : u.options.disallowVars = true)
    (declarator : NodeId) (names : String) :
    Performs u x s sites (.error (u.defectAt .disallowedVar declarator names))

variable {α : Type} {u : CompilationUnit} {x : ScopeId} {s t : Scopes} {as bs : List Site}
  {r : Except Failure Scopes}

namespace Performs

theorem steps (h : Steps u .none s t) (h' : Performs u x t as r) : Performs u x s as r := by
  induction h using Relation.ReflTransGen.head_induction_on with
  | refl => exact h'
  | head hstep _ ih => exact .quiet hstep ih

theorem of_steps (h : Steps u .none s t) : Performs u x s [] (.ok t) := .steps h (.done t)

theorem append (h : Performs u x s as (.ok t)) (h' : Performs u x t bs r) :
    Performs u x s (as ++ bs) r := by
  generalize hr : (Except.ok t : Except Failure Scopes) = r' at h
  induction h with
  | done => cases hr; exact h'
  | quiet hstep _ ih => exact .quiet hstep (ih hr)
  | declare hd _ ih => exact .declare hd (ih hr)
  | refuse => cases hr
  | disallow => cases hr

theorem append_error {e : Failure} (h : Performs u x s as (.error e)) (bs : List Site) :
    Performs u x s (as ++ bs) (.error e) := by
  generalize hr : (Except.error e : Except Failure Scopes) = r' at h
  induction h with
  | done => cases hr
  | quiet hstep _ ih => exact .quiet hstep (ih hr)
  | declare hd _ ih => exact .declare hd (ih hr)
  | refuse hd => exact .refuse hd
  | disallow hv => exact .disallow hv _ _

/-- Two computations one after the other declare the sites of both. -/
theorem bind {c : Except Failure α} {f : α → Except Failure Scopes} {g : α → Scopes}
    (h : Performs u x s as (c.map g)) (h' : ∀ a, Performs u x (g a) bs (f a)) :
    Performs u x s (as ++ bs) (c >>= f) := by
  cases c with
  | error e => exact h.append_error bs
  | ok a => exact h.append (h' a)

end Performs

/-! ## Declaring -/

theorem declareAt_performs (place : NodeId) (name : String) (kind : BindingKind) (ident : NodeId)
    (fromPos : Option Nat) (s : Scopes) :
    Performs u x s [{ kind, name, ident, place }]
      ((declareAt u s x name kind ident fromPos).map Prod.fst) := by
  unfold declareAt
  cases hd : s.declare x name kind ident fromPos with
  | ok r => exact .declare hd (.done _)
  | error d => exact .refuse hd

theorem sitesOf_cons (place : NodeId) (kind : BindingKind) (ident : NodeId) (idents : List NodeId) :
    sitesOf u place kind (ident :: idents) =
      sitesOf u place kind [ident] ++ sitesOf u place kind idents := by
  unfold sitesOf
  rw [← List.filterMap_append, List.singleton_append]

theorem declareAll_performs (place : NodeId) (kind : BindingKind) (fromPos : Option Nat)
    (type : Option ValueType) (idents : List NodeId) (s : Scopes) :
    Performs u x s (sitesOf u place kind idents)
      (declareAll u x kind fromPos type s idents) := by
  induction idents generalizing s with
  | nil => exact .done s
  | cons ident idents ih =>
    unfold declareAll
    cases hn : u.nodes.identifier? ident with
    | none => simpa [sitesOf, hn] using ih s
    | some name =>
      have hone : sitesOf u place kind [ident] = [{ kind, name, ident, place }] := by
        simp [sitesOf, hn]
      rw [sitesOf_cons, hone]
      refine (declareAt_performs place name kind ident fromPos s).bind fun r => ?_
      refine .steps ?_ (ih _)
      split
      · exact addType_step _ _ _ _
      · exact .refl

theorem declareDeclarators_performs (place : NodeId) (keyword : VarKeyword) (ds : List NodeId)
    (s : Scopes) :
    Performs u x s (ds.flatMap (declaratorSites u place (bindingKind keyword)))
      (declareDeclarators u x keyword s ds) := by
  induction ds generalizing s with
  | nil => exact .done s
  | cons d ds ih =>
    rw [List.flatMap_cons]
    refine Performs.bind (g := id) ?_ ih
    rw [Except.map_id, id_eq]
    unfold declareDeclarator declaratorSites Nodes.form?
    cases u.nodes.get? d with
    | none => exact .done s
    | some n =>
      obtain ⟨start, stop, form, parent⟩ := n
      cases form with
      | declarator target init =>
        by_cases hv : (decide (keyword = .var) && u.options.disallowVars) = true
        · simp only [hv, if_true]
          exact .disallow (Bool.and_eq_true_iff.1 hv).2 _ _
        · simp only [hv, Bool.false_eq_true, if_false]
          exact declareAll_performs _ _ _ _ _ _
      | _ => exact .done s

/-! ## Entering a node -/

/-- Entering the node `id`, which stands in `scope`, declares its outer sites, opens its scope if it
has one, and declares its inner sites there. -/
inductive Declares (u : CompilationUnit) (id place : NodeId) (scope : ScopeId) (form : Form NodeId)
    (s : Scopes) : Except Failure (Scopes × ScopeId) → Prop
  | same {r : Except Failure Scopes} (hs : opensScope u id form = false)
    (hin : innerSites u id form = []) (h : Performs u scope s (outerSites u place form) r) :
    Declares u id place scope form s (r.map (·, scope))
  | own {m : Scopes} {kind : ScopeKind} {flags : Flags} {r : Except Failure Scopes}
    (hs : opensScope u id form = true) (ho : Opens form kind flags)
    (h : Performs u scope s (outerSites u place form) (.ok m))
    (h' : Performs u m.size (m.alloc kind id scope flags).1 (innerSites u id form) r) :
    Declares u id place scope form s (r.map (·, m.size))
  | refused {e : Failure} (h : Performs u scope s (outerSites u place form) (.error e)) :
    Declares u id place scope form s (.error e)

variable {id place : NodeId} {scope : ScopeId} {form : Form NodeId}

section Name

variable {name : Option NodeId}

/-- A name that is an identifier is a site. -/
theorem declareName_performs {ident : NodeId} {text : String} (place : NodeId) (kind : BindingKind)
    (hname : (name.bind fun n => (u.nodes.identifier? n).map (n, ·)) = some (ident, text))
    (fromPos : Option Nat) (type : ValueType) (s : Scopes) :
    Performs u x s (sitesOf u place kind name.toList)
      ((declareAt u s x text kind ident fromPos).map fun r => r.1.addType x text type) := by
  obtain ⟨rfl, hident⟩ := identifier?_of_named hname
  have hone : sitesOf u place kind [ident] = [{ kind, name := text, ident, place }] := by
    simp [sitesOf, hident]
  have hp := declareAt_performs (u := u) (x := x) place text kind ident fromPos s
  rw [Option.toList_some, hone]
  cases hd : declareAt u s x text kind ident fromPos with
  | error e =>
    rw [hd] at hp
    exact hp
  | ok r =>
    rw [hd] at hp
    exact hp.append (.of_steps (addType_step _ _ _ _))

theorem sitesOf_nameless (place : NodeId) (kind : BindingKind)
    (hname : (name.bind fun n => (u.nodes.identifier? n).map (n, ·)) = none) :
    sitesOf u place kind name.toList = [] := by
  cases name with
  | none => rfl
  | some n =>
    have hn : u.nodes.identifier? n = none := by simpa using hname
    simp [sitesOf, hn]

end Name

theorem enterFunction_eq (s : Scopes) (id : NodeId) (scope : ScopeId) (params : List NodeId)
    (arrow : Bool) : enterFunction u s id scope params arrow =
      (declareAll u s.size .param none none
        (s.alloc .hoist id scope { function := true, arrow }).1
        (params.flatMap u.nodes.bindingIds)).map (·, s.size) := by
  unfold enterFunction
  simp only [snd_alloc]
  cases declareAll u s.size .param none none
    (s.alloc .hoist id scope { function := true, arrow }).1
    (params.flatMap u.nodes.bindingIds) <;> rfl

/-- A function without a name of its own inside declares its parameters. -/
theorem enterFunction_declares {m : Scopes} {place' : FunctionPlace} {name : Option NodeId}
    {params : List NodeId} {body : NodeId} {traits : FunctionTraits}
    (hplace : place' ≠ .expression)
    (h : Performs u scope s (outerSites u place (.function place' name params body traits)) (.ok m)) :
    Declares u id place scope (.function place' name params body traits) s
      (enterFunction u m id scope params (decide (place' = .arrow))) := by
  rw [enterFunction_eq]
  refine .own rfl .function h ?_
  have hinner : innerSites u id (.function place' name params body traits) =
      sitesOf u id .param (params.flatMap u.nodes.bindingIds) := by
    cases place' with
    | expression => exact absurd rfl hplace
    | _ => rfl
  rw [hinner]
  exact declareAll_performs _ _ _ _ _ _

/-- A node without sites and without a scope. -/
theorem steps_declares (hs : opensScope u id form = false) (hout : outerSites u place form = [])
    (hin : innerSites u id form = []) (h : Steps u .none s t) :
    Declares u id place scope form s (.ok (t, scope)) :=
  .same (r := .ok t) hs hin (hout ▸ .of_steps h)

theorem blockWhen_declares {isOwn : Bool} (hs : opensScope u id form = isOwn)
    (ho : Opens form .block {}) (hout : outerSites u place form = [])
    (hin : innerSites u id form = []) : Declares u id place scope form s
      (.ok (if isOwn then s.alloc .block id scope {} else (s, scope))) := by
  have houter : Performs u scope s (outerSites u place form) (.ok s) := hout ▸ .done s
  cases isOwn with
  | false => exact .same hs hin houter
  | true =>
    refine .own hs ho houter (r := .ok (s.alloc .block id scope {}).1) ?_
    rw [hin]
    exact .done _

section Named

variable (s : Scopes) (id place : NodeId) (scope : ScopeId) (name : Option NodeId)

theorem functionDeclaration_declares (params : List NodeId) (body : NodeId)
    (traits : FunctionTraits) :
    Declares u id place scope (.function .declaration name params body traits) s
      (enterScopes u s id scope (.function .declaration name params body traits)) := by
  unfold enterScopes
  dsimp only
  split
  · next ident text hname =>
    have hp := declareName_performs (x := scope) place .function hname none .function s
    cases hd : declareAt u s scope text .function ident none with
    | error e =>
      rw [hd] at hp
      exact .refused hp
    | ok r =>
      rw [hd] at hp
      exact enterFunction_declares (by simp) hp
  · next hname =>
    refine enterFunction_declares (by simp) ?_
    rw [outerSites, sitesOf_nameless place .function hname]
    exact .done s

/-- The name of a function expression is declared inside, behind the parameters. -/
theorem functionExpression_declares (params : List NodeId) (body : NodeId)
    (traits : FunctionTraits) :
    Declares u id place scope (.function .expression name params body traits) s
      (enterScopes u s id scope (.function .expression name params body traits)) := by
  unfold enterScopes
  dsimp only
  rw [enterFunction_eq]
  have hopens : Opens (.function .expression name params body traits) .hoist
    { function := true, arrow := false } := .function
  have hown {r : Except Failure Scopes} (h : Performs u s.size
      (s.alloc .hoist id scope { function := true, arrow := false }).1
      (sitesOf u id .param (params.flatMap u.nodes.bindingIds) ++
        sitesOf u id .function name.toList) r) :
      Declares u id place scope (.function .expression name params body traits) s
        (r.map (·, s.size)) := .own rfl hopens (.done s) h
  have hparams := declareAll_performs (u := u) (x := s.size) id .param none none
    (params.flatMap u.nodes.bindingIds)
    (s.alloc .hoist id scope { function := true, arrow := false }).1
  cases hd : declareAll u s.size .param none none
    (s.alloc .hoist id scope { function := true, arrow := false }).1
    (params.flatMap u.nodes.bindingIds) with
  | error e =>
    rw [hd] at hparams
    exact hown (hparams.append_error _)
  | ok t =>
    rw [hd] at hparams
    dsimp only [Except.map, ok_bind]
    split
    · next ident text hname =>
      have hp := hown (hparams.append (declareName_performs id .function hname none .function t))
      cases hd' : declareAt u t s.size text .function ident none <;> rw [hd'] at hp <;> exact hp
    · next hname =>
      refine hown (r := .ok t) ?_
      rw [sitesOf_nameless id .function hname, List.append_nil]
      exact hparams

theorem classDeclaration_declares (heritage : Option NodeId) (members : List NodeId) :
    Declares u id place scope (.classBody .declaration name heritage members) s
      (enterScopes u s id scope (.classBody .declaration name heritage members)) := by
  unfold enterScopes
  dsimp only
  have hown {m : Scopes} (h : Performs u scope s (sitesOf u place .let_ name.toList) (.ok m)) :
      Declares u id place scope (.classBody .declaration name heritage members) s
        (.ok (m.alloc .hoist id scope { class_ := true })) :=
    .own (r := .ok _) rfl .classBody h (.done _)
  split
  · next ident text hname =>
    have hp := declareName_performs (x := scope) place .let_ hname
      ((u.nodes.get? ident).map (·.stop)) .class_ s
    cases hd : declareAt u s scope text .let_ ident ((u.nodes.get? ident).map (·.stop)) with
    | error e =>
      rw [hd] at hp
      exact .refused hp
    | ok r =>
      rw [hd] at hp
      exact hown hp
  · next hname =>
    refine hown (m := s) ?_
    rw [sitesOf_nameless place .let_ hname]
    exact .done s

theorem classExpression_declares (heritage : Option NodeId) (members : List NodeId) :
    Declares u id place scope (.classBody .expression name heritage members) s
      (enterScopes u s id scope (.classBody .expression name heritage members)) := by
  unfold enterScopes
  dsimp only [snd_alloc]
  have hown {r : Except Failure Scopes} (h : Performs u s.size
      (s.alloc .hoist id scope { class_ := true }).1 (sitesOf u id .const name.toList) r) :
      Declares u id place scope (.classBody .expression name heritage members) s
        (r.map (·, s.size)) := .own rfl .classBody (.done s) h
  split
  · next ident text hname =>
    have hp := hown (declareName_performs id .const hname none .class_ _)
    cases hd : declareAt u (s.alloc .hoist id scope { class_ := true }).1 s.size text .const
      ident none <;> rw [hd] at hp <;> exact hp
  · next hname =>
    refine hown (r := .ok _) ?_
    rw [sitesOf_nameless id .const hname]
    exact .done _

end Named

theorem catchClause_declares (s : Scopes) (id place : NodeId) (scope : ScopeId)
    (param : Option NodeId) (body : NodeId) :
    Declares u id place scope (.catchClause param body) s
      (enterScopes u s id scope (.catchClause param body)) := by
  unfold enterScopes
  dsimp only [snd_alloc]
  have hparam := declareAll_performs (u := u) (x := s.size) id .caught none (some .error)
    ((param.map u.nodes.bindingIds).getD []) (s.alloc .catches id scope {}).1
  cases hd : declareAll u s.size .caught none (some .error) (s.alloc .catches id scope {}).1
    ((param.map u.nodes.bindingIds).getD []) with
  | error e =>
    rw [hd] at hparam
    exact .own rfl .catchClause (.done s) hparam
  | ok t =>
    rw [hd] at hparam
    have hmarked := hparam.append (.of_steps (markAll_steps (t.closestHoist? scope)
      ((param.map u.nodes.bindingIds).getD []) t))
    rw [List.append_nil] at hmarked
    exact .own rfl .catchClause (.done s) hmarked

theorem bindings_declares (s : Scopes) (id place : NodeId) (scope : ScopeId) (keyword : VarKeyword)
    (ds : List NodeId) : Declares u id place scope (.bindings keyword ds) s
      (enterScopes u s id scope (.bindings keyword ds)) := by
  have hp : Declares u id place scope (.bindings keyword ds) s
      ((declareDeclarators u scope keyword s ds).map (·, scope)) :=
    .same rfl rfl (declareDeclarators_performs place keyword ds s)
  unfold enterScopes
  dsimp only
  cases hd : declareDeclarators u scope keyword s ds <;> rw [hd] at hp <;> exact hp

theorem enterScopes_declares (s : Scopes) (id place : NodeId) (scope : ScopeId)
    (form : Form NodeId) :
    Declares u id place scope form s (enterScopes u s id scope form) := by
  cases form with
  | program => exact .own rfl .program (.done s) (.done _)
  | function place' name params body traits =>
    cases place' with
    | declaration => exact functionDeclaration_declares s id place scope name params body traits
    | expression => exact functionExpression_declares s id place scope name params body traits
    | arrow => exact enterFunction_declares (by simp) (.done s)
  | classBody place' name heritage members =>
    cases place' with
    | declaration => exact classDeclaration_declares s id place scope name heritage members
    | expression => exact classExpression_declares s id place scope name heritage members
  | bindings keyword ds => exact bindings_declares s id place scope keyword ds
  | forLoop => exact blockWhen_declares rfl .forLoop rfl rfl
  | forEach => exact blockWhen_declares rfl .forEach rfl rfl
  | block => exact blockWhen_declares rfl .block rfl rfl
  | switch => exact blockWhen_declares rfl .switch rfl rfl
  | catchClause param body => exact catchClause_declares s id place scope param body
  | this => exact steps_declares rfl rfl rfl (flagFunctions_steps s (.inl rfl) _ _)
  | identifier name =>
    unfold enterScopes
    dsimp only
    split
    · exact steps_declares rfl rfl rfl (flagFunctions_steps s (.inr rfl) _ _)
    · exact steps_declares rfl rfl rfl .refl
  | _ => exact steps_declares rfl rfl rfl .refl

end LoopClosure.Binding
