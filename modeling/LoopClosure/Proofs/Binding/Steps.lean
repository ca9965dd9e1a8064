import Mathlib.Logic.Relation
import LoopClosure.Proofs.Binding.Scopes

/-!
# Steps of a binding

Everything that binding does to a table, apart from making scopes, is a `Binding.Step`: a
declaration or a mark for a name that an identifier of the unit has, a change to a declaration that
keeps what it declares, a use. Entering a node makes at most one scope, below the scope that the
node stands in, and declares with `let` and `const` what the node says (`enterScopes_enters`).
Resolving a reference makes none (`resolveReference_steps`).
-/

namespace LoopClosure

/-- The two declare the same; types and captures may differ. -/
structure Declaration.Agrees (d e : Declaration) : Prop where
  kind : d.kind = e.kind
  node : d.node = e.node
  fromPos : d.fromPos = e.fromPos
  isGlobal : d.isGlobal = e.isGlobal

namespace Declaration.Agrees

variable {d e f : Declaration}

theorem refl (d : Declaration) : d.Agrees d := ⟨rfl, rfl, rfl, rfl⟩

theorem trans (h : d.Agrees e) (h' : e.Agrees f) : d.Agrees f :=
  ⟨h.kind.trans h'.kind, h.node.trans h'.node, h.fromPos.trans h'.fromPos,
    h.isGlobal.trans h'.isGlobal⟩

end Declaration.Agrees

namespace Binding

open Syntax Scopes Relation

/-- What may be declared: in which scope, as what, which name, by which identifier, to be used from
where on. -/
abbrev Grants : Type := ScopeId → BindingKind → String → NodeId → Option Nat → Prop

abbrev Grants.none : Grants := fun _ _ _ _ _ => False

/-- A change of a table by binding `u`, with declarations that `G` grants. -/
inductive Step (u : CompilationUnit) (G : Grants) : Scopes → Scopes → Prop
  | declare {s t : Scopes} {id : ScopeId} {target : Option ScopeId} {name : String}
    {kind : BindingKind} {ident : NodeId} {fromPos : Option Nat}
    (hn : u.nodes.identifier? ident = some name) (hg : G id kind name ident fromPos)
    (h : s.declare id name kind (some ident) fromPos = .ok (t, target)) : Step u G s t
  | modify (s : Scopes) (id : Option ScopeId) (name : String) {f : Declaration → Declaration}
    (hf : ∀ d : Declaration, d.Agrees (f d)) : Step u G s (s.modify id name f)
  | addFlags (s : Scopes) (id : Option ScopeId) {flags : Flags}
    (hf : flags = { usesThis := true } ∨ flags = { usesArguments := true }) :
    Step u G s (s.addFlags id flags)
  | markPropagates (s : Scopes) (id : Option ScopeId) {name : String} {ident : NodeId}
    (hn : u.nodes.identifier? ident = some name) : Step u G s (s.markPropagates id name)
  | addReference (s : Scopes) (id : Option ScopeId) (name : String) (ident : NodeId) :
    Step u G s (s.addReference id name ident)

abbrev Steps (u : CompilationUnit) (G : Grants) : Scopes → Scopes → Prop :=
  ReflTransGen (Step u G)

/-- What a node that stands in `scope` declares with `let`, `const` or `class`, and from where on it
may be used: a declaration declares in `scope`, an expression of a class in its own scope `own`. -/
inductive Lexical (u : CompilationUnit) (scope own : ScopeId) :
    Form NodeId → ScopeId → String → NodeId → Option Nat → Prop
  | bindings {keyword : VarKeyword} {ds : List NodeId} {d target : NodeId} {init : Option NodeId}
    {name : String} {ident : NodeId} (hk : keyword ≠ .var) (hd : d ∈ ds)
    (ht : u.nodes.form? d = some (.declarator target init))
    (hi : ident ∈ u.nodes.bindingIds target) : Lexical u scope own (.bindings keyword ds) scope name
      ident ((u.nodes.get? d).map (·.stop))
  | declaration {ident : NodeId} {heritage : Option NodeId} {members : List NodeId}
    {name : String} : Lexical u scope own (.classBody .declaration (some ident) heritage members)
      scope name ident ((u.nodes.get? ident).map (·.stop))
  | expression {ident : NodeId} {heritage : Option NodeId} {members : List NodeId}
    {name : String} : Lexical u scope own (.classBody .expression (some ident) heritage members)
      own name ident none

/-- The scope that a node of a form opens. -/
inductive Opens : Form NodeId → ScopeKind → Flags → Prop
  | program {statements : List NodeId} {comments : List Comment} :
    Opens (.program statements comments) .hoist {}
  | function {place : FunctionPlace} {name : Option NodeId} {params : List NodeId} {body : NodeId}
    {traits : FunctionTraits} : Opens (.function place name params body traits) .hoist
      { function := true, arrow := decide (place = .arrow) }
  | classBody {place : ClassPlace} {name heritage : Option NodeId} {members : List NodeId} :
    Opens (.classBody place name heritage members) .hoist { class_ := true }
  | forLoop {init test step : Option NodeId} {body : NodeId} :
    Opens (.forLoop init test step body) .block {}
  | forEach {each : Iteration} {left right body : NodeId} :
    Opens (.forEach each left right body) .block {}
  | block {statements : List NodeId} : Opens (.block statements) .block {}
  | switch {discriminant : NodeId} {cases : List NodeId} :
    Opens (.switch discriminant cases) .block {}
  | catchClause {param : Option NodeId} {body : NodeId} :
    Opens (.catchClause param body) .catches {}

/-- Block-scoped declarations are what the form of the node says. -/
abbrev Grants.lexical (u : CompilationUnit) (scope own : ScopeId) (form : Form NodeId) : Grants :=
  fun x kind name ident fromPos =>
    kind.isBlockScoped = true → Lexical u scope own form x name ident fromPos

/-- Whether a node opens a scope of its own. -/
def opensScope (u : CompilationUnit) (id : NodeId) : Form NodeId → Bool
  | .program .. | .function .. | .classBody .. | .switch .. | .catchClause .. => true
  | .forLoop init _ _ _ => (init.map (isLexical u)).getD false
  | .forEach _ left _ _ => isLexical u left
  | .block _ => !(isFunctionBody u id)
  | _ => false

variable {u : CompilationUnit} {s t : Scopes} {G : Grants}

/-! ## Declaring -/

theorem addType_step (s : Scopes) (id : Option ScopeId) (name : String) (type : ValueType) :
    Steps u G s (s.addType id name type) :=
  .single (.modify s id name fun _ => ⟨rfl, rfl, rfl, rfl⟩)

theorem declareAt_steps {scope : ScopeId} {name : String} {kind : BindingKind} {ident : NodeId}
    {fromPos : Option Nat} {target : Option ScopeId} (hn : u.nodes.identifier? ident = some name)
    (hg : G scope kind name ident fromPos)
    (h : declareAt u s scope name kind ident fromPos = .ok (t, target)) : Steps u G s t := by
  unfold declareAt at h
  split at h
  · next hd =>
    cases h
    exact .single (.declare hn hg hd)
  · cases h

theorem declareAll_steps {scope : ScopeId} {kind : BindingKind} {fromPos : Option Nat}
    {type : Option ValueType} {idents : List NodeId}
    (hg : ∀ ident ∈ idents, ∀ name, G scope kind name ident fromPos)
    (h : declareAll u scope kind fromPos type s idents = .ok t) : Steps u G s t := by
  induction idents generalizing s with
  | nil =>
    cases h
    exact .refl
  | cons ident idents ih =>
    unfold declareAll at h
    have hrest (i : NodeId) (hi : i ∈ idents) (name : String) : G scope kind name i fromPos :=
      hg i (List.mem_cons_of_mem _ hi) name
    split at h
    · exact ih hrest h
    · next name hn =>
      obtain ⟨⟨s', target⟩, hd, h⟩ := bind_eq_ok.1 h
      have hfirst : G scope kind name ident fromPos := hg ident List.mem_cons_self name
      refine (declareAt_steps hn hfirst hd).trans (.trans ?_ (ih hrest h))
      split
      · exact addType_step _ _ _ _
      · exact .refl

theorem isBlockScoped_bindingKind {keyword : VarKeyword}
    (h : (bindingKind keyword).isBlockScoped = true) : keyword ≠ .var := by
  rintro rfl
  cases h

theorem declareDeclarators_steps {scope : ScopeId} {keyword : VarKeyword} {ds : List NodeId}
    (hg : ∀ d ∈ ds, ∀ target init, u.nodes.form? d = some (.declarator target init) →
      ∀ ident ∈ u.nodes.bindingIds target, ∀ name, G scope (bindingKind keyword) name ident
        (if (bindingKind keyword).isBlockScoped then (u.nodes.get? d).map (·.stop) else none))
    (h : declareDeclarators u scope keyword s ds = .ok t) : Steps u G s t := by
  induction ds generalizing s with
  | nil =>
    cases h
    exact .refl
  | cons d ds ih =>
    obtain ⟨s', hd, h⟩ := bind_eq_ok.1 h
    refine .trans ?_ (ih (fun d hd => hg d (List.mem_cons_of_mem _ hd)) h)
    unfold declareDeclarator at hd
    split at hd
    · next target init _ hget =>
      have hform : u.nodes.form? d = some (.declarator target init) := by
        rw [Nodes.form?, hget]
        rfl
      split at hd
      · cases hd
      · have hstop := hg d List.mem_cons_self target init hform
        rw [hget, Option.map_some] at hstop
        exact declareAll_steps hstop hd
    · cases hd
      exact .refl

theorem flagFunctions_steps (s : Scopes) {flags : Flags}
    (hf : flags = { usesThis := true } ∨ flags = { usesArguments := true }) (n : Nat)
    (scope : Option ScopeId) : Steps u G s (flagFunctions s flags n scope) := by
  induction n generalizing s scope with
  | zero => exact .refl
  | succ n ih =>
    unfold flagFunctions
    split
    · exact .refl
    · dsimp only
      split
      · exact .head (.addFlags _ _ hf) (ih _ _)
      · exact .single (.addFlags _ _ hf)

theorem markAll_steps (hoist : Option ScopeId) (idents : List NodeId) (s : Scopes) :
    Steps u G s ((idents.filterMap u.nodes.identifier?).foldl
      (fun s name => s.markPropagates hoist name) s) := by
  induction idents generalizing s with
  | nil => exact .refl
  | cons ident idents ih =>
    rw [List.filterMap_cons]
    split
    · exact ih s
    · next name hn => exact .head (.markPropagates s hoist hn) (ih _)

/-! ## Entering a node -/

/-- A node stays in the scope that it stands in, or opens one of its own. -/
inductive Enters (u : CompilationUnit) (id : NodeId) (scope : ScopeId) (form : Form NodeId)
    (s t : Scopes) : ScopeId → Prop
  | same (hs : opensScope u id form = false) (h : Steps u (.lexical u scope scope form) s t) :
    Enters u id scope form s t scope
  | own {r : Scopes} {kind : ScopeKind} {flags : Flags} (hs : opensScope u id form = true)
    (h : Steps u (.lexical u scope r.size form) s r) (ho : Opens form kind flags)
    (h' : Steps u (.lexical u scope r.size form) (r.alloc kind id scope flags).1 t) :
    Enters u id scope form s t r.size

variable {id : NodeId} {scope own : ScopeId} {form : Form NodeId}

theorem Enters.then {r : Scopes} (h : Enters u id scope form s t own)
    (h' : Steps u (.lexical u scope own form) t r) : Enters u id scope form s r own := by
  cases h with
  | same hs h => exact .same hs (h.trans h')
  | own hs h ho h₂ => exact .own hs h ho (h₂.trans h')

theorem alloc_enters {kind : ScopeKind} {flags : Flags} (hs : opensScope u id form = true)
    (h : Steps u (.lexical u scope t.size form) s t) (ho : Opens form kind flags) :
    Enters u id scope form s (t.alloc kind id scope flags).1 (t.alloc kind id scope flags).2 :=
  .own hs h ho .refl

theorem enterFunction_enters {r : Scopes} {params : List NodeId} {arrow : Bool}
    (hs : opensScope u id form = true) (h : Steps u (.lexical u scope r.size form) s r)
    (ho : Opens form .hoist { function := true, arrow })
    (he : enterFunction u r id scope params arrow = .ok (t, own)) :
    Enters u id scope form s t own := by
  unfold enterFunction at he
  obtain ⟨s', hd, he⟩ := bind_eq_ok.1 he
  cases he
  exact (alloc_enters hs h ho).then (declareAll_steps (fun _ _ _ hk => by cases hk) hd)

theorem blockWhen_enters {isOwn : Bool} (hs : opensScope u id form = isOwn)
    (ho : Opens form .block {})
    (h : (Except.ok (if isOwn then s.alloc .block id scope {} else (s, scope)) :
      Except Failure (Scopes × ScopeId)) = .ok (t, own)) : Enters u id scope form s t own := by
  cases isOwn
  · cases h
    exact .same hs .refl
  · cases h
    exact alloc_enters hs .refl ho

theorem identifier?_of_named {name : Option NodeId} {ident : NodeId} {text : String}
    (h : (name.bind fun n => (u.nodes.identifier? n).map (n, ·)) = some (ident, text)) :
    name = some ident ∧ u.nodes.identifier? ident = some text := by
  obtain ⟨n, hn, h⟩ := Option.bind_eq_some_iff.1 h
  obtain ⟨_, hname, heq⟩ := Option.map_eq_some_iff.1 h
  cases heq
  exact ⟨hn, hname⟩

theorem enterScopes_enters (h : enterScopes u s id scope form = .ok (t, own)) :
    Enters u id scope form s t own := by
  cases form with
  | program =>
    cases h
    exact alloc_enters rfl .refl .program
  | function place name params body traits =>
    cases place with
    | declaration =>
      unfold enterScopes at h
      dsimp only at h
      split at h
      · next hname =>
        obtain ⟨⟨s', target⟩, hd, h⟩ := bind_eq_ok.1 h
        refine enterFunction_enters rfl (.trans ?_ (addType_step _ _ _ _)) .function h
        exact declareAt_steps (identifier?_of_named hname).2 (fun hk => by cases hk) hd
      · exact enterFunction_enters rfl .refl .function h
    | expression =>
      obtain ⟨⟨s', inner⟩, hf, h⟩ := bind_eq_ok.1 h
      have he : Enters u id scope (.function .expression name params body traits) s s' inner :=
        enterFunction_enters rfl .refl .function hf
      dsimp only at h
      split at h
      · next hname =>
        obtain ⟨⟨s'', target⟩, hd, h⟩ := bind_eq_ok.1 h
        cases h
        refine he.then (.trans ?_ (addType_step _ _ _ _))
        exact declareAt_steps (identifier?_of_named hname).2 (fun hk => by cases hk) hd
      · cases h
        exact he
    | arrow => exact enterFunction_enters rfl .refl .function h
  | classBody place name heritage members =>
    cases place with
    | declaration =>
      unfold enterScopes at h
      dsimp only at h
      split at h
      · next hname =>
        obtain ⟨⟨s', target⟩, hd, h⟩ := bind_eq_ok.1 h
        cases h
        obtain ⟨rfl, hident⟩ := identifier?_of_named hname
        refine alloc_enters rfl (.trans ?_ (addType_step _ _ _ _)) .classBody
        exact declareAt_steps hident (fun _ => .declaration) hd
      · cases h
        exact alloc_enters rfl .refl .classBody
    | expression =>
      unfold enterScopes at h
      dsimp only at h
      split at h
      · next hname =>
        obtain ⟨⟨s', target⟩, hd, h⟩ := bind_eq_ok.1 h
        cases h
        obtain ⟨rfl, hident⟩ := identifier?_of_named hname
        refine (alloc_enters rfl .refl .classBody).then (.trans ?_ (addType_step _ _ _ _))
        exact declareAt_steps hident (fun _ => .expression) hd
      · cases h
        exact alloc_enters rfl .refl .classBody
  | bindings keyword ds =>
    obtain ⟨s', hd, h⟩ := bind_eq_ok.1 h
    cases h
    refine .same rfl (declareDeclarators_steps (fun d hd target init hform ident hi name hk => ?_) hd)
    rw [if_pos hk]
    exact .bindings (isBlockScoped_bindingKind hk) hd hform hi
  | forLoop => exact blockWhen_enters rfl .forLoop h
  | forEach => exact blockWhen_enters rfl .forEach h
  | block => exact blockWhen_enters rfl .block h
  | switch => exact blockWhen_enters rfl .switch h
  | catchClause param body =>
    obtain ⟨s', hd, h⟩ := bind_eq_ok.1 h
    cases h
    refine (alloc_enters rfl .refl .catchClause).then (.trans ?_ (markAll_steps _ _ _))
    exact declareAll_steps (fun _ _ _ hk => by cases hk) hd
  | this =>
    cases h
    exact .same rfl (flagFunctions_steps _ (.inl rfl) _ _)
  | identifier name =>
    unfold enterScopes at h
    dsimp only at h
    split at h
    · cases h
      exact .same rfl (flagFunctions_steps _ (.inr rfl) _ _)
    · cases h
      exact .same rfl .refl
  | _ =>
    cases h
    exact .same rfl .refl

/-! ## Resolving -/

theorem markPassage_steps {ident : NodeId} {name : String}
    (hn : u.nodes.identifier? ident = some name) (s : Scopes) (inner : Option ScopeId)
    (outer : ScopeId) : Steps u .none s (markPassage s inner outer name) := by
  unfold markPassage
  generalize ((s.walk inner).takeWhile (· ≠ outer)).filter _ = ids
  induction ids generalizing s with
  | nil => exact .refl
  | cons id ids ih => exact .head (.markPropagates s id hn) (ih _)

theorem resolveReference_steps {b : Build} {r r' : Resolving} {ident : NodeId}
    (h : resolveReference u b r ident = .ok r') : Steps u .none r.scopes r'.scopes := by
  unfold resolveReference at h
  split at h
  · next start stop name parent hget =>
    have hname : u.nodes.identifier? ident = some name := by
      rw [Nodes.identifier?, Nodes.form?, hget]
      rfl
    extract_lets inner at h
    split at h
    · split at h
      · cases h
      · cases h
        exact .refl
    · next target _ =>
      extract_lets t captured note passed typed at h
      have ht : Steps u .none r.scopes t := .single (.addReference _ _ _ _)
      have hpassed : Steps u .none t passed := by
        dsimp only [passed]
        split
        · have hnote : Step u .none t note := .modify _ _ _ fun _ => ⟨rfl, rfl, rfl, rfl⟩
          exact .head hnote (markPassage_steps hname _ _ _)
        · exact .refl
      have htyped : Steps u .none passed typed := by
        dsimp only [typed]
        split
        · exact addType_step _ _ _ _
        · exact .refl
      split at h
      · cases h
        exact ht
      · extract_lets early at h
        split at h
        · cases h
        · split at h
          · cases h
          · cases h
            exact ht.trans (hpassed.trans htyped)
  · cases h
    exact .refl

theorem resolveAll_steps {b : Build} {r r' : Resolving} {idents : List NodeId}
    (h : resolveAll u b r idents = .ok r') : Steps u .none r.scopes r'.scopes := by
  induction idents generalizing r with
  | nil =>
    cases h
    exact .refl
  | cons ident idents ih =>
    obtain ⟨r₁, h₁, h⟩ := bind_eq_ok.1 h
    exact (resolveReference_steps h₁).trans (ih h)

end Binding

end LoopClosure
