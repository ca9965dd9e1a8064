import LoopClosure.Proofs.Draft.Fresh
import LoopClosure.Proofs.Lowering.Finish
import LoopClosure.Proofs.Scope.Hoist

/-!
# What a lowering declares

`Lowering.Advances l l'`: a step changes nothing about scopes but adds `var`s, and gives out fresh
names. `Lowering.Records D l l'`: it has `D k` declared in front of the call of wrap `k`.

Adapting a body has the names of its `var`s declared in front of the outermost call around
(`adaptBody_records`); resolving the relays of a wrap has the flags declared there that the wrap
hands on to no other (`resolveRelays_records`).
-/

namespace LoopClosure

open Syntax Scopes

/-- The names that a declaration binds. -/
def Syntax.Nodes.namesOf (ns : Nodes) (declaration : NodeId) : List String :=
  match ns.form? declaration with
  | some (.bindings _ declarators) =>
    declarators.flatMap fun d =>
      match ns.form? d with
      | some (.declarator target _) => ns.bindingNames target
      | _ => []
  | _ => []

/-- The result of the call is kept exactly if a relay returns it. -/
def Exits.Valued (e : Exits) : Prop := e.valued = true ↔ ∃ r ∈ e.relays, r.isValued = true

namespace Lowering

variable {l l' l'' : Lowering} {D D' : Nat → String → Prop} {i : Nat} {site : NodeId}

def nothing : Nat → String → Prop := fun _ _ => False

/-- The scopes get `var`s only, and the names given out are fresh. -/
structure Advances (l l' : Lowering) : Prop extends Keeps l l' where
  size : l'.exits.size = l.exits.size
  vars : l.bound.scopes.VarsAdded l'.bound.scopes
  names : l.draft.names.Extends l'.draft.names
  fresh : ∀ {ids : List String}, l.draft.names.Fresh ids → l'.draft.names.Fresh ids
  valued : (∀ k, (l.exit k).Valued) → ∀ k, (l'.exit k).Valued

namespace Advances

theorem refl (l : Lowering) : Advances l l := ⟨.refl l, rfl, .refl _, .refl _, id, id⟩

theorem trans (h : Advances l l') (h' : Advances l' l'') : Advances l l'' where
  toKeeps := h.toKeeps.trans h'.toKeeps
  size := h'.size.trans h.size
  vars := h.vars.trans h'.vars
  names := h.names.trans h'.names
  fresh hf := h'.fresh (h.fresh hf)
  valued hv := h'.valued (h.valued hv)

end Advances

/-- A step that has `D k` noted for declaration in front of the call of wrap `k`. -/
structure Records (D : Nat → String → Prop) (l l' : Lowering) : Prop extends Advances l l' where
  declared : ∀ (k : Nat) (v : String),
    v ∈ (l'.exit k).declared ↔ v ∈ (l.exit k).declared ∨ k < l.exits.size ∧ D k v

namespace Records

theorem congr (h : Records D l l') (hD : ∀ k v, D k v ↔ D' k v) : Records D' l l' :=
  { h with declared := fun k v => (h.declared k v).trans (by rw [hD]) }

theorem of_exits (hk : Keeps l l') (hd : l'.exits = l.exits)
    (hv : l.bound.scopes.VarsAdded l'.bound.scopes)
    (hn : l.draft.names.Extends l'.draft.names)
    (hf : ∀ {ids : List String}, l.draft.names.Fresh ids → l'.draft.names.Fresh ids) :
    Records nothing l l' := by
  have hexit (k : Nat) : l'.exit k = l.exit k := by
    rw [exit, hd]
    rfl
  exact ⟨⟨hk, congrArg Array.size hd, hv, hn, hf, fun h k => hexit k ▸ h k⟩,
    fun k v => by simp [hexit, nothing]⟩

theorem refl (l : Lowering) : Records nothing l l := of_exits (.refl l) rfl (.refl _) (.refl _) id

theorem trans (h : Records D l l') (h' : Records D' l' l'') :
    Records (fun k v => D k v ∨ D' k v) l l'' where
  toAdvances := h.toAdvances.trans h'.toAdvances
  declared k v := by rw [h'.declared, h.declared, h.size, or_assoc, ← and_or_left]

theorem thenNothing (h : Records D l l') (h' : Records nothing l' l'') : Records D l l'' :=
  (h.trans h').congr fun _ _ => or_iff_left id

theorem afterNothing (h : Records nothing l l') (h' : Records D l' l'') : Records D l l'' :=
  (h.trans h').congr fun _ _ => or_iff_right id

/-- What the steps of a fold record, told with the names at its end. -/
theorem foldlM {α : Type} {step : Lowering → α → Except Failure Lowering}
    {E : α → Nat → String → Prop} {as : List α}
    (hkeeps : ∀ {t t' a}, step t a = .ok t' → Keeps t t')
    (hstep : ∀ t t' a, a ∈ as → Keeps l t → t'.draft.names.Extends l'.draft.names →
      step t a = .ok t' → Records (E a) t t')
    (h : as.foldlM step l = .ok l') : Records (fun k v => ∃ a ∈ as, E a k v) l l' := by
  induction as generalizing l with
  | nil =>
    rw [List.foldlM_nil, pure_eq_ok] at h
    exact h ▸ (refl l).congr fun k v => by simp [nothing]
  | cons a as ih =>
    obtain ⟨t, ht, h⟩ := foldlM_cons_eq_ok.1 h
    have hrest := ih (fun s s' x hx hs => hstep s s' x (List.mem_cons_of_mem _ hx)
      ((hkeeps ht).trans hs)) h
    have hfirst := hstep l t a List.mem_cons_self (.refl l) hrest.names ht
    exact (hfirst.trans hrest).congr fun k v => by simp

/-- What the steps of a fold record that cannot fail. -/
theorem foldl {α : Type} {step : Lowering → α → Lowering} {E : α → Nat → String → Prop}
    {as : List α} (hstep : ∀ t a, a ∈ as → Keeps l t → Records (E a) t (step t a)) :
    Records (fun k v => ∃ a ∈ as, E a k v) l (as.foldl step l) := by
  induction as generalizing l with
  | nil => exact (refl l).congr fun k v => by simp [nothing]
  | cons a as ih =>
    have hfirst := hstep l a List.mem_cons_self (.refl l)
    have hrest := ih fun s x hx hs => hstep s x (List.mem_cons_of_mem _ hx)
      (hfirst.toKeeps.trans hs)
    exact (hfirst.trans hrest).congr fun k v => by simp

/-- A fold of steps that record nothing. -/
theorem foldlM_nothing {α : Type} {step : Lowering → α → Except Failure Lowering} {as : List α}
    (hstep : ∀ {t t' a}, step t a = .ok t' → Records nothing t t')
    (h : as.foldlM step l = .ok l') : Records nothing l l' :=
  (foldlM (E := fun _ => nothing) (fun ht => (hstep ht).toKeeps) (fun _ _ _ _ _ _ ht => hstep ht)
    h).congr fun k v => by simp [nothing]

end Records

/-! ## Steps -/

theorem withDraft_records (l : Lowering) {d : Draft} (hb : d.bound = l.draft.bound)
    (hn : d.names = l.draft.names) : Records nothing l (l.withDraft d) := by
  have hbound : (l.withDraft d).bound = l.bound := hb
  refine .of_exits ⟨rfl, rfl, ?_, ?_⟩ rfl ?_ (hn ▸ .refl _) fun hf => ?_
  · rw [hbound]
    rfl
  · rw [hbound]
    exact .refl _
  · rw [hbound]
    exact .refl _
  · change d.names.Fresh _
    rw [hn]
    exact hf

theorem replace_records (l : Lowering) (start stop : Nat) (text : String) :
    Records nothing l (l.replace start stop text) := withDraft_records l rfl rfl

theorem insert_records (l : Lowering) (position : Nat) (text : String) :
    Records nothing l (l.insert position text) := withDraft_records l rfl rfl

theorem insertAfter_records (l : Lowering) (position : Nat) (text : String) :
    Records nothing l (l.insertAfter position text) := withDraft_records l rfl rfl

theorem modifyExit_records (l : Lowering) (i : Nat) (f : Exits → Exits) {p : String → Prop}
    (hf : ∀ e v, v ∈ (f e).declared ↔ v ∈ e.declared ∨ p v)
    (hv : ∀ e : Exits, e.Valued → (f e).Valued) :
    Records (fun k v => k = i ∧ p v) l (l.modifyExit i f) := by
  have hw : Writes (fun _ => True) l (l.modifyExit i f) := modifyExit_writes l i f
  refine ⟨⟨hw.toKeeps, hw.size, .refl _, .refl _, id, fun h k => ?_⟩, fun k v => ?_⟩
  · rw [exit_modifyExit]
    split
    · exact hv _ (h k)
    · exact h k
  · rw [exit_modifyExit]
    split
    · next h => rw [hf, h.1, and_iff_right h.2, and_iff_right rfl]
    · next h =>
      refine (or_iff_left ?_).symm
      rintro ⟨hk, rfl, -⟩
      exact h ⟨rfl, hk⟩

theorem addRelay_records (l : Lowering) (i : Nat) (r : Relay) :
    Records nothing l (l.addRelay i r) := by
  refine (modifyExit_records l i _ (p := fun _ => False) (fun _ _ => by simp) fun e he => ?_).congr
    fun _ _ => by simp [nothing]
  unfold Exits.Valued at he ⊢
  simp [mem_appendNew, or_and_right, exists_or, he]

theorem addCheck_records (l : Lowering) (i : Nat) (text : String) :
    Records nothing l (l.addCheck i text) := by
  refine (modifyExit_records l i _ (p := fun _ => False) (fun _ _ => by simp) fun e he => ?_).congr
    fun _ _ => by simp [nothing]
  exact he

theorem addDeclared_records (l : Lowering) (i : Nat) (names : List String) :
    Records (fun k v => k = i ∧ v ∈ names) l (l.addDeclared i names) :=
  modifyExit_records l i _ (fun _ _ => mem_foldl_appendNew) fun _ he => he

theorem permanentName_records {key name : String} (h : l.permanentName key = .ok (l', name)) :
    Records nothing l l' := by
  have hq := (permanentName_quiet (P := fun _ => True) h).1
  obtain ⟨⟨d, name'⟩, hd, h⟩ := bind_eq_ok.1 h
  cases h
  obtain ⟨⟨names, name''⟩, hnames, hd⟩ := bind_eq_ok.1 hd
  cases hd
  exact .of_exits hq.toKeeps rfl (.refl _) hq.names fun hf => hf.of_permanentName hnames

theorem declare_records {scope : Option ScopeId} {name : String}
    (h : l.declare scope name = .ok l') : Records nothing l l' := by
  have hs : Still (fun _ => True) l l' := declare_still h
  unfold declare at h
  dsimp only at h
  split at h
  · cases h
  · obtain ⟨d, hd, rfl⟩ := map_eq_ok.1 h
    unfold Draft.declareVar at hd
    split at hd
    · next hdeclare =>
      cases hd
      exact .of_exits hs.toKeeps rfl (.declare hdeclare) (.refl _) id
    · cases hd

/-! ## Bodies -/

theorem adaptJump_records (h : adaptJump i l site = .ok l') : Records nothing l l' := by
  unfold adaptJump at h
  split at h
  · split at h
    · cases h
      exact replace_records _ _ _ _
    · obtain ⟨⟨l₁, flag⟩, hname, h⟩ := bind_eq_ok.1 h
      cases h
      exact ((permanentName_records hname).thenNothing (replace_records _ _ _ _)).thenNothing
        (addRelay_records _ _ _)
  · cases h
    exact .refl l

theorem adaptReturn_records (h : adaptReturn i l site = .ok l') : Records nothing l l' := by
  unfold adaptReturn at h
  split at h
  · split at h
    · obtain ⟨⟨l₁, flag⟩, hname, h⟩ := bind_eq_ok.1 h
      cases h
      exact ((permanentName_records hname).thenNothing (replace_records _ _ _ _)).thenNothing
        (addRelay_records _ _ _)
    · obtain ⟨⟨l₁, flag⟩, hname, h⟩ := bind_eq_ok.1 h
      cases h
      exact (((permanentName_records hname).thenNothing (replace_records _ _ _ _)).thenNothing
        (insertAfter_records _ _ _)).thenNothing (addRelay_records _ _ _)
  · cases h
    exact .refl l

theorem aliases_records (l : Lowering) (as : List (ScopeId × Alias)) :
    Records nothing l { l with aliases := as } :=
  .of_exits ⟨rfl, rfl, rfl, .refl _⟩ rfl (.refl _) (.refl _) id

theorem aliasFor_records {a : Alias} {scope : ScopeId} {name : String}
    (h : aliasFor a scope site l = .ok (l', name)) : Records nothing l l' := by
  unfold aliasFor at h
  split at h
  · cases h
  · obtain ⟨⟨l₁, name'⟩, hname, h⟩ := bind_eq_ok.1 h
    refine (permanentName_records hname).thenNothing ?_
    dsimp only at h
    split at h
    · cases h
      exact .refl _
    · obtain ⟨l₂, hdeclare, h⟩ := bind_eq_ok.1 h
      cases h
      exact ((aliases_records l₁ _).thenNothing (insertAfter_records _ _ _)).thenNothing
        (declare_records hdeclare)

theorem adaptAlias_records {a : Alias} {scope : ScopeId} {sites : List NodeId}
    (h : adaptAlias a scope l sites = .ok l') : Records nothing l l' := by
  unfold adaptAlias at h
  split at h
  · cases h
    exact .refl l
  · next first rest =>
    obtain ⟨⟨l₁, name⟩, hname, h⟩ := bind_eq_ok.1 h
    cases h
    refine (aliasFor_records hname).thenNothing ((Records.foldl (E := fun _ => nothing)
      fun t site _ _ => ?_).congr fun k v => by simp [nothing])
    split
    · exact replace_records _ _ _ _
    · exact .refl t

/-- The targets of a declaration bind its names. -/
theorem namesOf_eq {ns : Nodes} {start stop : Nat} {keyword : VarKeyword} {declarators : List NodeId}
    {parent : Option NodeId}
    (hn : ns.get? site = some ⟨start, stop, .bindings keyword declarators, parent⟩) :
    ns.namesOf site = (declarators.filterMap fun d =>
      match ns.get? d with
      | some ⟨_, stop, .declarator target _, _⟩ => some (target, stop)
      | _ => none).flatMap fun t => ns.bindingNames t.1 := by
  rw [Nodes.namesOf, Nodes.form?, hn, List.filterMap_eq_flatMap_toList, List.flatMap_assoc]
  refine congrArg (fun f => declarators.flatMap f) (funext fun d => ?_)
  rw [Nodes.form?]
  cases ns.get? d with
  | none => rfl
  | some n =>
    obtain ⟨start, stop, form, parent⟩ := n
    cases form <;> simp

theorem stripVar_records (root : Nat) (l : Lowering) (site : NodeId) :
    Records (fun k v => k = root ∧ v ∈ l.nodes.namesOf site) l (stripVar root l site) := by
  unfold stripVar
  split
  · next start stop keyword declarators parent hn =>
    extract_lets targets l₁ keywordEnd place instead isPattern last
    have h₁ : Records (fun k v => k = root ∧ v ∈ l.nodes.namesOf site) l l₁ :=
      namesOf_eq hn ▸ addDeclared_records _ _ _
    split
    · exact (h₁.thenNothing (replace_records _ _ _ _)).thenNothing (insertAfter_records _ _ _)
    · exact h₁.thenNothing (replace_records _ _ _ _)
  · next hform =>
    refine (Records.refl l).congr fun k v => ?_
    have hnone : l.nodes.namesOf site = [] := by
      unfold Nodes.namesOf Nodes.form?
      split
      · next keyword declarators hf =>
        obtain ⟨⟨start, stop, form, parent⟩, hn, rfl⟩ := Option.map_eq_some_iff.1 hf
        exact absurd hn (hform start stop keyword declarators parent)
      · rfl
    simp [hnone, nothing]

/-- The rounds of `adaptBody`, one for each kind of site. -/
theorem adaptBody_eq {w : Wrap} (hw : l.wraps[i]? = some w) : adaptBody l i = (do
    let l₁ ← (l.sitesOf i .jump).foldlM (adaptJump i) l
    let l₂ ← (l.sitesOf i .returns).foldlM (adaptReturn i) l₁
    let l₃ ← adaptAlias .this w.scope l₂ (l.sitesOf i .this)
    let l₄ ← adaptAlias .arguments w.scope l₃ (l.sitesOf i .arguments)
    return (l.sitesOf i .var).foldl (stripVar (l₄.outermost i)) l₄) := by
  unfold adaptBody
  rw [hw]
  dsimp only
  have honly (kind : SiteKind) : ((l.bound.sites l.isWrappedBody w.body).filter (·.1 = kind)).map
      (·.2) = l.sitesOf i kind := by
    rw [sitesOf, sites, hw]
  simp only [honly]

theorem adaptBody_rounds {w : Wrap} (hw : l.wraps[i]? = some w) (h : adaptBody l i = .ok l') :
    ∃ l₁ l₂ l₃ l₄, (l.sitesOf i .jump).foldlM (adaptJump i) l = .ok l₁ ∧
      (l.sitesOf i .returns).foldlM (adaptReturn i) l₁ = .ok l₂ ∧
      adaptAlias .this w.scope l₂ (l.sitesOf i .this) = .ok l₃ ∧
      adaptAlias .arguments w.scope l₃ (l.sitesOf i .arguments) = .ok l₄ ∧
      l' = (l.sitesOf i .var).foldl (stripVar (l₄.outermost i)) l₄ := by
  rw [adaptBody_eq hw] at h
  obtain ⟨l₁, h₁, h⟩ := bind_eq_ok.1 h
  obtain ⟨l₂, h₂, h⟩ := bind_eq_ok.1 h
  obtain ⟨l₃, h₃, h⟩ := bind_eq_ok.1 h
  obtain ⟨l₄, h₄, h⟩ := bind_eq_ok.1 h
  cases h
  exact ⟨l₁, l₂, l₃, l₄, h₁, h₂, h₃, h₄, rfl⟩

theorem Keeps.outermostWithin (h : Keeps l l') (n i : Nat) :
    l'.outermostWithin n i = l.outermostWithin n i := by
  induction n generalizing i with
  | zero => rfl
  | succ n ih => simp only [Lowering.outermostWithin, h.parent?, ih]

theorem Keeps.outermost (h : Keeps l l') (i : Nat) : l'.outermost i = l.outermost i := by
  rw [Lowering.outermost, h.wraps, h.outermostWithin]
  rfl

/-- A body has its `var`s declared in front of the outermost call around. -/
theorem adaptBody_records (h : adaptBody l i = .ok l') : Records (fun k v =>
    k = l.outermost i ∧ ∃ site ∈ l.sitesOf i .var, v ∈ l.nodes.namesOf site) l l' := by
  cases hw : l.wraps[i]? with
  | none =>
    unfold adaptBody at h
    rw [hw] at h
    cases h
    refine (Records.refl l).congr fun k v => ?_
    simp [sitesOf, sites, hw, nothing]
  | some w =>
    obtain ⟨l₁, l₂, l₃, l₄, h₁, h₂, h₃, h₄, rfl⟩ := adaptBody_rounds hw h
    have h₁₂ := (Records.foldlM_nothing adaptJump_records h₁).thenNothing
      (Records.foldlM_nothing adaptReturn_records h₂)
    have h₄ := (h₁₂.thenNothing (adaptAlias_records h₃)).thenNothing (adaptAlias_records h₄)
    refine h₄.afterNothing ((Records.foldl (E := fun site k v => k = l.outermost i ∧
      v ∈ l.nodes.namesOf site) fun t site _ ht => ?_).congr fun k v => by tauto)
    rw [h₄.outermost, ← (h₄.toKeeps.trans ht).nodes]
    exact stripVar_records _ t site

/-! ## Calls -/

theorem valueName?_records {valued : Bool} {value : Option String}
    (h : l.valueName? valued = .ok (l', value)) : Records nothing l l' := by
  unfold valueName? at h
  split at h
  · obtain ⟨⟨l₁, name⟩, hname, h⟩ := map_eq_ok.1 h
    cases h
    exact permanentName_records hname
  · cases h
    exact .refl l

theorem checkOf_records {flag check : String} {r : Relay}
    (h : l.checkOf flag r = .ok (l', check)) : Records nothing l l' := by
  cases r with
  | break_ label =>
    cases label <;>
      · cases h
        exact .refl l
  | continue_ label | returnVoid =>
    cases h
    exact .refl l
  | returnPrimitive =>
    obtain ⟨⟨l₁, value⟩, hvalue, h⟩ := bind_eq_ok.1 h
    cases h
    exact permanentName_records hvalue
  | returnValue =>
    obtain ⟨⟨l₁, value⟩, hvalue, h⟩ := bind_eq_ok.1 h
    obtain ⟨⟨l₂, caught⟩, hcaught, h⟩ := bind_eq_ok.1 h
    cases h
    exact (permanentName_records hvalue).thenNothing (permanentName_records hcaught)

/-- The flag of a relay that wrap `i` hands on to no other is declared in front of the outermost
call. -/
def Flagged (l : Lowering) (n : Names) (i : Nat) (r : Relay) (k : Nat) (v : String) : Prop :=
  l.forwardTo? i r = none ∧ k = l.outermost i ∧ n.permanent? r.flagKey = some v

theorem Keeps.flagged_iff (h : Keeps l l') {n : Names} {r : Relay} {k : Nat} {v : String} :
    l'.Flagged n i r k v ↔ l.Flagged n i r k v := by
  rw [Flagged, h.forwardTo?, h.outermost]
  rfl

theorem resolveRelay_records {r : Relay} {n : Names} (h : resolveRelay i l r = .ok l')
    (hn : l'.draft.names.Extends n) : Records (l.Flagged n i r) l l' := by
  unfold resolveRelay at h
  obtain ⟨⟨l₁, flag⟩, hname, h⟩ := bind_eq_ok.1 h
  have h₁ := permanentName_records hname
  have hflag := (permanentName_quiet (P := fun _ => True) hname).2
  dsimp only at h
  split at h
  · next p hp =>
    rw [h₁.forwardTo?] at hp
    obtain ⟨⟨l₂, value⟩, hvalue, h⟩ := bind_eq_ok.1 h
    cases h
    refine (((h₁.thenNothing (valueName?_records hvalue)).thenNothing
      (addCheck_records _ _ _)).thenNothing (addRelay_records _ _ _)).congr fun k v => ?_
    simp [nothing, Flagged, hp]
  · next hp =>
    rw [h₁.forwardTo?] at hp
    obtain ⟨⟨l₂, check⟩, hcheck, h⟩ := bind_eq_ok.1 h
    cases h
    have h₂ := h₁.thenNothing (checkOf_records hcheck)
    have h₃ := (h₂.thenNothing (addCheck_records _ i check)).afterNothing
      (addDeclared_records _ (l₂.outermost i) [flag])
    refine h₃.congr fun k v => ?_
    have hv : n.permanent? r.flagKey = some flag :=
      hn.kept ((checkOf_records hcheck).names.kept hflag)
    rw [h₂.outermost, Flagged, hp, hv, List.mem_singleton, Option.some.injEq]
    simp [eq_comm]

theorem resolveRelays_records {n : Names} (h : l.resolveRelays i = .ok l')
    (hn : l'.draft.names.Extends n) :
    Records (fun k v => ∃ r ∈ (l.exit i).relays, l.Flagged n i r k v) l l' := by
  refine .foldlM (fun {t t' r} ht => (resolveRelay_records ht (.refl _)).toKeeps)
    (fun t t' r _ ht hnames hstep => ?_) h
  exact (resolveRelay_records hstep (hnames.trans hn)).congr fun k v => ht.flagged_iff

theorem writeCall_records (h : l.writeCall i = .ok l') : Records nothing l l' := by
  unfold writeCall at h
  split at h
  · cases h
    exact .refl l
  · next w _ =>
    split at h
    · cases h
    · next body _ =>
      extract_lets e params tail at h
      obtain ⟨⟨l₁, value⟩, hvalue, h⟩ := bind_eq_ok.1 h
      dsimp -zeta only at h
      extract_lets declared head l₂ at h
      have h₂ : Records nothing l₁ l₂ := by
        dsimp only [l₂]
        split <;> exact (insert_records _ _ _).thenNothing (insert_records _ _ _)
      exact ((valueName?_records hvalue).thenNothing h₂).thenNothing
        (Records.foldlM_nothing declare_records h)

/-! ## All wraps -/

/-- A `var` in a wrapped body binds the name, and wrap `k` is the outermost around it. -/
def Hoists (l : Lowering) (k : Nat) (v : String) : Prop :=
  ∃ i < l.wraps.size, k = l.outermost i ∧ ∃ site ∈ l.sitesOf i .var, v ∈ l.nodes.namesOf site

/-- The name is the flag of a relay that a wrap makes, and wrap `k` is the outermost around it. -/
def Flags (l : Lowering) (n : Names) (k : Nat) (v : String) : Prop :=
  ∃ i < l.wraps.size, ∃ r, l.Carried i r ∧ l.Flagged n i r k v

theorem adaptBodies_records (h : l.inSourceOrder.foldlM adaptBody l = .ok l') :
    Records l.Hoists l l' := by
  refine (Records.foldlM (fun ht => (adaptBody_records ht).toKeeps) (fun t t' i _ ht _ hstep => ?_)
    h).congr (D := fun k v => ∃ i ∈ l.inSourceOrder, k = l.outermost i ∧
      ∃ site ∈ l.sitesOf i .var, v ∈ l.nodes.namesOf site) fun k v => ?_
  · refine (adaptBody_records hstep).congr fun k v => ?_
    rw [ht.outermost, ht.sitesOf, ht.nodes]
  · simp only [mem_inSourceOrder, Hoists]

theorem resolveAll_records {l₀ : Lowering} {rest : List Nat} {n : Names}
    (h : Underway l₀ rest l) (hf : rest.foldlM resolveRelays l = .ok l')
    (hn : l'.draft.names.Extends n) :
    Records (fun k v => ∃ i ∈ rest, ∃ r, l₀.Carried i r ∧ l₀.Flagged n i r k v) l l' := by
  induction rest generalizing l with
  | nil =>
    rw [List.foldlM_nil, pure_eq_ok] at hf
    exact hf ▸ (Records.refl l).congr fun k v => by simp [nothing]
  | cons i rest ih =>
    obtain ⟨t, ht, hf⟩ := foldlM_cons_eq_ok.1 hf
    have hrest := ih (h.step ht) hf
    refine ((resolveRelays_records ht (hrest.names.trans hn)).trans hrest).congr fun k v => ?_
    simp [h.keeps.flagged_iff, h.mem_relays_head h.nested h.ordered]

/-- What is noted for declaration in front of calls. -/
theorem declares (hn : l.Nested) (hsize : l.exits.size = l.wraps.size)
    (hempty : ∀ k, l.exit k = {}) {l₁ l₂ : Lowering} {n : Names}
    (h₁ : l.inSourceOrder.foldlM adaptBody l = .ok l₁)
    (h₂ : l.innerFirst.foldlM resolveRelays l₁ = .ok l₂) (hnames : l₂.draft.names.Extends n) :
    Records (fun k v => l.Hoists k v ∨ l.Flags n k v) l l₂ :=
  ((adaptBodies_records h₁).trans (resolveAll_records (underway_adapted hn hsize hempty h₁) h₂
    hnames)).congr fun k v => by simp only [mem_innerFirst, Flags]

/-- What a lowering declares. -/
theorem finish_records (hn : l.Nested) (hsize : l.exits.size = l.wraps.size)
    (hempty : ∀ k, l.exit k = {}) (h : l.finish = .ok l') :
    Records (fun k v => l.Hoists k v ∨ l.Flags l'.draft.names k v) l l' := by
  obtain ⟨l₁, l₂, h₁, h₂, h₃, -, -, hw₃⟩ := finish_cases hsize h
  exact (declares hn hsize hempty h₁ h₂ hw₃.names).thenNothing
    (Records.foldlM_nothing writeCall_records h₃)

end Lowering

end LoopClosure
