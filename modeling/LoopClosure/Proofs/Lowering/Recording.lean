import LoopClosure.Proofs.Lowering.Diagnosed
import LoopClosure.Proofs.Lowering.Insertions
import LoopClosure.Proofs.Lowering.Outcome

/-!
# Whether what a lowering declares is taken

What `finish` writes it declares in the scopes, too. Of the generated names none is ever refused: they
are not known to the unit (`Lowering.Ready`). The names of `var`s that are put in front of an
outermost call may be refused where that call stands. If none is, the lowering fails at most with a
loop diagnostic; if one is, it fails with the name (`lowering_diagnosed_iff`).
-/

namespace LoopClosure

open Syntax Scopes

/-- The generated declaration of the name was refused. -/
def Failure.IsRefusal (name : String) (e : Failure) : Prop :=
  e = .internal ("synthetic name " ++ name ++ " shadows an outer binding") ∨
    e = .internal ("synthetic name " ++ name ++ " collides")

/-- A fold whose steps succeed at the good elements only ends at the first that is not. -/
theorem foldlM_ok_or_error {α σ ε : Type} {f : σ → α → Except ε σ} {I : σ → Prop} {good : α → Prop}
    {bad : ε → Prop} {as : List α} {s : σ} (hs : I s)
    (hkeep : ∀ s t a, a ∈ as → I s → f s a = .ok t → I t)
    (hgood : ∀ s a, a ∈ as → I s → good a → ∃ t, f s a = .ok t)
    (hbad : ∀ s a, a ∈ as → I s → ¬good a → ∃ e, f s a = .error e ∧ bad e) :
    ((∀ a ∈ as, good a) ∧ ∃ t, as.foldlM f s = .ok t) ∨
      (¬∀ a ∈ as, good a) ∧ ∃ e, as.foldlM f s = .error e ∧ bad e := by
  induction as generalizing s with
  | nil => exact .inl ⟨by simp, s, rfl⟩
  | cons a as ih =>
    by_cases ha : good a
    · obtain ⟨t, ht⟩ := hgood s a List.mem_cons_self hs ha
      have hrest := ih (hkeep s t a List.mem_cons_self hs ht)
        (fun s t x hx => hkeep s t x (List.mem_cons_of_mem _ hx))
        (fun s x hx => hgood s x (List.mem_cons_of_mem _ hx))
        (fun s x hx => hbad s x (List.mem_cons_of_mem _ hx))
      rw [List.foldlM_cons, ht]
      rcases hrest with ⟨hall, h⟩ | ⟨hnot, h⟩
      · exact .inl ⟨List.forall_mem_cons.2 ⟨ha, hall⟩, h⟩
      · exact .inr ⟨fun hall => hnot (List.forall_mem_cons.1 hall).2, h⟩
    · obtain ⟨e, he, hb⟩ := hbad s a List.mem_cons_self hs ha
      rw [List.foldlM_cons, he]
      exact .inr ⟨fun hall => ha (hall a List.mem_cons_self), e, rfl, hb⟩

namespace Lowering

variable {l l' : Lowering} {D : Nat → String → Prop} {ids : List String} {i : Nat} {site : NodeId}

/-- A generated `var` is declared unless it is refused. -/
theorem declare_cases (hs : l.bound.scopes.WellFormed) (scope : Option ScopeId) (name : String) :
    (¬l.bound.scopes.Refuses scope name ∧ ∃ l', l.declare scope name = .ok l') ∨
      (l.bound.scopes.Refuses scope name ∧
        ∃ e, l.declare scope name = .error e ∧ e.IsRefusal name) := by
  unfold declare
  extract_lets s
  split
  · next hp => exact .inr ⟨.inl hp, _, rfl, .inl rfl⟩
  · next hp =>
    unfold Draft.declareVar
    rcases declare_var_cases hs scope name with ⟨hb, t, target, hd⟩ | ⟨hb, d, hd⟩
    · refine .inl ⟨fun h => h.elim hp hb, ?_⟩
      rw [show l.draft.scopes.declare scope name .var none none = _ from hd]
      exact ⟨_, rfl⟩
    · refine .inr ⟨.inr hb, ?_⟩
      rw [show l.draft.scopes.declare scope name .var none none = _ from hd]
      exact ⟨_, rfl, .inr (by rw [name_of_declare hd])⟩

/-! ## Generated names -/

/-- The names given out are none of the identifiers `ids`, of which there are not too many, and what
is none of them may be declared anywhere. -/
structure Ready (ids : List String) (l : Lowering) : Prop where
  few : ids.length < maxProbes
  wellFormed : l.bound.scopes.WellFormed
  fresh : l.draft.names.Fresh ids
  free : ∀ {name : String}, '$' ∈ name.toList → name ∉ ids →
    ∀ scope, ¬l.bound.scopes.Refuses scope name

/-- The failure at a keyword in the body of wrap `i`, if there is no scope for its variable. -/
def StuckAt (l : Lowering) (i : Nat) (e : Failure) : Prop :=
  ∃ w a site, l.wraps[i]? = some w ∧ aliasScope? l.bound w.scope = none ∧
    site ∈ l.sitesOf i (Alias.siteKind a) ∧
      e = l.bound.unit.defectAt .loopClosureNotTransformable site a.keyword

theorem StuckAt.isLoopDiagnostic {e : Failure} (h : l.StuckAt i e) : e.IsLoopDiagnostic := by
  obtain ⟨w, a, site, -, -, -, rfl⟩ := h
  exact CompilationUnit.isLoopDiagnostic_defectAt _ (.inr rfl)

theorem Advances.stuckAt_iff (h : Advances l l') {e : Failure} :
    l'.StuckAt i e ↔ l.StuckAt i e := by
  have hunit : l'.bound.unit = l.bound.unit := by
    rw [h.bound]
    rfl
  simp only [StuckAt, h.wraps, h.aliasScope?, h.sitesOf, hunit]

namespace Ready

theorem records (h : Ready ids l) (hr : Records D l l') : Ready ids l' where
  few := h.few
  wellFormed := h.wellFormed.of_sameShape hr.vars.shape
  fresh := hr.fresh h.fresh
  free hd hn scope := fun hrefuses => h.free hd hn scope (hr.vars.refuses_iff.1 hrefuses)

/-- A name that was given out may be declared anywhere. -/
theorem free_permanent (h : Ready ids l) {key name : String}
    (hk : l.draft.names.permanent? key = some name) (scope : Option ScopeId) :
    ¬l.bound.scopes.Refuses scope name := by
  obtain ⟨k, rfl⟩ := h.fresh.candidate hk
  exact h.free (Names.dollar_mem_candidate _ _) (h.fresh.notMem hk) scope

theorem exists_permanentName (h : Ready ids l) (key : String) :
    ∃ l' name, l.permanentName key = .ok (l', name) := by
  obtain ⟨n, name, hn⟩ := h.fresh.exists_permanentName h.few key
  refine ⟨_, name, bind_eq_ok.2 ⟨_, bind_eq_ok.2 ⟨_, hn, rfl⟩, rfl⟩⟩

theorem exists_declare (h : Ready ids l) {key name : String}
    (hk : l.draft.names.permanent? key = some name) (scope : Option ScopeId) :
    ∃ l', l.declare scope name = .ok l' := by
  rcases declare_cases h.wellFormed scope name with ⟨-, hok⟩ | ⟨hr, -⟩
  · exact hok
  · exact absurd hr (h.free_permanent hk scope)

/-! ## Bodies -/

theorem exists_adaptJump (h : Ready ids l) : ∃ l', adaptJump i l site = .ok l' := by
  unfold adaptJump
  split
  · split
    · exact ⟨_, rfl⟩
    · next r _ =>
      obtain ⟨l₁, flag, h₁⟩ := h.exists_permanentName r.flagKey
      exact ⟨_, bind_eq_ok.2 ⟨_, h₁, rfl⟩⟩
  · exact ⟨_, rfl⟩

theorem exists_adaptReturn (h : Ready ids l) : ∃ l', adaptReturn i l site = .ok l' := by
  unfold adaptReturn
  split
  · split
    · obtain ⟨l₁, flag, h₁⟩ := h.exists_permanentName Relay.returnVoid.flagKey
      exact ⟨_, bind_eq_ok.2 ⟨_, h₁, rfl⟩⟩
    · next a _ =>
      obtain ⟨l₁, flag, h₁⟩ := h.exists_permanentName (Relay.ofArgument a.form).flagKey
      exact ⟨_, bind_eq_ok.2 ⟨_, h₁, rfl⟩⟩
  · exact ⟨_, rfl⟩

theorem exists_aliasFor (h : Ready ids l) (a : Alias) (site : NodeId) {scope target : ScopeId}
    (ht : aliasScope? l.bound scope = some target) : ∃ r, aliasFor a scope site l = .ok r := by
  obtain ⟨l₁, name, h₁⟩ := h.exists_permanentName a.key
  have hname := (permanentName_quiet (P := fun _ => True) h₁).2
  unfold aliasFor
  rw [ht]
  dsimp -zeta only
  rw [h₁, ok_bind]
  dsimp -zeta only
  split
  · exact ⟨_, rfl⟩
  · extract_lets l₂ l₃
    have h₃ : Records nothing l₁ l₃ :=
      (aliases_records l₁ _).thenNothing (insertAfter_records l₂ _ _)
    have hready := (h.records (permanentName_records h₁)).records h₃
    obtain ⟨l₄, h₄⟩ := hready.exists_declare (h₃.names.kept hname) target
    exact ⟨_, bind_eq_ok.2 ⟨_, h₄, rfl⟩⟩

/-- Variables are put for the sites of a keyword unless there is no scope for them. -/
theorem adaptAlias_cases (h : Ready ids l) (a : Alias) (scope : ScopeId) (sites : List NodeId) :
    ((sites ≠ [] → aliasScope? l.bound scope ≠ none) ∧
        ∃ l', adaptAlias a scope l sites = .ok l') ∨
      aliasScope? l.bound scope = none ∧ ∃ site ∈ sites, adaptAlias a scope l sites =
        .error (l.bound.unit.defectAt .loopClosureNotTransformable site a.keyword) := by
  unfold adaptAlias
  cases sites with
  | nil => exact .inl ⟨absurd rfl, l, rfl⟩
  | cons site sites =>
    cases ht : aliasScope? l.bound scope with
    | none =>
      refine .inr ⟨rfl, site, List.mem_cons_self, ?_⟩
      simp only [aliasFor, ht]
      rfl
    | some target =>
      obtain ⟨r, hr⟩ := h.exists_aliasFor a site ht
      exact .inl ⟨fun _ => Option.some_ne_none target, _, bind_eq_ok.2 ⟨r, hr, rfl⟩⟩

/-- A body is adapted unless there is no scope for the variable of a keyword. -/
theorem adaptBody_cases (h : Ready ids l) (i : Nat) :
    ((∀ e, ¬l.StuckAt i e) ∧ ∃ l', adaptBody l i = .ok l') ∨
      ∃ e, l.StuckAt i e ∧ adaptBody l i = .error e := by
  cases hw : l.wraps[i]? with
  | none =>
    refine .inl ⟨?_, l, ?_⟩
    · rintro e ⟨w, a, site, hw', -⟩
      cases hw.symm.trans hw'
    · unfold adaptBody
      rw [hw]
  | some w =>
    obtain ⟨l₁, h₁⟩ : ∃ l₁, (l.sitesOf i .jump).foldlM (adaptJump i) l = .ok l₁ :=
      exists_foldlM h fun _ _ _ hs => by
        obtain ⟨t, ht⟩ := hs.exists_adaptJump
        exact ⟨t, ht, hs.records (adaptJump_records ht)⟩
    have hr₁ := Records.foldlM_nothing adaptJump_records h₁
    obtain ⟨l₂, h₂⟩ : ∃ l₂, (l.sitesOf i .returns).foldlM (adaptReturn i) l₁ = .ok l₂ :=
      exists_foldlM (h.records hr₁) fun _ _ _ hs => by
        obtain ⟨t, ht⟩ := hs.exists_adaptReturn
        exact ⟨t, ht, hs.records (adaptReturn_records ht)⟩
    have hr₂ := hr₁.thenNothing (Records.foldlM_nothing adaptReturn_records h₂)
    have hstuck {t : Lowering} (ht : Records nothing l t) (a : Alias) {site : NodeId}
        (hnone : aliasScope? t.bound w.scope = none) (hs : site ∈ l.sitesOf i a.siteKind) :
        l.StuckAt i (t.bound.unit.defectAt .loopClosureNotTransformable site a.keyword) :=
      ht.toAdvances.stuckAt_iff.1
        ⟨w, a, site, ht.wraps ▸ hw, hnone, (ht.toAdvances.sitesOf i _).symm ▸ hs, rfl⟩
    rw [adaptBody_eq hw, h₁, ok_bind, h₂, ok_bind]
    rcases (h.records hr₂).adaptAlias_cases .this w.scope (l.sitesOf i .this) with
      ⟨hthis, l₃, h₃⟩ | ⟨hnone, site, hs, he⟩
    · have hr₃ := hr₂.thenNothing (adaptAlias_records h₃)
      rw [h₃, ok_bind]
      rcases (h.records hr₃).adaptAlias_cases .arguments w.scope (l.sitesOf i .arguments) with
        ⟨harguments, l₄, h₄⟩ | ⟨hnone, site, hs, he⟩
      · refine .inl ⟨?_, _, bind_eq_ok.2 ⟨l₄, h₄, rfl⟩⟩
        rintro e ⟨w', a, site, hw', hnone, hs, -⟩
        cases hw.symm.trans hw'
        cases a with
        | this =>
          exact hthis (List.ne_nil_of_mem hs) ((hr₂.toAdvances.aliasScope? _).trans hnone)
        | arguments =>
          exact harguments (List.ne_nil_of_mem hs) ((hr₃.toAdvances.aliasScope? _).trans hnone)
      · exact .inr ⟨_, hstuck hr₃ .arguments hnone hs, by rw [he]; rfl⟩
    · exact .inr ⟨_, hstuck hr₂ .this hnone hs, by rw [he]; rfl⟩

/-- All bodies are adapted unless there is no scope for the variable of a keyword. -/
theorem adaptBodies_cases (h : Ready ids l) (order : List Nat) :
    ((∀ i ∈ order, ∀ e, ¬l.StuckAt i e) ∧ ∃ l', order.foldlM adaptBody l = .ok l') ∨
      (¬∀ i ∈ order, ∀ e, ¬l.StuckAt i e) ∧
        ∃ e, order.foldlM adaptBody l = .error e ∧ ∃ i, l.StuckAt i e := by
  refine foldlM_ok_or_error (I := fun t => Ready ids t ∧ Advances l t) ⟨h, .refl l⟩
    (fun s t i _ hs ht => ?_) (fun s i _ hs hgood => ?_) (fun s i _ hs hbad => ?_)
  · have hr := adaptBody_records ht
    exact ⟨hs.1.records hr, hs.2.trans hr.toAdvances⟩
  · rcases hs.1.adaptBody_cases i with ⟨-, hok⟩ | ⟨e, he, -⟩
    · exact hok
    · exact absurd (hs.2.stuckAt_iff.1 he) (hgood e)
  · rcases hs.1.adaptBody_cases i with ⟨hnone, -⟩ | ⟨e, he, herror⟩
    · exact absurd (fun e he => hnone e (hs.2.stuckAt_iff.2 he)) hbad
    · exact ⟨e, herror, i, hs.2.stuckAt_iff.1 he⟩

/-! ## Relays -/

theorem exists_valueName? (h : Ready ids l) (valued : Bool) :
    ∃ l' value, l.valueName? valued = .ok (l', value) := by
  unfold valueName?
  split
  · obtain ⟨l', name, hname⟩ := h.exists_permanentName "value"
    exact ⟨l', some name, map_eq_ok.2 ⟨_, hname, rfl⟩⟩
  · exact ⟨l, none, rfl⟩

theorem exists_checkOf (h : Ready ids l) (flag : String) (r : Relay) :
    ∃ l' check, l.checkOf flag r = .ok (l', check) := by
  cases r with
  | break_ label => cases label <;> exact ⟨_, _, rfl⟩
  | continue_ label | returnVoid => exact ⟨_, _, rfl⟩
  | returnPrimitive =>
    obtain ⟨l₁, value, h₁⟩ := h.exists_permanentName "value"
    exact ⟨_, _, bind_eq_ok.2 ⟨_, h₁, rfl⟩⟩
  | returnValue =>
    obtain ⟨l₁, value, h₁⟩ := h.exists_permanentName "value"
    obtain ⟨l₂, caught, h₂⟩ := (h.records (permanentName_records h₁)).exists_permanentName "rp"
    exact ⟨_, _, bind_eq_ok.2 ⟨_, h₁, bind_eq_ok.2 ⟨_, h₂, rfl⟩⟩⟩

theorem exists_resolveRelay (h : Ready ids l) (r : Relay) :
    ∃ l', resolveRelay i l r = .ok l' := by
  obtain ⟨l₁, flag, h₁⟩ := h.exists_permanentName r.flagKey
  have hready := h.records (permanentName_records h₁)
  obtain ⟨l₂, value, hvalue⟩ := hready.exists_valueName? r.isValued
  obtain ⟨l₃, check, hcheck⟩ := hready.exists_checkOf flag r
  unfold resolveRelay
  rw [h₁, ok_bind]
  dsimp only
  split
  · exact ⟨_, bind_eq_ok.2 ⟨_, hvalue, rfl⟩⟩
  · exact ⟨_, bind_eq_ok.2 ⟨_, hcheck, rfl⟩⟩

theorem exists_resolveRelays (h : Ready ids l) (i : Nat) : ∃ l', l.resolveRelays i = .ok l' :=
  exists_foldlM h fun _ r _ hs => by
    obtain ⟨t, ht⟩ := hs.exists_resolveRelay r
    exact ⟨t, ht, hs.records (resolveRelay_records ht (.refl _))⟩

theorem exists_foldlM_resolveRelays (h : Ready ids l) (order : List Nat) :
    ∃ l', order.foldlM resolveRelays l = .ok l' :=
  exists_foldlM h fun _ i _ hs => by
    obtain ⟨t, ht⟩ := hs.exists_resolveRelays i
    exact ⟨t, ht, hs.records (resolveRelays_records ht (.refl _))⟩

end Ready

/-! ## Calls -/

/-- The name is noted for wrap `i`, which has no parent, but refused where its call stands. -/
def Refused (l : Lowering) (i : Nat) (v : String) : Prop :=
  ∃ w, l.wraps[i]? = some w ∧ l.parent? i = none ∧ v ∈ (l.exit i).declared ∧
    l.bound.scopes.Refuses (l.bound.nodeScope? w.loop) v

theorem Records.refused_iff (h : Records nothing l l') {v : String} :
    l'.Refused i v ↔ l.Refused i v := by
  have hdeclared : v ∈ (l'.exit i).declared ↔ v ∈ (l.exit i).declared := by
    rw [h.declared, or_iff_left (fun hn => hn.2)]
  simp only [Refused, h.wraps, h.parent?, hdeclared, h.vars.refuses_iff]
  rw [h.bound]
  rfl

theorem Ready.declareAll_cases (h : Ready ids l) (loop : NodeId) (names : List String) :
    ((∀ v ∈ names, ¬l.bound.scopes.Refuses (l.bound.nodeScope? loop) v) ∧
        ∃ l', names.foldlM (fun l name => l.declare (l.bound.nodeScope? loop) name) l = .ok l') ∨
      (¬∀ v ∈ names, ¬l.bound.scopes.Refuses (l.bound.nodeScope? loop) v) ∧
        ∃ e, names.foldlM (fun l name => l.declare (l.bound.nodeScope? loop) name) l = .error e ∧
          ∃ v ∈ names, l.bound.scopes.Refuses (l.bound.nodeScope? loop) v ∧ e.IsRefusal v := by
  refine foldlM_ok_or_error (I := fun t => Records nothing l t) (.refl l)
    (fun s t v _ hs ht => hs.thenNothing (declare_records ht)) (fun s v _ hs hgood => ?_)
    (fun s v hv hs hnot => ?_)
  all_goals
    have hscope : s.bound.nodeScope? loop = l.bound.nodeScope? loop := by
      rw [hs.bound]
      rfl
    have hcases := declare_cases (h.records hs).wellFormed (s.bound.nodeScope? loop) v
    rw [hs.vars.refuses_iff, hscope] at hcases
    rw [hscope]
    rcases hcases with ⟨hr, hok⟩ | ⟨hr, e, he, hrefusal⟩
  · exact hok
  · exact absurd hr hgood
  · exact absurd hr hnot
  · exact ⟨e, he, v, hv, hr, hrefusal⟩

/-- What is written and declared for a call. -/
theorem writeCall_eq {w : Wrap} {body : Node} {l₁ : Lowering} {value : Option String}
    (hw : l.wraps[i]? = some w) (hbody : l.nodes.get? w.body = some body)
    (hvalue : l.valueName? (l.exit i).valued = .ok (l₁, value)) :
    ∃ l₂, Records nothing l l₂ ∧ l₂.bound = l₁.bound ∧ l.writeCall i =
      (if (l₁.parent? i).isNone then (l.exit i).declared ++ value.toList else []).foldlM
        (fun l name => l.declare (l.bound.nodeScope? w.loop) name) l₂ := by
  unfold writeCall
  rw [hw]
  dsimp -zeta only
  rw [hbody]
  dsimp -zeta only
  extract_lets e params tail
  rw [show l.valueName? e.valued = _ from hvalue, ok_bind]
  dsimp -zeta only
  extract_lets declared head l₂
  refine ⟨l₂, (valueName?_records hvalue).thenNothing ?_, ?_, rfl⟩ <;> dsimp only [l₂] <;> split
  · exact (insert_records _ _ _).thenNothing (insert_records _ _ _)
  · exact (insert_records _ _ _).thenNothing (insert_records _ _ _)
  · rfl
  · rfl

/-- A call is written unless a name that is noted for it is refused. -/
theorem Ready.writeCall_cases (h : Ready ids l)
    (hbody : ∀ w : Wrap, l.wraps[i]? = some w → ∃ body, l.nodes.get? w.body = some body) :
    ((∀ v, ¬l.Refused i v) ∧ ∃ l', l.writeCall i = .ok l') ∨
      (¬∀ v, ¬l.Refused i v) ∧
        ∃ e, l.writeCall i = .error e ∧ ∃ v, l.Refused i v ∧ e.IsRefusal v := by
  cases hw : l.wraps[i]? with
  | none =>
    refine .inl ⟨?_, l, ?_⟩
    · rintro v ⟨w, hw', -⟩
      rw [hw] at hw'
      cases hw'
    · unfold writeCall
      rw [hw]
  | some w =>
    obtain ⟨body, hb⟩ := hbody w hw
    obtain ⟨l₁, value, hvalue⟩ := h.exists_valueName? (l.exit i).valued
    have h₁ := valueName?_records hvalue
    obtain ⟨l₂, h₂, -, heq⟩ := writeCall_eq hw hb hvalue
    rw [heq, h₁.parent?]
    have hscope : l₂.bound.nodeScope? w.loop = l.bound.nodeScope? w.loop := by
      rw [h₂.bound]
      rfl
    -- The variable for the result is a generated name.
    have hresult {v : String} (hv : v ∈ value.toList) :
        ¬l.bound.scopes.Refuses (l.bound.nodeScope? w.loop) v := by
      have hperm := (valueName?_quiet (P := fun _ => True) hvalue).2.1
      rw [Option.mem_toList.1 hv] at hperm
      split at hperm
      · exact fun hr => (h.records h₁).free_permanent hperm.symm _ (h₁.vars.refuses_iff.2 hr)
      · cases hperm
    by_cases hp : l.parent? i = none
    · have hcases := (h.records h₂).declareAll_cases w.loop ((l.exit i).declared ++ value.toList)
      simp only [h₂.vars.refuses_iff, hscope] at hcases
      rw [if_pos (Option.isNone_iff_eq_none.2 hp)]
      rcases hcases with ⟨hall, hok⟩ | ⟨-, e, he, v, hv, hr, hrefusal⟩
      · refine .inl ⟨?_, hok⟩
        rintro v ⟨w', hw', -, hv, hr⟩
        rw [hw, Option.some.injEq] at hw'
        subst hw'
        exact hall v (List.mem_append_left _ hv) hr
      · have hv' : v ∈ (l.exit i).declared :=
          (List.mem_append.1 hv).resolve_right fun hv => hresult hv hr
        have hrefused : l.Refused i v := ⟨w, hw, hp, hv', hr⟩
        exact .inr ⟨fun hall => hall v hrefused, e, he, v, hrefused, hrefusal⟩
    · rw [if_neg (mt Option.isNone_iff_eq_none.1 hp)]
      refine .inl ⟨?_, l₂, rfl⟩
      rintro v ⟨w', -, hp', -⟩
      exact hp hp'

theorem Ready.writeCalls_cases (h : Ready ids l) (order : List Nat)
    (hbody : ∀ (i : Nat) (w : Wrap), l.wraps[i]? = some w → ∃ body, l.nodes.get? w.body = some body) :
    ((∀ i ∈ order, ∀ v, ¬l.Refused i v) ∧ ∃ l', order.foldlM writeCall l = .ok l') ∨
      (¬∀ i ∈ order, ∀ v, ¬l.Refused i v) ∧
        ∃ e, order.foldlM writeCall l = .error e ∧ ∃ i v, l.Refused i v ∧ e.IsRefusal v := by
  refine foldlM_ok_or_error (I := fun t => Records nothing l t) (.refl l)
    (fun s t i _ hs ht => hs.thenNothing (writeCall_records ht)) (fun s i _ hs hgood => ?_)
    (fun s i _ hs hnot => ?_)
  all_goals
    have hcases := (h.records hs).writeCall_cases (i := i) fun w hw =>
      hs.nodes ▸ hbody i w (hs.wraps ▸ hw)
    simp only [hs.refused_iff] at hcases
    rcases hcases with ⟨hr, hok⟩ | ⟨hr, e, he, v, hv, hrefusal⟩
  · exact hok
  · exact absurd hgood hr
  · exact absurd hr hnot
  · exact ⟨e, he, i, v, hv, hrefusal⟩

/-! ## All of it -/

/-- A `var` in a wrapped body binds the name, which is refused where the outermost call around it
stands. -/
def RefusesHoisted (l : Lowering) (v : String) : Prop :=
  ∃ k w, l.wraps[k]? = some w ∧ l.parent? k = none ∧ l.Hoists k v ∧
    l.bound.scopes.Refuses (l.bound.nodeScope? w.loop) v

/-- Before the calls are written, the names that are refused are those of `var`s. -/
theorem Ready.refused_iff (h : Ready ids l) (hn : l.Nested) (hsize : l.exits.size = l.wraps.size)
    (hempty : ∀ k, l.exit k = {}) {l₁ l₂ : Lowering}
    (h₁ : l.inSourceOrder.foldlM adaptBody l = .ok l₁)
    (h₂ : l.innerFirst.foldlM resolveRelays l₁ = .ok l₂) (v : String) :
    (∃ k, l₂.Refused k v) ↔ l.RefusesHoisted v := by
  have hr := declares hn hsize hempty h₁ h₂ (.refl _)
  refine exists_congr fun k => ?_
  have hdeclared : v ∈ (l₂.exit k).declared ↔
      k < l.exits.size ∧ (l.Hoists k v ∨ l.Flags l₂.draft.names k v) := by
    rw [hr.declared, hempty, or_iff_right (List.not_mem_nil)]
  simp only [Refused, hr.wraps, hr.parent?, hdeclared, hr.vars.refuses_iff]
  rw [show l₂.bound.nodeScope? = l.bound.nodeScope? by rw [hr.bound]; rfl]
  refine exists_congr fun w => and_congr_right fun hw => and_congr_right fun _ => ?_
  constructor
  · rintro ⟨⟨-, hhoists | ⟨i, -, r, -, -, -, hflag⟩⟩, hrefuses⟩
    · exact ⟨hhoists, hrefuses⟩
    · exact absurd (hr.vars.refuses_iff.2 hrefuses) ((h.records hr).free_permanent hflag _)
  · rintro ⟨hhoists, hrefuses⟩
    exact ⟨⟨hsize ▸ (Array.getElem?_eq_some_iff.1 hw).1, .inl hhoists⟩, hrefuses⟩

/-- The rewriting fails with a loop diagnostic, or it ends, or a hoisted name is refused. -/
theorem Ready.finish_outcome (h : Ready ids l) (hn : l.Nested)
    (hsize : l.exits.size = l.wraps.size) (hempty : ∀ k, l.exit k = {}) :
    (∃ e, l.finish = .error e ∧ e.IsLoopDiagnostic) ∨
      ((∀ v, ¬l.RefusesHoisted v) ∧ ∃ l', l.finish = .ok l') ∨
        ∃ v e, l.RefusesHoisted v ∧ l.finish = .error e ∧ e.IsRefusal v := by
  rcases h.adaptBodies_cases l.inSourceOrder with ⟨-, l₁, h₁⟩ | ⟨-, e, he, i, hstuck⟩
  · have hr₁ := adaptBodies_records h₁
    obtain ⟨l₂, h₂⟩ := (h.records hr₁).exists_foldlM_resolveRelays l.innerFirst
    have hr₂ := declares hn hsize hempty h₁ h₂ (.refl _)
    have hfinish : l.finish = l.innerFirst.foldlM writeCall l₂ := by
      unfold finish
      rw [h₁, ok_bind, hr₁.toKeeps.innerFirst, h₂, ok_bind, hr₂.toKeeps.innerFirst]
    have hrefused := h.refused_iff hn hsize hempty h₁ h₂
    have hbody (i : Nat) (w : Wrap) (hw : l₂.wraps[i]? = some w) :
        ∃ body, l₂.nodes.get? w.body = some body := by
      obtain ⟨form, hf, hbody⟩ := hn.wraps.loop (hr₂.wraps ▸ hw)
      rw [hr₂.nodes]
      exact Nodes.exists_get?_of_parent?_eq_some
        (Nodes.parent?_of_form? hn.nodes hf (Form.mem_children_of_loopBody? hbody))
    rcases (h.records hr₂).writeCalls_cases l.innerFirst hbody with
      ⟨hall, hok⟩ | ⟨-, e, he, k, v, hv, hrefusal⟩
    · refine .inr (.inl ⟨fun v hv => ?_, hfinish ▸ hok⟩)
      obtain ⟨k, hk⟩ := (hrefused v).2 hv
      have hlt : k < l.wraps.size := by
        obtain ⟨w, hw, -⟩ := hk
        exact (Array.getElem?_eq_some_iff.1 (hr₂.wraps ▸ hw)).1
      exact hall k (mem_innerFirst.2 hlt) v hk
    · exact .inr (.inr ⟨v, e, (hrefused v).1 ⟨k, hv⟩, hfinish ▸ he, hrefusal⟩)
  · refine .inl ⟨e, ?_, hstuck.isLoopDiagnostic⟩
    unfold finish
    rw [he]
    rfl

end Lowering

/-! ## Sources -/

/-- A name that the lowering of a unit hoists is refused, given the loops that it wraps. -/
def Bound.RefusesHoisted (b : Bound) (v : String) : Prop :=
  ∃ b' wraps, b.wrapLoops = .ok (b', wraps) ∧ (Lowering.ofWraps b' wraps).RefusesHoisted v

/-- Once the loops are wrapped, the names to come may be declared anywhere. -/
theorem Lowering.ready_ofWraps {b b' : Bound} {wraps : Array Wrap} (hb : b.WellScoped)
    (hids : b.identifiers.length < maxProbes) (hfree : ∀ {name : String}, '$' ∈ name.toList →
      name ∉ b.identifiers → b.scopes.Avoids name) (hw : b.wrapLoops = .ok (b', wraps)) :
    (Lowering.ofWraps b' wraps).Ready b'.identifiers := by
  have hknown := Bound.KnowsNoMore.wrapAll hw
  refine ⟨hknown.identifiers ▸ hids, (Bound.wrapAll_extends hb hw).1.wellFormed,
    Names.fresh_of_taken _, fun hd hn scope => ?_⟩
  exact (hknown.avoids (hfree hd (hknown.identifiers ▸ hn))).not_refuses scope

/-- The lowering of a unit fails with a loop diagnostic, or it ends, or a hoisted name is refused. -/
theorem lowering_cases {b : Bound} (hb : b.WellScoped) (ht : b.Total) (hns : b.nodes.WellFormed)
    (hids : b.identifiers.length < maxProbes) (hfree : ∀ {name : String}, '$' ∈ name.toList →
      name ∉ b.identifiers → b.scopes.Avoids name) :
    (∃ e, lowering b = .error e ∧ e.IsLoopDiagnostic) ∨
      ((∀ v, ¬b.RefusesHoisted v) ∧ ∃ l, lowering b = .ok l) ∨
        ∃ v e, b.RefusesHoisted v ∧ lowering b = .error e ∧ e.IsRefusal v := by
  unfold lowering
  cases hw : b.wrapLoops with
  | error e => exact .inl ⟨e, rfl, Bound.wrapLoops_diagnosed hb ht hns e hw⟩
  | ok r =>
    obtain ⟨b', wraps⟩ := r
    have hext := (Bound.wrapAll_extends hb hw).2
    have hnested : (Lowering.ofWraps b' wraps).Nested :=
      Lowering.nested_ofWraps (hext.nodes ▸ hns)
        (hext.nodes ▸ Bound.wrapAll_wrapsOf hb (.empty _) hw)
    have hready := Lowering.ready_ofWraps hb hids hfree hw
    have hcases :=
      hready.finish_outcome hnested Array.size_replicate (Lowering.exit_ofWraps b' wraps)
    have hrefuses (v : String) :
        b.RefusesHoisted v ↔ (Lowering.ofWraps b' wraps).RefusesHoisted v := by
      constructor
      · rintro ⟨b'', wraps', hw', hv⟩
        cases hw.symm.trans hw'
        exact hv
      · exact fun hv => ⟨b', wraps, hw, hv⟩
    simp only [hrefuses]
    exact hcases

section Sources

variable {file : String} {source : List Char} {options : Options} {t : Syntax.Tree} {b : Bound}

/-- Of a source with fewer identifiers than probes, the declarations of a lowering are recorded
unless a name that it hoists is refused. -/
theorem lowering_diagnosed_iff (hparse : Grammar.parse source = .ok t)
    (hbind : bind { file, source, nodes := .ofTree t, options } = .ok b)
    (hids : b.identifiers.length < maxProbes) :
    (Diagnosed (lowering b) ↔
        (∃ e, lowering b = .error e ∧ e.IsLoopDiagnostic) ∨ ∀ v, ¬b.RefusesHoisted v) ∧
      (¬Diagnosed (lowering b) → ∃ v e, b.RefusesHoisted v ∧ lower b = .error e ∧ e.IsRefusal v) := by
  have hnodes : b.nodes = .ofTree t := congrArg CompilationUnit.nodes (bind_unit hbind)
  have hns : b.nodes.WellFormed :=
    hnodes ▸ Nodes.wellFormed_ofTree (Grammar.parse_wellFormed hparse)
  rcases lowering_cases (bind_wellScoped hbind).1 (bind_total hbind) hns hids
    (fun hd hn => bind_avoids hbind hd hn) with ⟨e, he, hd⟩ | ⟨hall, l, hl⟩ | ⟨v, e, hv, he, hr⟩
  · have hdiag : Diagnosed (lowering b) := fun e' he' => by
      cases he.symm.trans he'
      exact hd
    exact ⟨iff_of_true hdiag (.inl ⟨e, he, hd⟩), fun hnot => absurd hdiag hnot⟩
  · have hdiag : Diagnosed (lowering b) := .of_exists ⟨l, hl⟩
    exact ⟨iff_of_true hdiag (.inr hall), fun hnot => absurd hdiag hnot⟩
  · have hnot : ¬e.IsLoopDiagnostic := by
      rcases hr with rfl | rfl <;> exact id
    refine ⟨iff_of_false (fun hdiag => hnot (hdiag e he)) ?_, fun _ => ⟨v, e, hv, lower_eq_error he, hr⟩⟩
    rintro (⟨e', he', hd⟩ | hall)
    · cases he.symm.trans he'
      exact hnot hd
    · exact hall v hv

/-- A `var` in a wrapped body that is not known around the loop. -/
def hoistedVar : List Char := "for (const x of xs) { var e = 1; f(() => x); }".toList

theorem lowering_diagnosed_hoistedVar : ∃ t b, Grammar.parse hoistedVar = .ok t ∧
    bind { file := "", source := hoistedVar, nodes := .ofTree t, options := {} } = .ok b ∧
      b.identifiers.length < maxProbes ∧ Diagnosed (lowering b) ∧ ∀ v, ¬b.RefusesHoisted v := by
  have hrun : okAnd (Grammar.parse hoistedVar) (fun t =>
      okAnd (bind { file := "", source := hoistedVar, nodes := .ofTree t, options := {} }) fun b =>
        decide (b.identifiers.length < maxProbes) && okAnd (lowering b) fun _ => true) = true := by
    decide +kernel
  obtain ⟨t, hparse, hrun⟩ := okAnd_iff.1 hrun
  obtain ⟨b, hbind, hrun⟩ := okAnd_iff.1 hrun
  rw [Bool.and_eq_true, decide_eq_true_eq] at hrun
  obtain ⟨hids, hrun⟩ := hrun
  obtain ⟨l, hl, -⟩ := okAnd_iff.1 hrun
  have hdiag : Diagnosed (lowering b) := .of_exists ⟨l, hl⟩
  refine ⟨t, b, hparse, hbind, hids, hdiag, ?_⟩
  rcases (lowering_diagnosed_iff hparse hbind hids).1.1 hdiag with ⟨e, he, -⟩ | hall
  · cases hl.symm.trans he
  · exact hall

/-- The name is caught by a `catch` of the same function. -/
def hoistedCaught : List Char :=
  "try {} catch (e) {} for (const x of xs) { var e = 1; f(() => x); }".toList

theorem not_diagnosed_hoistedCaught : ∃ t b, Grammar.parse hoistedCaught = .ok t ∧
    bind { file := "", source := hoistedCaught, nodes := .ofTree t, options := {} } = .ok b ∧
      b.identifiers.length < maxProbes ∧
        lower b = .error (.internal "synthetic name e shadows an outer binding") ∧
          ¬((∃ out, lower b = .ok out) ∨ ∃ e, lower b = .error e ∧ e.IsLoopDiagnostic) := by
  have hrun : okAnd (Grammar.parse hoistedCaught) (fun t =>
      okAnd (bind { file := "", source := hoistedCaught, nodes := .ofTree t, options := {} }) fun b =>
        decide (b.identifiers.length < maxProbes) &&
          decide (lower b = .error (.internal "synthetic name e shadows an outer binding"))) =
      true := by
    decide +kernel
  obtain ⟨t, hparse, hrun⟩ := okAnd_iff.1 hrun
  obtain ⟨b, hbind, hrun⟩ := okAnd_iff.1 hrun
  rw [Bool.and_eq_true, decide_eq_true_eq, decide_eq_true_eq] at hrun
  refine ⟨t, b, hparse, hbind, hrun.1, hrun.2, ?_⟩
  rintro (⟨out, hout⟩ | ⟨e, he, hd⟩)
  · cases hrun.2.symm.trans hout
  · cases hrun.2.symm.trans he
    exact hd

end Sources

end LoopClosure
