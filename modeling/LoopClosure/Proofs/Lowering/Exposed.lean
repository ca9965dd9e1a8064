import LoopClosure.Proofs.Lowering.Follows
import LoopClosure.Proofs.Lowering.Insertions
import LoopClosure.Proofs.Lowering.Recording
import LoopClosure.Proofs.Lowering.Renewal
import LoopClosure.Proofs.Scope.Leads

/-!
# Declarations that nothing passes

`finish` declares variables as `var`s, and only where the name has no mark. A hoisting scope without
the mark lies on no way from a reference to a binding, unless it is the scope of a wrapped body, so a
`var` that goes to no wrapped body comes between no reference and its binding
(`Scopes.Leads.declare`).

- `Lowering.Open l`: from the calls without parent, and from the places of the aliases, nothing goes
  to a wrapped body.
- `Lowering.Spares l l'`: a step leaves all ways to names as they are. In an open state so do all the
  steps of `finish` (`finish_spares`).
-/

namespace LoopClosure

open Syntax Scopes Binding

namespace Scopes

variable {s t : Scopes} {id : Option ScopeId} {j target x : ScopeId} {name other : String}

theorem find?_of_hoistTarget {ids : List ScopeId} (h : s.hoistTarget name ids = .ok (some j)) :
    ids.find? (fun id : ScopeId => s.kind? id = some .hoist) = some j := by
  induction ids with
  | nil => cases h
  | cons id ids ih =>
    unfold hoistTarget at h
    split at h
    · cases h
    · next c hc =>
      have hkind : s.kind? (some id) = some c.kind := by rw [kind?, hc, Option.map_some]
      split at h
      · next hhoist =>
        cases h
        refine List.find?_cons_of_pos (decide_eq_true ?_)
        rw [hkind, of_decide_eq_true hhoist]
      · next hhoist =>
        split at h
        · cases h
        · rw [List.find?_cons_of_neg, ih h]
          rw [decide_eq_true_iff, hkind, Option.some.injEq]
          exact fun hk => hhoist (decide_eq_true hk)

/-- A `var` goes to the nearest hoisting scope. -/
theorem closestHoist?_of_declare
    (h : s.declare id name .var none none = .ok (t, some j)) : s.closestHoist? id = some j := by
  unfold declare at h
  rw [if_pos (show BindingKind.isHoisted .var = true from rfl)] at h
  dsimp only at h
  split at h
  · cases h
  · cases h
  · next y htarget =>
    have hy : y = j := by
      split at h
      · cases h
        rfl
      · split at h
        · split at h <;> cases h
          rfl
        · cases h
          rfl
    exact hy ▸ find?_of_hoistTarget htarget

/-- What is hoisted from a scope goes to no wrapped body. -/
def Exposed (s : Scopes) (id : Option ScopeId) : Prop :=
  ∀ j, s.closestHoist? id = some j → (s.flags (some j)).loopWrapper = false

theorem exposed_of_hoist {x : ScopeId} (hk : s.kind? (some x) = some .hoist)
    (hw : (s.flags (some x)).loopWrapper = false) : s.Exposed (some x) := by
  intro j hj
  rw [closestHoist?, walk, show maxWalk = 9999 + 1 from rfl, walkUp_succ] at hj
  simp only [List.find?_cons, hk, decide_true, Option.some.injEq] at hj
  exact hj ▸ hw

theorem VarsAdded.exposed (h : s.VarsAdded t) (he : s.Exposed id) : t.Exposed id := by
  intro j hj
  rw [h.flags]
  exact he j ((h.closestHoist? id).symm.trans hj)

/-- A declaration in a scope without the mark of the name comes on no way to a name. -/
theorem Leads.append (h : s.Leads name target x) (hj : j < s.size)
    (hnew : s.declaration? (some j) other = none) (hunmarked : ¬s.Marked j other)
    (d : Declaration) : (s.update (some j) (·.append other d)).Leads name target x := by
  let f : Scope → Scope := (·.append other d)
  have hparent (z : ScopeId) : (s.update (some j) f).parent? (some z) = s.parent? (some z) :=
    (SameShape.update s (some j) (f := f) ⟨fun _ => rfl, fun _ => rfl, fun _ => rfl⟩).parent? _
  have hsome (z : ScopeId) : ((s.update (some j) f).declaration? (some z) name).isSome =
      (decide (z = j ∧ name = other) || _) := isSome_declaration?_append hj
  have hmark (z : ScopeId) (hz : s.Marked z name) : (s.update (some j) f).Marked z name :=
    hz.update _ (fun _ => rfl) (fun c => List.Subset.refl _) fun _ hw => hw
  by_cases hname : name = other
  · subst hname
    refine (h.declared_or hparent (y := j) (fun z => ?_) hmark).resolve_right ?_
    · simpa only [and_true] using hsome z
    · rintro ⟨-, hup⟩
      cases hup with
      | here hthere =>
        rw [hnew] at hthere
        cases hthere
      | up _ hm => exact hunmarked hm
  · refine h.congr hparent (fun z => ?_) hmark
    rw [hsome, decide_eq_false fun e => hname e.2, Bool.false_or]

theorem Leads.declare {y : Option ScopeId} (h : s.Leads name target x) (he : s.Exposed id)
    (hp : s.hasPropagated (s.closestHoist? id) other = false)
    (hd : s.declare id other .var none none = .ok (t, y)) : t.Leads name target x := by
  rcases declare_cases hd with rfl | ⟨j, c, rfl, hc, hnone, rfl⟩
  · exact h
  have hj := closestHoist?_of_declare hd
  have hkind := List.find?_some (p := fun z : ScopeId => decide (s.kind? z = some .hoist)) hj
  refine h.append (lt_size_of_get? hc) ?_ (fun hm => ?_) _
  · rw [Scopes.declaration?, hc, Option.bind_some, hnone]
  · rcases hm (of_decide_eq_true hkind) with hmark | hwrapper
    · rw [hj, hmark] at hp
      cases hp
    · rw [he j hj] at hwrapper
      cases hwrapper

end Scopes

/-- The node of a scope lies in those of the scopes on the way up. -/
theorem Binding.Regions.inside_of_mem_walkUp {u : CompilationUnit} {s : Scopes}
    {table : Array ScopeId} (h : Regions u s table) {k : Nat} {x j : ScopeId} {n : NodeId}
    (hj : j ∈ s.walkUp k (some x)) (hn : s.node? (some j) = some n) :
    ∃ m, s.node? (some x) = some m ∧ u.nodes.Inside n m := by
  induction k generalizing x with
  | zero => cases hj
  | succ k ih =>
    rw [walkUp_succ] at hj
    rcases List.mem_cons.1 hj with rfl | hj
    · exact ⟨n, hn, .refl⟩
    · cases hp : s.parent? (some x) with
      | none =>
        rw [hp, walkUp_none] at hj
        cases hj
      | some p =>
        obtain ⟨o, ho, hin⟩ := ih (hp ▸ hj)
        obtain ⟨m, hm, hom⟩ := h.nest hp
        exact ⟨m, hm, hin.trans (hom o ho)⟩

theorem Bound.exists_of_mem_bodiesOf {wraps : Array Wrap} {body : NodeId}
    (h : body ∈ Bound.bodiesOf wraps) :
    ∃ (i : Nat) (w : Wrap), wraps[i]? = some w ∧ w.body = body := by
  obtain ⟨w, hw, rfl⟩ := List.mem_map.1 h
  obtain ⟨i, hi⟩ := Array.mem_iff_getElem?.1 (Array.mem_toList_iff.1 hw)
  exact ⟨i, w, hi, rfl⟩

/-- A scope whose node lies in no wrapped body is exposed. -/
theorem Bound.Follows.exposed {b : Bound} {bodies : List NodeId} (h : b.Follows bodies)
    {id : Option ScopeId}
    (hout : ∀ x m, id = some x → b.scopes.node? (some x) = some m →
      ∀ body ∈ bodies, ¬b.nodes.Inside body m) : b.scopes.Exposed id := by
  intro j hj
  rw [Bool.eq_false_iff]
  intro hw
  obtain ⟨n, hmem, hn⟩ := h.wrapper hw
  have hwalk := List.mem_of_find?_eq_some hj
  cases id with
  | none =>
    rw [walk, walkUp_none] at hwalk
    cases hwalk
  | some x =>
    obtain ⟨m, hm, hin⟩ := h.regions.inside_of_mem_walkUp hwalk hn
    exact hout x m rfl hm n hmem hin

namespace Lowering

variable {l l' l'' : Lowering} {i : Nat} {site : NodeId}

/-- All ways to names are left as they are. -/
structure Spares (l l' : Lowering) : Prop extends Advances l l' where
  scopes : l.bound.scopes.Extends l'.bound.scopes
  leads : ∀ {name : String} {target x : ScopeId}, l.bound.scopes.Leads name target x →
    l'.bound.scopes.Leads name target x

namespace Spares

theorem refl (l : Lowering) : Spares l l := ⟨.refl l, .refl _, id⟩

theorem trans (h : Spares l l') (h' : Spares l' l'') : Spares l l'' :=
  ⟨h.toAdvances.trans h'.toAdvances, h.scopes.trans h'.scopes, fun hl => h'.leads (h.leads hl)⟩

theorem of_bound (h : Advances l l') (hb : l'.bound = l.bound) : Spares l l' :=
  ⟨h, hb ▸ .refl _, fun hl => hb ▸ hl⟩

end Spares

/-- What wraps have declared goes to no wrapped body. -/
structure Open (l : Lowering) : Prop where
  calls : ∀ {i : Nat} {w : Wrap}, l.wraps[i]? = some w → l.parent? i = none →
    l.bound.scopes.Exposed (l.bound.nodeScope? w.loop)
  aliases : ∀ {i : Nat} {w : Wrap} {target : ScopeId}, l.wraps[i]? = some w →
    aliasScope? l.bound w.scope = some target → l.bound.scopes.Exposed (some target)

/-- An alias goes to the program, to an arrow that was passed, or to a hoisting scope that is no
wrapped body. -/
theorem aliasScopeAmong_cases {b : Bound} {arrow : Option ScopeId} {ids : List ScopeId}
    {target : ScopeId} (h : aliasScopeAmong b arrow ids = some target) :
    target = programScope ∨ arrow = some target ∨
      b.scopes.kind? (some target) = some .hoist ∧
        (b.scopes.flags (some target)).loopWrapper = false := by
  induction ids generalizing arrow with
  | nil =>
    cases h
    exact .inl rfl
  | cons id ids ih =>
    unfold aliasScopeAmong at h
    split at h
    · exact ih h
    · next c hc =>
      split at h
      · exact ih h
      · next hskip =>
        have hid : b.scopes.kind? (some id) = some .hoist ∧
            (b.scopes.flags (some id)).loopWrapper = false := by
          rw [kind?, flags, hc]
          simpa [Scope.isHoist] using hskip
        split at h
        · extract_lets hasBlock at h
          clear_value hasBlock
          rcases ih h with hp | ha | hk
          · exact .inl hp
          · split at ha
            · cases ha
              exact .inr (.inr hid)
            · exact .inr (.inl ha)
          · exact .inr (.inr hk)
        · split at h
          · exact .inr (.inl h)
          · cases h
            exact .inr (.inr hid)

/-- After the wraps of loops the state is open. -/
theorem open_ofWraps {b : Bound} {wraps : Array Wrap} (h : b.Follows (Bound.bodiesOf wraps))
    (hn : (ofWraps b wraps).Nested)
    (hprogram : ∀ n, b.scopes.node? (some programScope) = some n → b.nodes.parent? n = none) :
    (ofWraps b wraps).Open where
  calls {i w} hw hp := by
    refine h.exposed fun x m hx hm body hbody hin => ?_
    obtain ⟨j, v, hj, rfl⟩ := Bound.exists_of_mem_bodiesOf hbody
    exact hn.not_inside_body hw hp hj (hin.trans (h.regions.around hx hm))
  aliases {i w target} hw ht := by
    rcases aliasScopeAmong_cases ht with rfl | harrow | ⟨hk, hflag⟩
    · refine h.exposed fun x m hx hm body hbody hin => ?_
      cases hx
      obtain ⟨j, v, hj, rfl⟩ := Bound.exists_of_mem_bodiesOf hbody
      cases hin with
      | refl => cases (hprogram _ hm).symm.trans (hn.wraps.parent?_body hn.nodes hj)
      | up hp => cases (hprogram m hm).symm.trans hp
    · cases harrow
    · exact exposed_of_hoist hk hflag

theorem Advances.open (h : Advances l l') (ho : l.Open) : l'.Open where
  calls {i w} hw hp := by
    have hscope : l'.bound.nodeScope? w.loop = l.bound.nodeScope? w.loop := by
      rw [h.bound]
      rfl
    rw [hscope]
    exact h.vars.exposed (ho.calls (h.wraps ▸ hw) ((h.parent? i).symm.trans hp))
  aliases {i w target} hw ht :=
    h.vars.exposed (ho.aliases (h.wraps ▸ hw) ((h.aliasScope? w.scope).symm.trans ht))

theorem Spares.foldlM {α : Type} {step : Lowering → α → Except Failure Lowering} {as : List α}
    (hstep : ∀ t t' a, t.Open → step t a = .ok t' → Spares t t') (ho : l.Open)
    (h : as.foldlM step l = .ok l') : Spares l l' :=
  foldlM_rel (R := Spares) .refl .trans (fun t t' a _ ht => hstep t t' a (ht.toAdvances.open ho)) h

theorem declare_spares {scope : Option ScopeId} {name : String}
    (he : l.bound.scopes.Exposed scope) (h : l.declare scope name = .ok l') : Spares l l' := by
  have hadvances := (declare_records h).toAdvances
  unfold Lowering.declare at h
  dsimp only at h
  split at h
  · cases h
  · next hp =>
    obtain ⟨d, hd, rfl⟩ := map_eq_ok.1 h
    unfold Draft.declareVar at hd
    split at hd
    · next hdeclare =>
      cases hd
      exact ⟨hadvances, .declare rfl hdeclare,
        fun hl => hl.declare he (Bool.eq_false_iff.2 hp) hdeclare⟩
    · cases hd

/-! ## Steps that declare nothing -/

theorem permanentName_bound {key name : String} (h : l.permanentName key = .ok (l', name)) :
    l'.bound = l.bound := by
  obtain ⟨⟨d, name'⟩, hd, h⟩ := bind_eq_ok.1 h
  cases h
  obtain ⟨⟨names, name''⟩, -, hd⟩ := bind_eq_ok.1 hd
  cases hd
  rfl

theorem adaptJump_bound (h : adaptJump i l site = .ok l') : l'.bound = l.bound := by
  unfold adaptJump at h
  split at h
  · split at h
    · cases h
      rfl
    · obtain ⟨⟨l₁, flag⟩, hname, h⟩ := bind_eq_ok.1 h
      cases h
      show l₁.bound = l.bound
      exact permanentName_bound hname
  · cases h
    rfl

theorem adaptReturn_bound (h : adaptReturn i l site = .ok l') : l'.bound = l.bound := by
  unfold adaptReturn at h
  split at h
  · split at h
    · obtain ⟨⟨l₁, flag⟩, hname, h⟩ := bind_eq_ok.1 h
      cases h
      show l₁.bound = l.bound
      exact permanentName_bound hname
    · obtain ⟨⟨l₁, flag⟩, hname, h⟩ := bind_eq_ok.1 h
      cases h
      show l₁.bound = l.bound
      exact permanentName_bound hname
  · cases h
    rfl

theorem stripVar_bound (root : Nat) (l : Lowering) (site : NodeId) :
    (stripVar root l site).bound = l.bound := by
  unfold stripVar
  split
  · extract_lets
    split <;> rfl
  · rfl

theorem valueName?_bound {valued : Bool} {value : Option String}
    (h : l.valueName? valued = .ok (l', value)) : l'.bound = l.bound := by
  unfold valueName? at h
  split at h
  · obtain ⟨⟨l₁, name⟩, hname, h⟩ := map_eq_ok.1 h
    cases h
    exact permanentName_bound hname
  · cases h
    rfl

theorem checkOf_bound {flag check : String} {r : Relay}
    (h : l.checkOf flag r = .ok (l', check)) : l'.bound = l.bound := by
  cases r with
  | break_ label =>
    cases label <;>
      · cases h
        rfl
  | continue_ label | returnVoid =>
    cases h
    rfl
  | returnPrimitive =>
    obtain ⟨⟨l₁, value⟩, hvalue, h⟩ := bind_eq_ok.1 h
    cases h
    exact permanentName_bound hvalue
  | returnValue =>
    obtain ⟨⟨l₁, value⟩, hvalue, h⟩ := bind_eq_ok.1 h
    obtain ⟨⟨l₂, caught⟩, hcaught, h⟩ := bind_eq_ok.1 h
    cases h
    exact (permanentName_bound hcaught).trans (permanentName_bound hvalue)

theorem resolveRelay_bound {r : Relay} (h : resolveRelay i l r = .ok l') :
    l'.bound = l.bound := by
  unfold resolveRelay at h
  obtain ⟨⟨l₁, flag⟩, hname, h⟩ := bind_eq_ok.1 h
  dsimp only at h
  split at h
  · obtain ⟨⟨l₂, value⟩, hvalue, h⟩ := bind_eq_ok.1 h
    cases h
    show l₂.bound = l.bound
    exact (valueName?_bound hvalue).trans (permanentName_bound hname)
  · obtain ⟨⟨l₂, check⟩, hcheck, h⟩ := bind_eq_ok.1 h
    cases h
    show l₂.bound = l.bound
    exact (checkOf_bound hcheck).trans (permanentName_bound hname)

theorem resolveRelays_spares (h : l.resolveRelays i = .ok l') : Spares l l' :=
  .of_bound (resolveRelays_records h (.refl _)).toAdvances <|
    foldlM_rel (R := fun t t' : Lowering => t'.bound = t.bound) (fun _ => rfl)
      (fun h h' => h'.trans h) (fun _ _ _ _ _ hstep => resolveRelay_bound hstep) h

/-! ## Aliases, bodies and calls -/

theorem aliasFor_spares {a : Alias} {scope : ScopeId} {name : String}
    (he : ∀ target, aliasScope? l.bound scope = some target → l.bound.scopes.Exposed (some target))
    (h : aliasFor a scope site l = .ok (l', name)) : Spares l l' := by
  unfold aliasFor at h
  split at h
  · cases h
  · next target htarget =>
    obtain ⟨⟨l₁, name'⟩, hname, h⟩ := bind_eq_ok.1 h
    have h₁ := Spares.of_bound (permanentName_records hname).toAdvances (permanentName_bound hname)
    dsimp only at h
    split at h
    · cases h
      exact h₁
    · obtain ⟨l₂, hdeclare, h⟩ := bind_eq_ok.1 h
      cases h
      have halias := ((aliases_records l₁ ((target, a) :: l₁.aliases)).thenNothing
        (insertAfter_records _ (bodyStart l₁.bound target)
          ("var " ++ name ++ " = " ++ a.keyword ++ ";"))).toAdvances
      refine h₁.trans ((Spares.of_bound halias rfl).trans (declare_spares ?_ hdeclare))
      exact h₁.vars.exposed (he target htarget)

theorem adaptAlias_spares {a : Alias} {scope : ScopeId} {sites : List NodeId}
    (he : ∀ target, aliasScope? l.bound scope = some target → l.bound.scopes.Exposed (some target))
    (h : adaptAlias a scope l sites = .ok l') : Spares l l' := by
  unfold adaptAlias at h
  split at h
  · cases h
    exact .refl l
  · next first rest =>
    obtain ⟨⟨l₁, name⟩, hname, h⟩ := bind_eq_ok.1 h
    cases h
    refine (aliasFor_spares he hname).trans (.of_bound (putAlias_advances _ _ _) ?_)
    refine List.foldlRecOn (motive := fun t : Lowering => t.bound = l₁.bound) _ _ rfl
      fun t ht s _ => ?_
    split <;> exact ht

theorem adaptBody_spares (ho : l.Open) (h : adaptBody l i = .ok l') : Spares l l' := by
  cases hw : l.wraps[i]? with
  | none =>
    unfold adaptBody at h
    rw [hw] at h
    cases h
    exact .refl l
  | some w =>
    have hall := (adaptBody_records h).toAdvances
    obtain ⟨l₁, l₂, l₃, l₄, h₁, h₂, h₃, h₄, rfl⟩ := adaptBody_rounds hw h
    have hjumps : Spares l l₁ := Spares.foldlM (fun _ _ _ _ hstep =>
      .of_bound (adaptJump_records hstep).toAdvances (adaptJump_bound hstep)) ho h₁
    have hreturns : Spares l₁ l₂ := Spares.foldlM (fun _ _ _ _ hstep =>
      .of_bound (adaptReturn_records hstep).toAdvances (adaptReturn_bound hstep))
      (hjumps.toAdvances.open ho) h₂
    have h₂' := hjumps.trans hreturns
    have hthis : Spares l₂ l₃ := adaptAlias_spares (fun target ht =>
      (h₂'.toAdvances.open ho).aliases (h₂'.wraps ▸ hw) ht) h₃
    have h₃' := h₂'.trans hthis
    have harguments : Spares l₃ l₄ := adaptAlias_spares (fun target ht =>
      (h₃'.toAdvances.open ho).aliases (h₃'.wraps ▸ hw) ht) h₄
    have hbound : ((l.sitesOf i .var).foldl (stripVar (l₄.outermost i)) l₄).bound = l₄.bound :=
      List.foldlRecOn (motive := fun t : Lowering => t.bound = l₄.bound) _ _ rfl
        fun t ht s _ => (stripVar_bound _ t s).trans ht
    have h₄' := h₃'.trans harguments
    exact ⟨hall, hbound ▸ h₄'.scopes, fun hl => hbound ▸ h₄'.leads hl⟩

theorem writeCall_spares (ho : l.Open) (h : l.writeCall i = .ok l') : Spares l l' := by
  cases hw : l.wraps[i]? with
  | none =>
    unfold writeCall at h
    rw [hw] at h
    cases h
    exact .refl l
  | some w =>
    cases hbody : l.nodes.get? w.body with
    | none =>
      unfold writeCall at h
      rw [hw] at h
      dsimp only at h
      rw [hbody] at h
      cases h
    | some body =>
      obtain ⟨l₁, value, hvalue⟩ :
          ∃ l₁ value, l.valueName? (l.exit i).valued = .ok (l₁, value) := by
        unfold writeCall at h
        rw [hw] at h
        dsimp -zeta only at h
        rw [hbody] at h
        dsimp -zeta only at h
        extract_lets at h
        obtain ⟨⟨l₁, value⟩, hvalue, -⟩ := bind_eq_ok.1 h
        exact ⟨l₁, value, hvalue⟩
      obtain ⟨l₂, h₂, hbound, heq⟩ := writeCall_eq hw hbody hvalue
      rw [heq] at h
      have hspares : Spares l l₂ := .of_bound h₂.toAdvances (hbound.trans (valueName?_bound hvalue))
      refine hspares.trans ?_
      split at h
      · next hnone =>
        have hp : l₂.parent? i = none := by
          rw [h₂.parent?, ← (valueName?_records hvalue).parent?]
          exact Option.isNone_iff_eq_none.1 hnone
        refine foldlM_rel (R := Spares) .refl .trans (fun t t' name _ ht hstep => ?_) h
        exact declare_spares (((hspares.trans ht).toAdvances.open ho).calls
          ((hspares.trans ht).wraps ▸ hw) ((ht.parent? i).trans hp)) hstep
      · cases h
        exact .refl _

/-- In an open state all of `finish` leaves the ways to names as they are. -/
theorem finish_spares (ho : l.Open) (h : l.finish = .ok l') : Spares l l' := by
  obtain ⟨l₁, h₁, h⟩ := bind_eq_ok.1 h
  obtain ⟨l₂, h₂, h₃⟩ := bind_eq_ok.1 h
  have hbodies : Spares l l₁ := .foldlM (fun _ _ _ ht => adaptBody_spares ht) ho h₁
  have hrelays := hbodies.trans
    (.foldlM (fun _ _ _ _ => resolveRelays_spares) (hbodies.toAdvances.open ho) h₂)
  exact hrelays.trans
    (.foldlM (fun _ _ _ ht => writeCall_spares ht) (hrelays.toAdvances.open ho) h₃)

end Lowering

end LoopClosure
