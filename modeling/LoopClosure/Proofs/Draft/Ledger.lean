import LoopClosure.Proofs.Draft.Requests

/-!
# The declarations of a session

- `Kept b d vars`: the generated variables of a draft. Each is declared in one scope and has one
  active edit, which introduces it there, and no other edit is in effect.
- `Ledger b s vars`: they are the variables whose names a session gave out, with the values that
  were asked for. So it is as long as no temporary is given back (`Ledger.run`).
-/

namespace LoopClosure

open Syntax Scopes Draft

/-- A generated `var`. -/
structure Variable where
  name : String
  /-- What it begins with. -/
  value : Option String
  scope : ScopeId
  edit : EditId
deriving DecidableEq, Repr

namespace Variable

/-- The statement of a variable. -/
def text (v : Variable) : String :=
  match v.value with
  | none => varText v.name
  | some value => initializedText v.name value

/-- The edit that introduces a variable. -/
def introduction (b : Bound) (v : Variable) : Edit where
  kind := .insertBefore
  start := b.insertPosition (some v.scope)
  stop := b.insertPosition (some v.scope)
  text := v.text

/-- The entry of a shared variable tells of it. -/
structure NotedBy (v : Variable) (old : SharedVar) : Prop where
  name : v.name = old.name
  value : v.value = some old.value
  scope : old.scope = some v.scope
  edit : v.edit = old.edit

end Variable

/-- `vars` are the variables of a draft: each is declared in its scope alone and has an active edit
of its own, and there are no other edits in effect. -/
structure Kept (b : Bound) (d : Draft) (vars : List Variable) : Prop where
  names : (vars.map (·.name)).Nodup
  declared : ∀ {v}, v ∈ vars → b.IsSeat v.scope ∧
    ∀ y : ScopeId, (d.scopes.declaration? (some y) v.name).isSome = true ↔ y = v.scope
  ids : (vars.map (·.edit)).Nodup
  edits : ∀ {i e}, d.edits.edit? i = some e ∧ e.active = true ↔
    ∃ v ∈ vars, v.edit = i ∧ e = v.introduction b
  taken : ∀ {v}, v ∈ vars → d.names.isTaken v.name = true
  free : ∀ x, d.scopes.free x = []

namespace Kept

variable {b : Bound} {d d' : Draft} {vars : List Variable} {v w : Variable} {x : ScopeId}
  {name : String} {value : Option String}

theorem eq_of_name (h : Kept b d vars) (hv : v ∈ vars) (hw : w ∈ vars) (hn : v.name = w.name) :
    v = w :=
  List.inj_on_of_nodup_map h.names hv hw hn

theorem eq_of_edit (h : Kept b d vars) (hv : v ∈ vars) (hw : w ∈ vars) (hn : v.edit = w.edit) :
    v = w :=
  List.inj_on_of_nodup_map h.ids hv hw hn

theorem mem_erase (h : Kept b d vars) : w ∈ vars.erase v ↔ w ≠ v ∧ w ∈ vars :=
  (h.names.of_map _).mem_erase_iff

/-- What is noted for logical names does not matter. -/
theorem congr (h : Kept b d vars) (hs : d'.scopes = d.scopes) (he : d'.edits = d.edits)
    (hn : d'.names = d.names) : Kept b d' vars :=
  ⟨h.names, fun hv => hs ▸ h.declared hv, h.ids, he ▸ h.edits, fun hv => hn ▸ h.taken hv, hs ▸ h.free⟩

theorem take (h : Kept b d vars) (name : String) : Kept b (d.take name) vars :=
  { h with taken := fun hv => (d.isTaken_take _ _).2 (.inr (h.taken hv)) }

/-- A variable is taken back. -/
theorem retract {old : SharedVar} (h : Kept b d vars) (hv : v ∈ vars) (ho : v.NotedBy old) :
    Kept b (d.retract old) (vars.erase v) where
  names := h.names.sublist (List.erase_sublist.map _)
  declared {w} hw := by
    obtain ⟨hne, hw⟩ := h.mem_erase.1 hw
    obtain ⟨hseat, hdecl⟩ := h.declared hw
    refine ⟨hseat, fun y => ?_⟩
    rw [← hdecl y, show (d.retract old).scopes.declaration? (some y) w.name = _ from
      declaration?_remove _, if_neg fun he => hne (h.eq_of_name hw hv (he.2.trans ho.name.symm))]
  ids := h.ids.sublist (List.erase_sublist.map _)
  edits {i e} := by
    have hedit : (d.retract old).edits.edit? i =
        if v.edit = i then (d.edits.edit? i).map fun e => { e with active := false }
        else d.edits.edit? i := ho.edit ▸ Edits.edit?_deactivate old.edit i
    rw [hedit]
    constructor
    · rintro ⟨he, hactive⟩
      split at he
      · obtain ⟨e', -, rfl⟩ := Option.map_eq_some_iff.1 he
        cases hactive
      · next hne =>
        obtain ⟨w, hw, rfl, rfl⟩ := h.edits.1 ⟨he, hactive⟩
        exact ⟨w, h.mem_erase.2 ⟨fun heq => hne (heq ▸ rfl), hw⟩, rfl, rfl⟩
    · rintro ⟨w, hw, rfl, rfl⟩
      obtain ⟨hne, hw⟩ := h.mem_erase.1 hw
      rw [if_neg fun heq => hne (h.eq_of_edit hv hw heq).symm]
      exact h.edits.2 ⟨w, hw, rfl, rfl⟩
  taken hw := h.taken (List.mem_of_mem_erase hw)
  free y := (free_update (f := (·.remove old.name)) (fun _ => rfl) old.scope y).trans (h.free y)

/-- A variable is added. -/
theorem plant (h : Kept b d vars) (hs : Steady b d) (hx : b.IsSeat x)
    (ht : d.names.isTaken name = true) (hnone : ∀ id, d.scopes.declaration? id name = none)
    (hnew : ∀ {v}, v ∈ vars → v.name ≠ name) (hv : v = ⟨name, value, x, d.edits.edits.size⟩) :
    Kept b (d.plant x name v.text) (v :: vars) := by
  have hdecl (id : Option ScopeId) (other : String) :
      (d.plant x name v.text).scopes.declaration? id other = _ :=
    hs.declaration?_plant hx (hnone _) id other
  have hold {w : Variable} (hw : w ∈ vars) : w.edit ≠ v.edit := fun heq => by
    have hedit := (h.edits.2 ⟨w, hw, heq, rfl⟩).1
    rw [hv, Edits.edit?_size] at hedit
    cases hedit
  have hedit (i : EditId) : (d.plant x name v.text).edits.edit? i =
      if i = v.edit then some (v.introduction b) else d.edits.edit? i := by
    subst hv
    rw [edit?_plant, hs.frame.insertPosition]
    rfl
  have hname : v.name = name := hv ▸ rfl
  have hscope : v.scope = x := hv ▸ rfl
  clear hv
  refine ⟨List.nodup_cons.2 ⟨fun hmem => ?_, h.names⟩, fun {w} hw => ?_,
    List.nodup_cons.2 ⟨fun hmem => ?_, h.ids⟩, fun {i e} => ?_, fun {w} hw => ?_, fun y => ?_⟩
  · obtain ⟨w, hw, hn⟩ := List.mem_map.1 hmem
    exact hnew hw (hn.trans hname)
  · rcases List.mem_cons.1 hw with rfl | hw
    · refine ⟨hscope ▸ hx, fun y => ?_⟩
      rw [hdecl, hname, hscope]
      by_cases hy : y = x
      · simp [hy]
      · simp [hy, hnone]
    · obtain ⟨hseat, hiff⟩ := h.declared hw
      refine ⟨hseat, fun y => ?_⟩
      rw [hdecl, if_neg fun he => hnew hw he.2]
      exact hiff y
  · obtain ⟨w, hw, hn⟩ := List.mem_map.1 hmem
    exact hold hw hn
  · rw [hedit, List.exists_mem_cons_iff]
    by_cases hi : i = v.edit
    · rw [if_pos hi]
      constructor
      · rintro ⟨he, -⟩
        exact .inl ⟨hi.symm, (Option.some.inj he).symm⟩
      · rintro (⟨-, rfl⟩ | ⟨w, hw, hwi, -⟩)
        · exact ⟨rfl, rfl⟩
        · exact absurd (hwi.trans hi) (hold hw)
    · rw [if_neg hi, h.edits]
      exact ⟨.inr, fun he => he.resolve_left fun h => hi h.1.symm⟩
  · rcases List.mem_cons.1 hw with rfl | hw
    · exact hname ▸ ht
    · exact h.taken hw
  · rw [free_plant]
    exact h.free y

end Kept

namespace Request

/-- What the variable of a request begins with. -/
def value? : Request → Option String
  | shared _ _ value => some value
  | _ => none

end Request

/-- The variables of a session: there is one for each name that was given out, with the value that
was asked for. -/
structure Ledger (b : Bound) (s : Session) (vars : List Variable) : Prop
    extends Kept b s.draft vars where
  returned : ∀ {name value}, (∃ v ∈ vars, v.name = name ∧ v.value = value) ↔
    ∃ e ∈ s.past, e.name = name ∧ e.request.value? = value
  noted : ∀ {logical old}, s.draft.shared? logical = some old → ∃ v ∈ vars, v.NotedBy old

namespace Ledger

variable {b : Bound} {s : Session} {d : Draft} {vars : List Variable} {r : Request} {v w : Variable}
  {old : SharedVar} {x y : ScopeId} {scope : Option ScopeId} {user : NodeId}
  {name base logical value : String}

theorem start (hfirm : b.Firm) : Ledger b (.start b) [] where
  names := .nil
  declared hv := nomatch hv
  ids := .nil
  edits := by simp [Session.start, Draft.ofBound, Edits.edit?]
  taken hv := nomatch hv
  free := hfirm.pristine
  returned := by simp [Session.start]
  noted h := nomatch h

/-- A name of the session is one of a variable. -/
theorem exists_name_iff (h : Ledger b s vars) :
    (∃ v ∈ vars, v.name = name) ↔ ∃ e ∈ s.past, e.name = name := by
  constructor
  · rintro ⟨v, hv, hn⟩
    obtain ⟨e, he, hen, -⟩ := h.returned.1 ⟨v, hv, hn, rfl⟩
    exact ⟨e, he, hen⟩
  · rintro ⟨e, he, hn⟩
    obtain ⟨v, hv, hvn, -⟩ := h.returned.2 ⟨e, he, hn, rfl⟩
    exact ⟨v, hv, hvn⟩

/-- A request is answered with the name of a variable that stays. -/
theorem covered (h : Ledger b s vars) (hv : v ∈ vars) (hvalue : r.value? = v.value) :
    Ledger b ⟨s.draft, ⟨r, v.name⟩ :: s.past⟩ vars where
  toKept := h.toKept
  returned {name value} := by
    rw [h.returned, List.exists_mem_cons_iff]
    refine ⟨.inr, fun he => he.elim (fun ⟨hn, hval⟩ => ?_) id⟩
    exact h.returned.1 ⟨v, hv, hn, hvalue.symm.trans hval⟩
  noted := h.noted

/-- A variable is moved to scope `y`. -/
theorem moved (h : Ledger b s vars) (hs : Steady b s.draft)
    (hl : s.draft.shared? logical = some old) (hv : v ∈ vars) (ho : v.NotedBy old)
    (hvalue : old.value = value) (hr : r.value? = some value) (hy : b.IsSeat y) : Ledger b
      ⟨(s.draft.retract old).plantShared y logical old.name value, ⟨r, old.name⟩ :: s.past⟩
      (⟨old.name, some value, y, s.draft.edits.edits.size⟩ :: vars.erase v) := by
  have hsize : (s.draft.retract old).edits.edits.size = s.draft.edits.edits.size :=
    Array.size_modify
  have hkept := (h.toKept.retract hv ho).plant (v := ⟨old.name, some value, y, _⟩) (hs.retract old) hy
    (ho.name ▸ h.taken hv) (hs.declaration?_retract hl) (fun {w} hw hn =>
      (h.mem_erase.1 hw).1 (h.eq_of_name (h.mem_erase.1 hw).2 hv (hn.trans ho.name.symm))) rfl
  rw [hsize] at hkept
  refine ⟨hkept.congr rfl rfl rfl, fun {name value'} => ?_, fun {l w} hw => ?_⟩
  · rw [List.exists_mem_cons_iff, List.exists_mem_cons_iff, ← h.returned, hr]
    constructor
    · rintro (hn | ⟨w, hw, hn⟩)
      · exact .inl hn
      · exact .inr ⟨w, (h.mem_erase.1 hw).2, hn⟩
    · rintro (hn | ⟨w, hw, hn⟩)
      · exact .inl hn
      · by_cases hwv : w = v
        · subst hwv
          exact .inl ⟨ho.name.symm.trans hn.1, hvalue ▸ ho.value.symm.trans hn.2⟩
        · exact .inr ⟨w, h.mem_erase.2 ⟨hwv, hw⟩, hn⟩
  · rw [Steady.shared?_plantShared, hsize] at hw
    split at hw
    · obtain rfl := Option.some.inj hw
      exact ⟨_, List.mem_cons_self, rfl, rfl, rfl, rfl⟩
    · next hne =>
      obtain ⟨w', hw', ho'⟩ := h.noted hw
      refine ⟨w', List.mem_cons_of_mem _ (h.mem_erase.2 ⟨?_, hw'⟩), ho'⟩
      rintro rfl
      exact hne (hs.apart hw hl (ho'.name.symm.trans ho.name))

/-- A new variable. -/
theorem new (h : Ledger b s vars) (hs : Steady b s.draft) (hx : b.IsSeat x) (hd : '$' ∈ name.toList)
    (hn : s.draft.names.isTaken name = false)
    (hv : v = ⟨name, r.value?, x, s.draft.edits.edits.size⟩)
    (hscopes : d.scopes = ((s.draft.take name).plant x name v.text).scopes)
    (hedits : d.edits = ((s.draft.take name).plant x name v.text).edits)
    (hnames : d.names = (s.draft.take name).names)
    (hnoted : ∀ {l old}, d.shared? l = some old → s.draft.shared? l = some old ∨ v.NotedBy old) :
    Ledger b ⟨d, ⟨r, name⟩ :: s.past⟩ (v :: vars) := by
  have hkept := (h.toKept.take name).plant (hs.take name) hx
    ((s.draft.isTaken_take _ _).2 (.inl rfl)) (hs.undeclared hd hn) (by
      rintro w hw rfl
      cases hn.symm.trans (h.taken hw)) hv
  refine ⟨hkept.congr hscopes hedits hnames, fun {name' value'} => ?_, fun {l old} hold => ?_⟩
  · rw [List.exists_mem_cons_iff, List.exists_mem_cons_iff, h.returned, hv]
  · rcases hnoted hold with hold | ho
    · obtain ⟨w, hw, ho⟩ := h.noted hold
      exact ⟨w, List.mem_cons_of_mem _ hw, ho⟩
    · exact ⟨v, List.mem_cons_self, ho⟩

/-- A new temporary. -/
theorem newTemporary (h : Ledger b s vars) (hs : Steady b s.draft) (hx : b.IsSeat x)
    (hd : '$' ∈ name.toList) (hn : s.draft.names.isTaken name = false) : Ledger b
      ⟨(s.draft.take name).plant x name (varText name), ⟨.temporary user scope base, name⟩ :: s.past⟩
      (⟨name, none, x, s.draft.edits.edits.size⟩ :: vars) :=
  h.new hs hx hd hn rfl rfl rfl rfl .inl

/-- A new shared variable. -/
theorem newShared (h : Ledger b s vars) (hs : Steady b s.draft) (hx : b.IsSeat x)
    (hd : '$' ∈ name.toList) (hn : s.draft.names.isTaken name = false) : Ledger b
      ⟨(s.draft.take name).plantShared x logical name value,
        ⟨.shared scope logical value, name⟩ :: s.past⟩
      (⟨name, some value, x, s.draft.edits.edits.size⟩ :: vars) := by
  refine h.new hs hx hd hn rfl rfl rfl rfl fun {l old} hold => ?_
  rw [Steady.shared?_plantShared] at hold
  split at hold
  · obtain rfl := Option.some.inj hold
    exact .inr ⟨rfl, rfl, rfl, rfl⟩
  · exact .inl hold

/-- A request for a shared variable is answered with a variable around it, or with one that is moved
outward, or with a new one, unless there is no name. -/
theorem serve_shared (h : Ledger b s vars) (hs : Steady b s.draft) (hfirm : b.Firm)
    (hx : b.declarationScope? scope = some x) (hr : r = .shared scope logical value) :
    (∃ v old, s.draft.shared? logical = some old ∧ old.value = value ∧ v ∈ vars ∧ v.NotedBy old ∧
      v.scope ∈ b.scopes.walk (some x) ∧ s.serve r = ⟨s.draft, ⟨r, v.name⟩ :: s.past⟩ ∧
      Ledger b (s.serve r) vars) ∨
    (∃ v old w d, s.draft.shared? logical = some old ∧ old.value = value ∧ v ∈ vars ∧ v.NotedBy old ∧
      b.declarationScope? (b.commonHoist (some x) (some v.scope)) = some w.scope ∧
      w.name = v.name ∧ s.serve r = ⟨d, ⟨r, v.name⟩ :: s.past⟩ ∧
      Ledger b (s.serve r) (w :: vars.erase v)) ∨
    (∀ old, s.draft.shared? logical = some old → old.value ≠ value) ∧
      ((∃ w d, w.scope = x ∧ (∀ v ∈ vars, v.name ≠ w.name) ∧
        s.serve r = ⟨d, ⟨r, w.name⟩ :: s.past⟩ ∧ Ledger b (s.serve r) (w :: vars)) ∨
      s.serve r = s) := by
  subst hr
  have hseat := Bound.isSeat_of_declarationScope? hx
  have hserve {d : Draft} {name : String}
      (heq : s.draft.sharedVar scope logical value = .ok (d, name)) :
      s.serve (.shared scope logical value) = ⟨d, ⟨.shared scope logical value, name⟩ :: s.past⟩ :=
    Session.serve_of_ok heq
  rcases hs.sharedVar_cases hfirm hx logical value with ⟨old, hl, hvalue, hancestor, heq⟩ |
    ⟨old, o, y, hl, hvalue, hscope, -, hy, heq⟩ | ⟨hother, ⟨k, hk, heq⟩ | ⟨⟨e, heq⟩, -⟩⟩
  · obtain ⟨v, hv, ho⟩ := h.noted hl
    refine .inl ⟨v, old, hl, hvalue, hv, ho, ?_, ?_, ?_⟩
    · obtain ⟨q, hq, heq⟩ := List.any_eq_true.1 hancestor
      obtain rfl := Option.some.inj ((of_decide_eq_true heq).trans ho.scope)
      exact hq
    · rw [hserve heq, ho.name]
    · rw [hserve heq, ← ho.name]
      exact h.covered hv (hvalue ▸ ho.value.symm)
  · obtain ⟨v, hv, ho⟩ := h.noted hl
    obtain rfl := Option.some.inj (hscope.symm.trans ho.scope)
    refine .inr (.inl ⟨v, old, ⟨old.name, some value, y, s.draft.edits.edits.size⟩, _, hl, hvalue, hv,
      ho, hy, ho.name.symm, (hserve heq).trans (by rw [ho.name]), ?_⟩)
    rw [hserve heq]
    exact h.moved hs hl hv ho hvalue rfl (Bound.isSeat_of_declarationScope? hy)
  · refine .inr (.inr ⟨hother, .inl ⟨⟨Names.candidate logical k, some value, x,
      s.draft.edits.edits.size⟩, _, rfl, fun v hv hn => ?_, hserve heq, ?_⟩⟩)
    · cases hk.symm.trans (hn ▸ h.taken hv)
    · rw [hserve heq]
      exact h.newShared hs hseat (Names.dollar_mem_candidate logical k) hk
  · exact .inr (.inr ⟨hother, .inr (Session.serve_of_error heq)⟩)

/-- A temporary is a new variable, unless there is no name. -/
theorem serve_temporary (h : Ledger b s vars) (hs : Steady b s.draft)
    (hx : b.declarationScope? scope = some x) (user : NodeId) (base : String) :
    (∃ v, Ledger b (s.serve (.temporary user scope base)) (v :: vars)) ∨
      s.serve (.temporary user scope base) = s := by
  rcases hs.temporary_cases hx user base with ⟨t, name, hpop, -⟩ | ⟨k, hk, heq⟩ | ⟨⟨e, heq⟩, -⟩
  · -- Nothing was given back.
    obtain ⟨i, stop, hi, -⟩ := popFree?_eq_some hpop
    rw [h.free] at hi
    cases hi
  · refine .inl ⟨⟨Names.candidate base k, none, x, s.draft.edits.edits.size⟩, ?_⟩
    have hserve : s.serve (.temporary user scope base) = _ := Session.serve_of_ok heq
    rw [hserve]
    exact h.newTemporary hs (Bound.isSeat_of_declarationScope? hx)
      (Names.dollar_mem_candidate base k) hk
  · exact .inr (Session.serve_of_error heq)

/-- A session in which nothing is given back has a ledger. -/
theorem run (hfirm : b.Firm) {rs : List Request} (hs : Steady b s.draft) (h : Ledger b s vars)
    (hrs : ∀ r ∈ rs, r.Known b ∧ r.IsRelease = false) : ∃ vars, Ledger b (s.run rs) vars := by
  induction rs generalizing s vars with
  | nil => exact ⟨vars, h⟩
  | cons r rs ih =>
    obtain ⟨hknown, hr⟩ := hrs r List.mem_cons_self
    have hs' := hs.serve hfirm hknown
    obtain ⟨vars', h'⟩ : ∃ vars', Ledger b (s.serve r) vars' := by
      cases r with
      | temporary user scope base =>
        obtain ⟨-, z, rfl, hz⟩ := hknown
        obtain ⟨x, hx⟩ := hfirm.seated hz
        rcases h.serve_temporary hs hx user base with ⟨v, hv⟩ | heq
        · exact ⟨_, hv⟩
        · exact ⟨vars, heq.symm ▸ h⟩
      | release => cases hr
      | shared scope logical value =>
        obtain ⟨z, rfl, hz⟩ := hknown
        obtain ⟨x, hx⟩ := hfirm.seated hz
        rcases h.serve_shared hs hfirm hx rfl with ⟨v, old, -, -, -, -, -, -, h'⟩ |
          ⟨v, old, w, d, -, -, -, -, -, -, -, h'⟩ | ⟨-, ⟨w, d, -, -, -, h'⟩ | heq⟩
        · exact ⟨_, h'⟩
        · exact ⟨_, h'⟩
        · exact ⟨_, h'⟩
        · exact ⟨vars, heq.symm ▸ h⟩
    exact ih hs' h' fun r' hr' => hrs r' (List.mem_cons_of_mem _ hr')

end Ledger

end LoopClosure
