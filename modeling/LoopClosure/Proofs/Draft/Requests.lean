import LoopClosure.Draft.Variables
import LoopClosure.Proofs.Draft.Placement

/-!
# Requests for generated variables

A session serves requests for temporaries and for shared variables, and takes temporaries back. A
request that fails changes nothing (`Session.serve`), and it fails only if all names that are tried
for it are taken (`Steady.taken_of_answer_eq_error`).

- `Steady b d`: the draft `d` was made from the unit `b` by such requests. Its scopes are those of
  `b`, and what is declared anew has a name that was given out.
- `Steady.temporary_cases`, `Steady.sharedVar_cases`: what a request does to a draft.
-/

namespace LoopClosure

open Syntax Scopes Draft

namespace Scopes

variable {s t : Scopes} {x y : ScopeId} {name other : String} {stop position : Nat}

/-! ## Changes of scopes -/

/-- A generated `var` in scope `x`. -/
def addVar (s : Scopes) (x : ScopeId) (name : String) : Scopes :=
  s.update (some x) (·.append name { kind := .var, node := none, fromPos := none })

theorem declaration?_addVar (hx : x < s.size) : (s.addVar x name).declaration? (some y) other =
    if y = x ∧ other = name then
      (s.declaration? (some y) other).or (some { kind := .var, node := none, fromPos := none })
    else s.declaration? (some y) other :=
  declaration?_append hx

theorem declaration?_remove (id : Option ScopeId) :
    (s.remove id name).declaration? (some y) other =
      if id = some y ∧ other = name then none else s.declaration? (some y) other := by
  rw [remove, declaration?, get?_update]
  by_cases hy : id = some y
  · rw [if_pos hy, declaration?]
    cases s.get? (some y) with
    | none => simp
    | some c =>
      have hlookup : (c.remove name).declaration? other =
          if other = name then none else c.declaration? other := lookup_filter_ne name other _
      rw [Option.map_some, Option.bind_some, Option.bind_some, hlookup]
      simp [hy]
  · rw [if_neg hy, if_neg fun h => hy h.1, declaration?]

theorem free_pushFree (hx : x < s.size) :
    (s.pushFree (some x) name position).free y =
      if y = x then s.free y ++ [(name, position)] else s.free y := by
  rw [free, pushFree, get?_update, free]
  by_cases hy : y = x
  · obtain ⟨c, hc⟩ := get?_of_lt hx
    subst hy
    simp [hc]
  · rw [if_neg fun h => hy (Option.some.inj h).symm, if_neg hy]

/-- What is taken is free at the position. -/
theorem popFree?_eq_some (h : s.popFree? (some x) position = some (t, name)) :
    ∃ i stop, (s.free x)[i]? = some (name, stop) ∧ stop ≤ position ∧
      t = s.update (some x) (fun c => { c with freeTemps := c.freeTemps.eraseIdx i }) ∧
      ∀ y, t.free y = if y = x then (s.free y).eraseIdx i else s.free y := by
  obtain ⟨c, hc, h⟩ := Option.bind_eq_some_iff.1 h
  obtain ⟨i, hi, h⟩ := Option.bind_eq_some_iff.1 h
  obtain ⟨⟨name', stop⟩, htemp, h⟩ := Option.bind_eq_some_iff.1 h
  cases h
  obtain ⟨hlt, hstop, -⟩ := List.findIdx?_eq_some_iff_getElem.1 hi
  rw [(List.getElem?_eq_some_iff.1 htemp).2] at hstop
  have hfree : s.free x = c.freeTemps := by rw [free, hc, Option.map_some, Option.getD_some]
  refine ⟨i, stop, hfree ▸ htemp, of_decide_eq_true hstop, rfl, fun y => ?_⟩
  rw [free, get?_update]
  by_cases hy : y = x
  · subst hy
    rw [if_pos rfl, if_pos rfl, hc, hfree]
    rfl
  · rw [if_neg fun h => hy (Option.some.inj h).symm, if_neg hy, free]

end Scopes

namespace Edits

variable {b : Edits} {kind : EditKind} {start stop : Nat} {text : String}

theorem edit?_push (i : EditId) : (b.push kind start stop text).1.edit? i =
    if i = b.edits.size then some { kind, start, stop, text } else b.edit? i :=
  Array.getElem?_push

theorem edit?_deactivate (id i : EditId) : (b.deactivate id).edit? i =
    if id = i then (b.edit? i).map fun e => { e with active := false } else b.edit? i :=
  Array.getElem?_modify

theorem edit?_size (b : Edits) : b.edit? b.edits.size = none := Array.getElem?_eq_none (Nat.le_refl _)

end Edits

/-! ## What declarations and temporaries leave -/

namespace Bound.SameFrame

variable {b : Bound} {f : Scope → Scope}

/-- Declarations and temporaries of a scope are changed. -/
theorem update (b : Bound) (id : Option ScopeId) (hf : Scope.Tame f) (hk : ∀ c, (f c).kind = c.kind)
    (hflags : ∀ c, (f c).flags = c.flags) :
    b.SameFrame { b with scopes := b.scopes.update id f } :=
  ⟨rfl, rfl, .update _ _ hf, view_update (·.kind) hk _, flags_view_update (fun c => c) hflags _⟩

theorem addVar (b : Bound) (x : ScopeId) (name : String) :
    b.SameFrame { b with scopes := b.scopes.addVar x name } :=
  update b _ ⟨fun _ => rfl, fun _ => rfl, fun _ => rfl⟩ (fun _ => rfl) fun _ => rfl

theorem remove (b : Bound) (id : Option ScopeId) (name : String) :
    b.SameFrame { b with scopes := b.scopes.remove id name } :=
  update b _ ⟨fun _ => rfl, fun _ => rfl, fun _ => rfl⟩ (fun _ => rfl) fun _ => rfl

theorem pushFree (b : Bound) (id : Option ScopeId) (name : String) (position : Nat) :
    b.SameFrame { b with scopes := b.scopes.pushFree id name position } :=
  update b _ ⟨fun _ => rfl, fun _ => rfl, fun _ => rfl⟩ (fun _ => rfl) fun _ => rfl

end Bound.SameFrame

namespace Bound

/-- Where a node starts. -/
def startOf (b : Bound) (i : NodeId) : Nat := ((b.nodes.get? i).map (·.start)).getD 0

/-- Where a node ends. -/
def stopOf (b : Bound) (i : NodeId) : Nat := ((b.nodes.get? i).map (·.stop)).getD 0

end Bound

/-! ## Requests -/

/-- A call for a generated variable, or one that gives a temporary back. -/
inductive Request where
  | temporary (user : NodeId) (scope : Option ScopeId) (base : String)
  | release (name : String) (user : NodeId) (cleanup : Bool)
  | shared (scope : Option ScopeId) (logical value : String)
deriving DecidableEq, Repr

/-- A request that was served. -/
structure Served where
  request : Request
  /-- The answer, or the temporary that was given back. -/
  name : String
deriving DecidableEq, Repr

namespace Request

/-- What a new name for a request is made from. -/
def base? : Request → Option String
  | temporary _ _ base => some base
  | release .. => none
  | shared _ logical _ => some logical

/-- The scope that a request is made for. -/
def scope? : Request → Option ScopeId
  | temporary _ scope _ | shared scope _ _ => scope
  | release .. => none

/-- The nodes and scopes of a request are there. -/
def Known (b : Bound) : Request → Prop
  | temporary user scope _ => user < b.nodes.size ∧ ∃ x, scope = some x ∧ x < b.scopes.size
  | release _ user _ => user < b.nodes.size
  | shared scope _ _ => ∃ x, scope = some x ∧ x < b.scopes.size

/-- Whether `id` names one of the scopes of a unit. -/
def decidableScope (b : Bound) : (id : Option ScopeId) →
    Decidable (∃ x, id = some x ∧ x < b.scopes.size)
  | none => .isFalse fun ⟨_, h, _⟩ => nomatch h
  | some x => @decidable_of_iff _ (x < b.scopes.size)
      ⟨fun h => ⟨x, rfl, h⟩, fun ⟨_, h, hlt⟩ => Option.some.inj h ▸ hlt⟩ (Nat.decLt ..)

instance (b : Bound) : (r : Request) → Decidable (r.Known b)
  | temporary _ scope _ => @instDecidableAnd _ _ (Nat.decLt ..) (decidableScope b scope)
  | release .. => Nat.decLt ..
  | shared scope _ _ => decidableScope b scope

/-- A request for a shared variable. -/
def IsShared : Request → Bool
  | shared .. => true
  | _ => false

/-- A temporary is given back. -/
def IsRelease : Request → Bool
  | release .. => true
  | _ => false

end Request

namespace Draft

def answer (d : Draft) : Request → Except Failure (Draft × String)
  | .temporary user scope base => d.temporary user scope base
  | .release name user cleanup => .ok (d.release name user cleanup, name)
  | .shared scope logical value => d.sharedVar scope logical value

end Draft

/-- A draft and the requests that it has served, the last one first. -/
structure Session where
  draft : Draft
  past : List Served := []

namespace Session

/-- The session of a unit before any request. -/
def start (b : Bound) : Session := { draft := .ofBound b }

/-- A request that fails changes nothing. -/
def serve (s : Session) (r : Request) : Session :=
  match s.draft.answer r with
  | .ok (draft, name) => { draft, past := ⟨r, name⟩ :: s.past }
  | .error _ => s

def run (s : Session) (rs : List Request) : Session := rs.foldl serve s

/-- The property holds at each moment of a session. -/
def Always (P : Session → Prop) (s : Session) : List Request → Prop
  | [] => P s
  | r :: rs => P s ∧ Always P (s.serve r) rs

/-- The property holds of each request when it is served. -/
def Each (P : Session → Request → Prop) (s : Session) : List Request → Prop
  | [] => True
  | r :: rs => P s r ∧ Each P (s.serve r) rs

instance instDecidableEach (P : Session → Request → Prop) [∀ s r, Decidable (P s r)] :
    ∀ (s : Session) (rs : List Request), Decidable (s.Each P rs)
  | _, [] => .isTrue trivial
  | s, r :: rs =>
    have : Decidable (Each P (s.serve r) rs) := instDecidableEach P (s.serve r) rs
    inferInstanceAs (Decidable (P s r ∧ Each P (s.serve r) rs))

theorem Always.start {P : Session → Prop} {s : Session} {rs : List Request} (h : s.Always P rs) :
    P s := by
  cases rs with
  | nil => exact h
  | cons r rs => exact h.1

theorem serve_of_ok {s : Session} {r : Request} {d : Draft} {name : String}
    (h : s.draft.answer r = .ok (d, name)) : s.serve r = ⟨d, ⟨r, name⟩ :: s.past⟩ := by
  rw [serve, h]

theorem serve_of_error {s : Session} {r : Request} {e : Failure} (h : s.draft.answer r = .error e) :
    s.serve r = s := by
  rw [serve, h]

theorem serve_cases (s : Session) (r : Request) : s.serve r = s ∨
    ∃ d name, s.draft.answer r = .ok (d, name) ∧ s.serve r = ⟨d, ⟨r, name⟩ :: s.past⟩ := by
  cases h : s.draft.answer r with
  | ok p => exact .inr ⟨p.1, p.2, rfl, serve_of_ok h⟩
  | error e => exact .inl (serve_of_error h)

/-- What each answer keeps holds at the end. -/
theorem run_induct {P : Session → Prop} {s : Session} {rs : List Request} (hs : P s)
    (hstep : ∀ {s : Session} {r : Request} {d : Draft} {name : String}, r ∈ rs → P s →
      s.draft.answer r = .ok (d, name) → P ⟨d, ⟨r, name⟩ :: s.past⟩) : P (s.run rs) := by
  unfold run
  refine List.foldlRecOn (motive := P) rs serve hs fun t ht r hr => ?_
  rcases serve_cases t r with heq | ⟨d, name, hd, heq⟩
  · rwa [heq]
  · rw [heq]
    exact hstep hr ht hd

/-- What each answer to a request of a kind keeps holds at each moment. -/
theorem always_of_each {P : Session → Prop} {Q : Session → Request → Prop} {s : Session}
    {rs : List Request} (hs : P s)
    (hstep : ∀ {s : Session} {r : Request} {d : Draft} {name : String}, P s → Q s r →
      s.draft.answer r = .ok (d, name) → P ⟨d, ⟨r, name⟩ :: s.past⟩)
    (hrs : s.Each Q rs) : s.Always P rs := by
  induction rs generalizing s with
  | nil => exact hs
  | cons r rs ih =>
    obtain ⟨hr, hrs⟩ := hrs
    refine ⟨hs, ih ?_ hrs⟩
    rcases serve_cases s r with heq | ⟨d, name, ha, heq⟩
    · rwa [heq]
    · rw [heq]
      exact hstep hs hr ha

theorem Always.mono {P Q : Session → Prop} (hPQ : ∀ s, P s → Q s) {s : Session} {rs : List Request}
    (h : s.Always P rs) : s.Always Q rs := by
  induction rs generalizing s with
  | nil => exact hPQ s h
  | cons r rs ih => exact ⟨hPQ s h.1, ih h.2⟩

end Session

/-! ## What a request does -/

namespace Draft

variable {b : Bound} {d d' : Draft} {x y : ScopeId} {scope : Option ScopeId} {user : NodeId}
  {name base logical value text : String}

/-- A name is given out. -/
def take (d : Draft) (name : String) : Draft :=
  { d with names := { d.names with taken := name :: d.names.taken } }

/-- A `var` is declared in scope `x` and its statement inserted. -/
def plant (d : Draft) (x : ScopeId) (name text : String) : Draft :=
  (d.withScopes (d.scopes.addVar x name)).insertBefore (d.bound.insertPosition (some x)) text

/-- A shared variable is declared in scope `x` and noted for its logical name. -/
def plantShared (d : Draft) (x : ScopeId) (logical name value : String) : Draft :=
  { d.plant x name (initializedText name value) with
    shared := (logical, { name, value, scope := some x, edit := d.edits.edits.size }) :: d.shared }

/-- The declaration of a shared variable is taken back. -/
def retract (d : Draft) (v : SharedVar) : Draft :=
  { d with edits := d.edits.deactivate v.edit }.withScopes (d.scopes.remove v.scope v.name)

theorem edit?_plant (d : Draft) (x : ScopeId) (name text : String) (i : EditId) :
    (d.plant x name text).edits.edit? i =
      if i = d.edits.edits.size then
        some { kind := .insertBefore, start := d.bound.insertPosition (some x),
               stop := d.bound.insertPosition (some x), text }
      else d.edits.edit? i :=
  Edits.edit?_push i

theorem free_plant (d : Draft) (x y : ScopeId) (name text : String) :
    (d.plant x name text).scopes.free y = d.scopes.free y :=
  free_update (f := fun c => c.append name { kind := .var, node := none, fromPos := none })
    (fun _ => rfl) (some x) y

theorem isTaken_take (d : Draft) (name other : String) :
    (d.take name).names.isTaken other = true ↔ other = name ∨ d.names.isTaken other = true := by
  rw [Names.isTaken, take, List.contains_cons, Bool.or_eq_true, beq_iff_eq]
  rfl

theorem unique_cases (d : Draft) (base : String) :
    (∃ k, d.names.isTaken (Names.candidate base k) = false ∧
      d.unique base = .ok (d.take (Names.candidate base k), Names.candidate base k)) ∨
    (∃ e, d.unique base = .error e) ∧
      ∀ k < maxProbes, d.names.isTaken (Names.candidate base k) = true := by
  unfold unique
  rcases d.names.unique_cases base (fun _ => false) with ⟨k, -, hfree, -, heq⟩ | ⟨hall, heq⟩
  · refine .inl ⟨k, hfree.1, ?_⟩
    rw [heq]
    rfl
  · refine .inr ⟨?_, fun k hk => Names.isTaken_of_not_free (hall k hk)⟩
    rw [heq]
    exact ⟨_, rfl⟩

theorem declareVar_of_isSeat (hx : d.bound.IsSeat x)
    (hnone : d.scopes.declaration? (some x) name = none) :
    d.declareVar (some x) name = .ok (d.withScopes (d.scopes.addVar x name)) := by
  obtain ⟨c, hget, hkind⟩ := Option.map_eq_some_iff.1 hx.1
  have hc : d.scopes.get? (some x) = some c := hget
  have htarget : d.scopes.hoistTarget name (d.scopes.walk (some x)) = .ok (some x) := by
    have hwalk : d.scopes.walk (some x) = x :: d.scopes.walkUp 9999 (d.scopes.parent? (some x)) := rfl
    rw [hwalk, hoistTarget, hc]
    exact if_pos (decide_eq_true hkind)
  have hfresh : c.declaration? name = none := by
    rwa [declaration?, hc, Option.bind_some] at hnone
  unfold declareVar Scopes.declare
  simp only [BindingKind.isHoisted, if_true, htarget, hc, hfresh]
  rfl

theorem declareShared_of_isSeat (hx : d.bound.IsSeat x)
    (hnone : d.scopes.declaration? (some x) name = none) :
    d.declareShared logical name value (some x) = .ok (d.plantShared x logical name value) := by
  have hpos : (d.withScopes (d.scopes.addVar x name)).bound.insertPosition (some x) =
      d.bound.insertPosition (some x) := (Bound.SameFrame.addVar d.bound x name).insertPosition _
  unfold declareShared
  rw [declareVar_of_isSeat hx hnone, ok_bind]
  dsimp only
  rw [hpos]
  rfl

end Draft

/-- `d` was made from the unit `b` by requests. -/
structure Steady (b : Bound) (d : Draft) : Prop where
  frame : b.SameFrame d.bound
  source : d.edits.source = b.unit.source
  identifiers : ∀ {name : String}, name ∈ b.identifiers → d.names.isTaken name = true
  undeclared : ∀ {name : String}, '$' ∈ name.toList → d.names.isTaken name = false →
    ∀ id, d.scopes.declaration? id name = none
  /-- Entries that are overwritten count, too. -/
  noted : ∀ {e : String × SharedVar}, e ∈ d.shared → d.names.isTaken e.2.name = true ∧
    ∃ x, e.2.scope = some x ∧ b.IsSeat x
  alone : ∀ {logical : String} {v : SharedVar}, d.shared? logical = some v →
    ∀ id, id ≠ v.scope → d.scopes.declaration? id v.name = none
  apart : ∀ {logical logical' : String} {v v' : SharedVar}, d.shared? logical = some v →
    d.shared? logical' = some v' → v.name = v'.name → logical = logical'

namespace Steady

variable {b : Bound} {d d' : Draft} {x y : ScopeId} {scope : Option ScopeId} {user : NodeId}
  {name base logical value text : String} {v : SharedVar}

theorem ofBound (h : b.Firm) : Steady b (.ofBound b) where
  frame := .refl b
  source := rfl
  identifiers hn := List.contains_iff_mem.2 hn
  undeclared hd hn := h.undeclared hd fun hmem => by
    have hc := List.contains_iff_mem.2 hmem
    rw [Names.isTaken, Draft.ofBound] at hn
    exact Bool.noConfusion (hn.symm.trans hc)
  noted he := nomatch he
  alone h := nomatch h
  apart h := nomatch h

theorem isSeat_iff (h : Steady b d) : d.bound.IsSeat x ↔ b.IsSeat x := by
  rw [Bound.IsSeat, h.frame.kind?, h.frame.takesVar, Bound.IsSeat]

theorem lt_size (h : Steady b d) (hx : b.IsSeat x) : x < d.scopes.size := by
  obtain ⟨c, hc, -⟩ := Option.map_eq_some_iff.1 hx.1
  exact h.frame.shape.size ▸ lt_size_of_get? hc

theorem taken_of_shared? (h : Steady b d) (hv : d.shared? logical = some v) :
    d.names.isTaken v.name = true ∧ ∃ x, v.scope = some x ∧ b.IsSeat x := by
  obtain ⟨l₁, l₂, heq, -⟩ := List.lookup_eq_some_iff.1 hv
  exact h.noted (e := (logical, v)) (heq ▸ List.mem_append_right _ List.mem_cons_self)

/-- Only what is declared counts of the scopes, and of the edits only their source. -/
theorem congr (h : Steady b d) (hf : b.SameFrame d'.bound)
    (hd : ∀ id name, d'.scopes.declaration? id name = d.scopes.declaration? id name)
    (hs : d'.edits.source = d.edits.source) (hn : d'.names = d.names) (hshared : d'.shared = d.shared) :
    Steady b d' where
  frame := hf
  source := hs.trans h.source
  identifiers hname := hn ▸ h.identifiers hname
  undeclared hdollar hname id := (hd _ _).trans (h.undeclared hdollar (hn ▸ hname) id)
  noted he := hn ▸ h.noted (hshared ▸ he)
  alone hv id hid := (hd _ _).trans (h.alone (by rwa [Draft.shared?, ← hshared]) id hid)
  apart hv hv' := h.apart (by rwa [Draft.shared?, ← hshared]) (by rwa [Draft.shared?, ← hshared])

theorem withScopes {f : Scope → Scope} (h : Steady b d) (id : Option ScopeId)
    (hf : b.SameFrame { d.bound with scopes := d.scopes.update id f })
    (hd : ∀ c, (f c).declarations = c.declarations) : Steady b (d.withScopes (d.scopes.update id f)) :=
  h.congr hf (fun _ _ => declaration?_update (fun c => by rw [Scope.declaration?, hd]; rfl) _ _) rfl
    rfl rfl

theorem take (h : Steady b d) (name : String) : Steady b (d.take name) where
  frame := h.frame
  source := h.source
  identifiers hn := (d.isTaken_take _ _).2 (.inr (h.identifiers hn))
  undeclared hd hn := h.undeclared hd (Bool.eq_false_iff.2 fun ht =>
    Bool.noConfusion (hn.symm.trans ((d.isTaken_take _ _).2 (.inr ht))))
  noted he := (h.noted he).imp_left fun ht => (d.isTaken_take _ _).2 (.inr ht)
  alone := h.alone
  apart := h.apart

theorem declaration?_plant (h : Steady b d) (hx : b.IsSeat x)
    (hnone : d.scopes.declaration? (some x) name = none) (id : Option ScopeId) (other : String) :
    (d.plant x name text).scopes.declaration? id other =
      if id = some x ∧ other = name then some { kind := .var, node := none, fromPos := none }
      else d.scopes.declaration? id other := by
  cases id with
  | none => rw [if_neg fun hid => nomatch hid.1]; rfl
  | some y =>
    refine (declaration?_addVar (h.lt_size hx)).trans ?_
    by_cases hy : y = x ∧ other = name
    · rw [if_pos hy, if_pos ⟨congrArg some hy.1, hy.2⟩, hy.1, hy.2, hnone]
      rfl
    · rw [if_neg hy, if_neg fun hid => hy ⟨Option.some.inj hid.1, hid.2⟩]

/-- A `var` of a name that no shared variable has. -/
theorem plant (h : Steady b d) (hx : b.IsSeat x) (ht : d.names.isTaken name = true)
    (hnone : d.scopes.declaration? (some x) name = none)
    (hother : ∀ {l v}, d.shared? l = some v → v.name ≠ name) : Steady b (d.plant x name text) where
  frame := h.frame.trans (.addVar d.bound x name)
  source := h.source
  identifiers := h.identifiers
  undeclared hd hn id := by
    rw [h.declaration?_plant hx hnone, if_neg]
    · exact h.undeclared hd hn id
    · rintro ⟨-, rfl⟩
      cases hn.symm.trans ht
  noted := h.noted
  alone hv id hid := by
    rw [h.declaration?_plant hx hnone, if_neg fun he => hother hv he.2]
    exact h.alone hv id hid
  apart := h.apart

theorem declaration?_plantShared (h : Steady b d) (hx : b.IsSeat x)
    (hnone : d.scopes.declaration? (some x) name = none) (id : Option ScopeId) (other : String) :
    (d.plantShared x logical name value).scopes.declaration? id other =
      if id = some x ∧ other = name then some { kind := .var, node := none, fromPos := none }
      else d.scopes.declaration? id other :=
  show (d.plant x name (initializedText name value)).scopes.declaration? id other = _ from
    h.declaration?_plant hx hnone id other

theorem shared?_plantShared (d : Draft) (x : ScopeId) (logical name value other : String) :
    (d.plantShared x logical name value).shared? other =
      if other = logical then some { name, value, scope := some x, edit := d.edits.edits.size }
      else d.shared? other := by
  rw [Draft.shared?, Draft.plantShared, List.lookup_cons]
  by_cases ho : other = logical
  · rw [if_pos ho, ho, beq_self_eq_true]
  · rw [if_neg ho, beq_eq_false_iff_ne.2 ho]
    rfl

/-- A shared variable of a name that no other logical name has. -/
theorem plantShared (h : Steady b d) (hx : b.IsSeat x) (ht : d.names.isTaken name = true)
    (hnone : ∀ id, d.scopes.declaration? id name = none)
    (hother : ∀ {l v}, l ≠ logical → d.shared? l = some v → v.name ≠ name) :
    Steady b (d.plantShared x logical name value) where
  frame := h.frame.trans (.addVar d.bound x name)
  source := h.source
  identifiers := h.identifiers
  undeclared hd hn id := by
    rw [h.declaration?_plantShared hx (hnone _), if_neg]
    · exact h.undeclared hd hn id
    · rintro ⟨-, rfl⟩
      cases hn.symm.trans ht
  noted he := by
    rcases List.mem_cons.1 he with rfl | he
    · exact ⟨ht, x, rfl, hx⟩
    · exact h.noted he
  alone {l w} hw id hid := by
    rw [h.declaration?_plantShared hx (hnone _)]
    rw [shared?_plantShared] at hw
    split at hw
    · obtain rfl := Option.some.inj hw
      rw [if_neg fun he => hid he.1]
      exact hnone id
    · next hl =>
      rw [if_neg fun he => hother hl hw he.2]
      exact h.alone hw id hid
  apart {l l' w w'} hw hw' heq := by
    rw [shared?_plantShared] at hw hw'
    split at hw <;> split at hw'
    · exact Eq.trans ‹_› (Eq.symm ‹_›)
    · obtain rfl := Option.some.inj hw
      exact absurd heq.symm (hother ‹_› hw')
    · obtain rfl := Option.some.inj hw'
      exact absurd heq (hother ‹_› hw)
    · exact h.apart hw hw' heq

theorem retract (h : Steady b d) (v : SharedVar) : Steady b (d.retract v) where
  frame := h.frame.trans (.remove d.bound _ _)
  source := h.source
  identifiers := h.identifiers
  undeclared hd hn id := by
    cases id with
    | none => rfl
    | some y =>
      refine (declaration?_remove _).trans ?_
      split
      · rfl
      · exact h.undeclared hd hn _
  noted := h.noted
  alone hw id hid := by
    cases id with
    | none => rfl
    | some y =>
      refine (declaration?_remove _).trans ?_
      split
      · rfl
      · exact h.alone hw _ hid
  apart := h.apart

/-- A name whose declaration was taken back is declared nowhere. -/
theorem declaration?_retract (h : Steady b d) (hv : d.shared? logical = some v)
    (id : Option ScopeId) : (d.retract v).scopes.declaration? id v.name = none := by
  cases id with
  | none => rfl
  | some y =>
    refine (declaration?_remove _).trans ?_
    split
    · rfl
    · next hy => exact h.alone hv _ fun he => hy ⟨he.symm, rfl⟩

/-! ### Each kind of request -/

/-- A temporary is one that was given back, or a new variable. -/
theorem temporary_cases (h : Steady b d) (hx : b.declarationScope? scope = some x) (user : NodeId)
    (base : String) :
    (∃ t name, d.scopes.popFree? (some x) (b.startOf user) = some (t, name) ∧
      d.temporary user scope base = .ok (d.withScopes t, name)) ∨
    (∃ k, d.names.isTaken (Names.candidate base k) = false ∧
      d.temporary user scope base = .ok ((d.take (Names.candidate base k)).plant x
        (Names.candidate base k) (varText (Names.candidate base k)), Names.candidate base k)) ∨
    (∃ e, d.temporary user scope base = .error e) ∧
      ∀ k < maxProbes, d.names.isTaken (Names.candidate base k) = true := by
  have hseat := Bound.isSeat_of_declarationScope? hx
  unfold temporary
  rw [h.frame.declarationScope?, hx]
  dsimp only
  rw [show d.nodes = b.nodes from h.frame.nodes]
  cases hpop : d.scopes.popFree? (some x) (((b.nodes.get? user).map (·.start)).getD 0) with
  | some p => exact .inl ⟨p.1, p.2, hpop, rfl⟩
  | none =>
    right
    rcases d.unique_cases base with ⟨k, hk, hunique⟩ | ⟨⟨e, hunique⟩, hall⟩
    · have hnone := h.undeclared (Names.dollar_mem_candidate base k) hk (some x)
      have hdeclare := declareVar_of_isSeat (d := d.take (Names.candidate base k))
        (h.isSeat_iff.2 hseat) hnone
      refine .inl ⟨k, hk, ?_⟩
      dsimp only
      rw [hunique, ok_bind, hdeclare, ok_bind]
      dsimp only [pure, Except.pure]
      have hpos := (Bound.SameFrame.addVar d.bound x (Names.candidate base k)).insertPosition (some x)
      exact congrArg (fun p => Except.ok ((((d.take _).withScopes _).insertBefore p _), _)) hpos
    · refine .inr ⟨⟨e, ?_⟩, hall⟩
      dsimp only
      rw [hunique]
      rfl

/-- What lies around two scopes has a place for declarations. -/
theorem exists_common (h : Steady b d) (hfirm : b.Firm) (hx : b.IsSeat x) (o : ScopeId) :
    ∃ y, b.declarationScope? (b.commonHoist (some x) (some o)) = some y := by
  rcases Bound.commonHoist_cases hfirm.rooted x o with ⟨c, heq, hc, -⟩ | ⟨heq, -⟩
  · rw [heq]
    obtain ⟨s, hs, -⟩ := Option.map_eq_some_iff.1 hc.2.2
    exact hfirm.seated (lt_size_of_get? hs)
  · rw [heq]
    exact hfirm.seated (h.frame.shape.size ▸ h.lt_size hx)

/-- A request for a shared variable meets an entry that covers it, moves one, or makes one. -/
theorem sharedVar_cases (h : Steady b d) (hfirm : b.Firm) (hx : b.declarationScope? scope = some x)
    (logical value : String) :
    (∃ v, d.shared? logical = some v ∧ v.value = value ∧
      b.scopes.isAncestor v.scope (some x) = true ∧
      d.sharedVar scope logical value = .ok (d, v.name)) ∨
    (∃ v o y, d.shared? logical = some v ∧ v.value = value ∧ v.scope = some o ∧
      b.scopes.isAncestor (some o) (some x) = false ∧
      b.declarationScope? (b.commonHoist (some x) (some o)) = some y ∧
      d.sharedVar scope logical value =
        .ok ((d.retract v).plantShared y logical v.name value, v.name)) ∨
    (∀ v, d.shared? logical = some v → v.value ≠ value) ∧
      ((∃ k, d.names.isTaken (Names.candidate logical k) = false ∧
        d.sharedVar scope logical value = .ok ((d.take (Names.candidate logical k)).plantShared x
          logical (Names.candidate logical k) value, Names.candidate logical k)) ∨
      (∃ e, d.sharedVar scope logical value = .error e) ∧
        ∀ k < maxProbes, d.names.isTaken (Names.candidate logical k) = true) := by
  have hseat := Bound.isSeat_of_declarationScope? hx
  have hancestor (v : SharedVar) :
      d.scopes.isAncestor v.scope (some x) = b.scopes.isAncestor v.scope (some x) := by
    rw [isAncestor, isAncestor, show d.scopes.walk _ = _ from h.frame.walk _]
  unfold sharedVar
  rw [h.frame.declarationScope?, hx]
  dsimp only
  cases hfilter : (d.shared? logical).filter (·.value = value) with
  | some v =>
    obtain ⟨hv, hvalue⟩ := Option.filter_eq_some_iff.1 hfilter
    have hvalue := of_decide_eq_true hvalue
    obtain ⟨-, o, ho, -⟩ := h.taken_of_shared? hv
    cases hcovers : b.scopes.isAncestor v.scope (some x) with
    | true =>
      refine .inl ⟨v, hv, hvalue, hcovers, ?_⟩
      dsimp only
      rw [if_pos ((hancestor v).trans hcovers)]
      rfl
    | false =>
      obtain ⟨y, hy⟩ := h.exists_common hfirm hseat o
      have hsteady := h.retract v
      have hdeclare : (d.retract v).declareShared logical v.name value (some y) = _ :=
        declareShared_of_isSeat (hsteady.isSeat_iff.2 (Bound.isSeat_of_declarationScope? hy))
          (h.declaration?_retract hv _)
      refine .inr (.inl ⟨v, o, y, hv, hvalue, ho, ho ▸ hcovers, hy, ?_⟩)
      dsimp only
      rw [if_neg (by rw [hancestor, hcovers]; exact Bool.false_ne_true), h.frame.declarationScope?,
        h.frame.commonHoist, ho, hy, ← ho]
      change ((d.retract v).declareShared logical v.name value (some y) >>= fun d' =>
        Except.ok (d', v.name)) = _
      rw [hdeclare]
      rfl
  | none =>
    refine .inr (.inr ⟨fun v hv hvalue => ?_, ?_⟩)
    · have hsome : (d.shared? logical).filter (·.value = value) = some v :=
        Option.filter_eq_some_iff.2 ⟨hv, decide_eq_true hvalue⟩
      cases hfilter.symm.trans hsome
    · rcases d.unique_cases logical with ⟨k, hk, hunique⟩ | ⟨⟨e, hunique⟩, hall⟩
      · have hnone := h.undeclared (Names.dollar_mem_candidate logical k) hk (some x)
        have hdeclare : (d.take (Names.candidate logical k)).declareShared logical
            (Names.candidate logical k) value (some x) = _ :=
          declareShared_of_isSeat (h.isSeat_iff.2 hseat) hnone
        refine .inl ⟨k, hk, ?_⟩
        dsimp only
        rw [hunique, ok_bind, hdeclare]
        rfl
      · refine .inr ⟨⟨e, ?_⟩, hall⟩
        dsimp only
        rw [hunique]
        rfl

/-! ### Steps and runs -/

theorem pushFree (h : Steady b d) (id : Option ScopeId) (name : String) (position : Nat) :
    Steady b (d.withScopes (d.scopes.pushFree id name position)) :=
  h.withScopes id (h.frame.trans (.pushFree d.bound id name position)) fun _ => rfl

/-- A temporary that is given back is free, and may be cleared at the end of a block. -/
theorem release_cases (h : Steady b d) (hx : b.declarationScope? (b.nodeScope? user) = some x)
    (name : String) (cleanup : Bool) :
    d.release name user cleanup =
      d.withScopes (d.scopes.pushFree (some x) name (b.stopOf user)) ∨
    ∃ block p, b.blockEnd? user = some (block, p) ∧ d.release name user cleanup =
      (d.withScopes (d.scopes.pushFree (some x) name (b.stopOf user))).clear block p name := by
  have hblock (id : Option ScopeId) (stop : Nat) :
      (d.withScopes (d.scopes.pushFree id name stop)).bound.blockEnd? user = b.blockEnd? user :=
    (h.frame.trans (.pushFree d.bound id name stop)).blockEnd? user
  unfold Draft.release
  rw [h.frame.declarationScope?, h.frame.nodeScope?, hx, show d.nodes = b.nodes from h.frame.nodes]
  dsimp only
  rw [hblock]
  split
  · next hend =>
    split at hend
    · exact .inr ⟨_, _, hend, rfl⟩
    · cases hend
  · exact .inl rfl

theorem release (h : Steady b d) (name : String) (user : NodeId) (cleanup : Bool) :
    Steady b (d.release name user cleanup) := by
  unfold Draft.release
  extract_lets hoist stop d₁
  have h₁ : Steady b d₁ := h.pushFree hoist name stop
  clear_value d₁
  split
  · refine h₁.congr h₁.frame (fun _ _ => rfl) ?_ rfl rfl
    unfold Draft.clear
    split <;> rfl
  · exact h₁

/-- A name that no shared variable has yet. -/
theorem ne_of_isTaken_eq_false (h : Steady b d) (hn : d.names.isTaken name = false)
    (hv : d.shared? logical = some v) : v.name ≠ name := by
  rintro rfl
  cases hn.symm.trans (h.taken_of_shared? hv).1

theorem popFree {t : Scopes} {position : Nat} (h : Steady b d)
    (hpop : d.scopes.popFree? (some x) position = some (t, name)) : Steady b (d.withScopes t) := by
  obtain ⟨i, stop, -, -, rfl, -⟩ := popFree?_eq_some hpop
  exact h.withScopes (some x) (h.frame.trans (.update d.bound _ ⟨fun _ => rfl, fun _ => rfl,
    fun _ => rfl⟩ (fun _ => rfl) fun _ => rfl)) fun _ => rfl

/-- A new `var`. -/
theorem plantNew (h : Steady b d) (hx : b.IsSeat x) (hd : '$' ∈ name.toList)
    (hn : d.names.isTaken name = false) : Steady b ((d.take name).plant x name text) :=
  (h.take name).plant hx ((d.isTaken_take _ _).2 (.inl rfl)) (h.undeclared hd hn _) fun hv =>
    h.ne_of_isTaken_eq_false hn hv

theorem temporary (h : Steady b d) (hx : b.declarationScope? scope = some x)
    (ht : d.temporary user scope base = .ok (d', name)) : Steady b d' := by
  have hseat := Bound.isSeat_of_declarationScope? hx
  rcases h.temporary_cases hx user base with
    ⟨t, name', hpop, heq⟩ | ⟨k, hk, heq⟩ | ⟨⟨e, heq⟩, -⟩
  · cases ht.symm.trans heq
    exact h.popFree hpop
  · cases ht.symm.trans heq
    exact h.plantNew hseat (Names.dollar_mem_candidate base k) hk
  · cases ht.symm.trans heq

theorem sharedVar (h : Steady b d) (hfirm : b.Firm) (hx : b.declarationScope? scope = some x)
    (hs : d.sharedVar scope logical value = .ok (d', name)) : Steady b d' := by
  have hseat := Bound.isSeat_of_declarationScope? hx
  rcases h.sharedVar_cases hfirm hx logical value with ⟨v, -, -, -, heq⟩ |
    ⟨v, o, y, hv, -, -, -, hy, heq⟩ | ⟨-, ⟨k, hk, heq⟩ | ⟨⟨e, heq⟩, -⟩⟩
  · cases hs.symm.trans heq
    exact h
  · cases hs.symm.trans heq
    exact (h.retract v).plantShared (Bound.isSeat_of_declarationScope? hy) (h.taken_of_shared? hv).1
      (h.declaration?_retract hv) fun hl hw hn => hl (h.apart hw hv hn)
  · cases hs.symm.trans heq
    exact (h.take _).plantShared hseat ((d.isTaken_take _ _).2 (.inl rfl))
      (h.undeclared (Names.dollar_mem_candidate logical k) hk) fun _ hv =>
        h.ne_of_isTaken_eq_false hk hv
  · cases hs.symm.trans heq

theorem answer (h : Steady b d) (hfirm : b.Firm) {r : Request} (hr : r.Known b)
    (ha : d.answer r = .ok (d', name)) : Steady b d' := by
  cases r with
  | temporary user scope base =>
    obtain ⟨-, z, rfl, hz⟩ := hr
    obtain ⟨x, hx⟩ := hfirm.seated hz
    exact h.temporary hx ha
  | release name user cleanup =>
    cases ha
    exact h.release name user cleanup
  | shared scope logical value =>
    obtain ⟨z, rfl, hz⟩ := hr
    obtain ⟨x, hx⟩ := hfirm.seated hz
    exact h.sharedVar hfirm hx ha

theorem serve {s : Session} (h : Steady b s.draft) (hfirm : b.Firm) {r : Request} (hr : r.Known b) :
    Steady b (s.serve r).draft := by
  rcases s.serve_cases r with heq | ⟨d, name, ha, heq⟩
  · rwa [heq]
  · rw [heq]
    exact h.answer hfirm hr ha

/-- A request fails only if all candidates for its name are taken. -/
theorem taken_of_answer_eq_error (h : Steady b d) (hfirm : b.Firm) {r : Request} (hr : r.Known b)
    {e : Failure} (ha : d.answer r = .error e) :
    ∃ base, r.base? = some base ∧ ∀ k < maxProbes, d.names.isTaken (Names.candidate base k) = true := by
  cases r with
  | temporary user scope base =>
    obtain ⟨-, z, rfl, hz⟩ := hr
    obtain ⟨x, hx⟩ := hfirm.seated hz
    rcases h.temporary_cases hx user base with ⟨t, name', -, heq⟩ | ⟨k, -, heq⟩ | ⟨-, hall⟩
    · cases ha.symm.trans heq
    · cases ha.symm.trans heq
    · exact ⟨base, rfl, hall⟩
  | release name user cleanup => cases ha
  | shared scope logical value =>
    obtain ⟨z, rfl, hz⟩ := hr
    obtain ⟨x, hx⟩ := hfirm.seated hz
    rcases h.sharedVar_cases hfirm hx logical value with ⟨v, -, -, -, heq⟩ |
      ⟨v, o, y, -, -, -, -, -, heq⟩ | ⟨-, ⟨k, -, heq⟩ | ⟨-, hall⟩⟩
    · cases ha.symm.trans heq
    · cases ha.symm.trans heq
    · cases ha.symm.trans heq
    · exact ⟨logical, rfl, hall⟩

/-- A session of known requests keeps its draft steady. -/
theorem run (hfirm : b.Firm) {rs : List Request} (hrs : ∀ r ∈ rs, r.Known b) :
    Steady b ((Session.start b).run rs).draft :=
  Session.run_induct (P := fun s => Steady b s.draft) (ofBound hfirm) fun hr hs ha =>
    hs.answer hfirm (hrs _ hr) ha

end Steady

end LoopClosure
