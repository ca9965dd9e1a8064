import LoopClosure.Proofs.Binding.Traces

/-!
# What marks say

A hoisting scope of a bound unit has the mark of a name exactly if a reference by that name passes the
scope on its way to its binding, or if a `catch` binds the name and the scope is the nearest one that
hoists around it (`bind_marked`). The references that pass a scope are those whose lookup a declaration
there would change (`lookup?_declaring_ne_iff`). So the marks are what a new `var` has to avoid, and no
more (`marks_iff_shadows`).
-/

namespace LoopClosure

open Syntax Scopes Binding

/-! ## A declaration more -/

/-- Of two ways to search a list, one also stops at `x`. They differ if `x` comes before what the other
finds. -/
theorem find?_or_ne_iff {α : Type} [DecidableEq α] {p : α → Bool} {a x : α} {l : List α}
    (h : l.find? p = some a) :
    l.find? (fun y => decide (y = x) || p y) ≠ some a ↔ x ∈ l.takeWhile (· ≠ a) := by
  induction l with
  | nil => cases h
  | cons y l ih =>
    by_cases hp : p y = true
    · rw [List.find?_cons_of_pos hp] at h
      simp [Option.some.inj h, Option.some.inj h ▸ hp]
    · rw [List.find?_cons_of_neg hp] at h
      have hne : y ≠ a := fun e => hp (e ▸ List.find?_some h)
      rw [List.takeWhile_cons_of_pos (by simpa using hne), List.mem_cons]
      by_cases hx : y = x
      · simp [hx, hx ▸ hne]
      · rw [List.find?_cons_of_neg (by simp [hx, hp]), ih h, or_iff_right (Ne.symm hx)]

namespace Scopes

variable {s : Scopes} {x target : ScopeId} {inner : Option ScopeId} {name other : String}

/-- The table with a declaration more. -/
def declaring (s : Scopes) (x : ScopeId) (name : String) (d : Declaration) : Scopes :=
  s.update x (·.append name d)

/-- A declaration changes the lookups of its name that pass its scope. -/
theorem lookup?_declaring_ne_iff (hx : x < s.size) (d : Declaration)
    (hfound : s.lookup? inner other = some target) :
    (s.declaring x name d).lookup? inner other ≠ s.lookup? inner other ↔
      other = name ∧ x ∈ (s.walk inner).takeWhile (· ≠ target) := by
  have hshape : s.SameShape (s.declaring x name d) :=
    .update s x ⟨fun _ => rfl, fun _ => rfl, fun _ => rfl⟩
  have hwalk : (s.declaring x name d).walk inner = s.walk inner :=
    walkUp_congr (fun _ => hshape.parent? _) _ _
  have hnew : (s.declaring x name d).lookup? inner other = (s.walk inner).find? fun id =>
      decide (id = x ∧ other = name) || (s.declaration? (some id) other).isSome := by
    rw [lookup?, hwalk]
    simp only [declares_eq, declaring, isSome_declaration?_append hx]
  have hold : (s.walk inner).find? (fun id => (s.declaration? (some id) other).isSome) =
      some target := by
    simp only [← hfound, lookup?, declares_eq]
  rw [hnew, hfound]
  by_cases hname : other = name
  · simp only [hname, and_true, true_and]
    exact find?_or_ne_iff (hname ▸ hold)
  · simp [hname, hold]

end Scopes

namespace Binding

variable {u : CompilationUnit} {s t : Scopes} {table : Array ScopeId} {b b' : Build} {y : ScopeId}
  {name : String}

/-! ## Marks that a `catch` leaves -/

/-- A `catch` binds the name, and around it `y` is the nearest scope that hoists. -/
def Caught (u : CompilationUnit) (s : Scopes) (table : Array ScopeId) (y : ScopeId) (name : String) :
    Prop :=
  ∃ c form, c < table.size ∧ u.nodes.form? c = some form ∧ name ∈ caughtNames u form ∧
    s.closestHoist? (some (standing u table c)) = some y

/-- The marks are those for what is caught. -/
def MarksCaught (u : CompilationUnit) (s : Scopes) (table : Array ScopeId) : Prop :=
  ∀ y name, s.hasPropagated (some y) name = true ↔ Caught u s table y name

theorem closestHoist?_markAll (id : Option ScopeId) (names : List String) (s : Scopes)
    (j : Option ScopeId) :
    (names.foldl (fun s name => s.markPropagates id name) s).closestHoist? j =
      s.closestHoist? j := by
  refine closestHoist?_congr (fun _ => (SameUses.markAll s id names).shape.parent? _) (fun x => ?_) j
  induction names generalizing s with
  | nil => rfl
  | cons name names ih =>
    exact (ih _).trans (view_update (f := (·.propagate name)) (·.kind) (fun _ => rfl) _ _)

theorem Entered.standing_lt (hb : Entered u b) (i : NodeId) :
    standing u b.nodeScopes i < b.scopes.size := hb.scope_lt _

theorem isSome_get?_of_closestHoist? {id : Option ScopeId} (h : s.closestHoist? id = some y) :
    (s.get? (some y)).isSome = true := by
  have hk := List.find?_some h
  obtain ⟨c, hc, -⟩ := Option.map_eq_some_iff.1 (of_decide_eq_true hk)
  rw [hc, Option.isSome_some]

namespace MarksCaught

theorem built (hm : MarksCaught u b.scopes b.nodeScopes) (hb : Entered u b) (h : b.scopes.Built t) :
    MarksCaught u t b.nodeScopes := by
  intro y name
  simp only [h.hasPropagated_eq, hm y name, Caught,
    h.closestHoist?_eq hb.wellFormed (hb.standing_lt _)]

theorem push (hns : u.nodes.WellFormed) (hm : MarksCaught u b.scopes b.nodeScopes)
    (hb : Entered u b) {n : Node} (hn : u.nodes.get? b.nodeScopes.size = some n) {own : ScopeId}
    (he : enterScopes u b.scopes b.nodeScopes.size (standing u b.nodeScopes b.nodeScopes.size)
      n.form = .ok (t, own)) : MarksCaught u t (b.nodeScopes.push own) := by
  have hlt := hb.standing_lt b.nodeScopes.size
  obtain ⟨r, ho, ht⟩ := enterScopes_opened hlt he
  have hform : u.nodes.form? b.nodeScopes.size = some n.form := by
    rw [Nodes.form?, hn, Option.map_some]
  have hclosest {c : NodeId} (hc : c ≤ b.nodeScopes.size) :
      t.closestHoist? (some (standing u (b.nodeScopes.push own) c)) =
        b.scopes.closestHoist? (some (standing u b.nodeScopes c)) := by
    rw [standing_push hns hc, ht, closestHoist?_markAll,
      ho.built.closestHoist?_eq hb.wellFormed (hb.standing_lt c)]
  intro y name
  have hmarks : t.hasPropagated (some y) name = true ↔ Caught u b.scopes b.nodeScopes y name ∨
      b.scopes.closestHoist? (some (standing u b.nodeScopes b.nodeScopes.size)) = some y ∧
        name ∈ caughtNames u n.form := by
    rw [ht, hasPropagated_markAll, ho.built.hasPropagated_eq, hm y name,
      ho.built.closestHoist?_eq hb.wellFormed hlt]
    refine or_congr_right (and_iff_right_of_imp fun h => ?_)
    have hr : r.closestHoist? (some (standing u b.nodeScopes b.nodeScopes.size)) = some y := by
      rw [ho.built.closestHoist?_eq hb.wellFormed hlt, h.1]
    exact isSome_get?_of_closestHoist? hr
  rw [hmarks]
  constructor
  · rintro (⟨c, form, hc, hf, hname, hy⟩ | ⟨hy, hname⟩)
    · refine ⟨c, form, ?_, hf, hname, (hclosest (Nat.le_of_lt hc)).trans hy⟩
      rw [Array.size_push]
      exact Nat.lt_succ_of_lt hc
    · refine ⟨b.nodeScopes.size, n.form, ?_, hform, hname, (hclosest (Nat.le_refl _)).trans hy⟩
      rw [Array.size_push]
      exact Nat.lt_succ_self _
  · rintro ⟨c, form, hc, hf, hname, hy⟩
    rw [Array.size_push] at hc
    have hle := Nat.le_of_lt_succ hc
    rw [hclosest hle] at hy
    rcases Nat.lt_or_eq_of_le hle with hc | rfl
    · exact .inl ⟨c, form, hc, hf, hname, hy⟩
    · cases hf.symm.trans hform
      exact .inr ⟨hy, hname⟩

theorem enterNode (hns : u.nodes.WellFormed) (hm : MarksCaught u b.scopes b.nodeScopes)
    (hb : Entered u b) {n : Node} (hn : u.nodes.get? b.nodeScopes.size = some n)
    (h : enterNode u b b.nodeScopes.size n = .ok b') : MarksCaught u b'.scopes b'.nodeScopes := by
  have hscope : (n.parent.bind fun p => b.nodeScopes[p]?).getD topScope =
      standing u b.nodeScopes b.nodeScopes.size := by
    rw [standing, Nodes.parent?, hn]
    rfl
  obtain ⟨own, he, htable⟩ := enterNode_scopes h
  rw [hscope] at he
  exact htable ▸ hm.push hns hb hn he

theorem enterNodes (hns : u.nodes.WellFormed) {ns : List Node}
    (hm : MarksCaught u b.scopes b.nodeScopes) (hb : Entered u b)
    (hrest : u.nodes.table.toList.drop b.nodeScopes.size = ns)
    (h : enterNodes u b b.nodeScopes.size ns = .ok b') : MarksCaught u b'.scopes b'.nodeScopes :=
  hb.invariant (P := fun b => MarksCaught u b.scopes b.nodeScopes) hm
    (fun hb hm hn h => enterNode hns hm hb hn h) hrest h

theorem environment (h : environment u = .ok s) : MarksCaught u s #[] := by
  have hnone : ∀ p : ScopeId, none = some p → p < Scopes.size {} := fun p hp => nomatch hp
  have hinit : Scopes.Built {} s := Scopes.Built.trans (.alloc _ _ _ hnone .refl) (environment_built h)
  intro y name
  rw [hinit.hasPropagated_eq]
  have hempty : Scopes.hasPropagated {} (some y) name = false := rfl
  refine ⟨fun h => ?_, fun ⟨c, form, hc, _⟩ => absurd hc (Nat.not_lt_zero c)⟩
  rw [hempty] at h
  cases h

end MarksCaught

/-! ## Marks that references leave -/

theorem Steps.walk_eq {G : Grants} (h : Steps u G s t) (id : Option ScopeId) :
    t.walk id = s.walk id :=
  walkUp_congr (fun _ => h.sameShape.parent? _) _ _

theorem Steps.closestHoist? {G : Grants} (h : Steps u G s t) (id : Option ScopeId) :
    t.closestHoist? id = s.closestHoist? id :=
  closestHoist?_congr (fun _ => h.sameShape.parent? _) (fun _ => h.kind? _) id

theorem Steps.lookup? (h : Steps u .none s t) (id : Option ScopeId) (name : String) :
    t.lookup? id name = s.lookup? id name := by
  simp only [Scopes.lookup?, h.walk_eq, declares_eq, h.isSome_eq]

theorem Steps.liesBetween_iff {G : Grants} (h : Steps u G s t) {inner : Option ScopeId}
    {outer : ScopeId} : LiesBetween t inner outer y ↔ LiesBetween s inner outer y := by
  simp only [LiesBetween, h.closestHoist?, h.walk_eq, h.kind?]

/-- What is resolved is found in the table `s`, and what its way passes has its mark; the references
`idents` are to come. -/
structure Passed (u : CompilationUnit) (b : Build) (s : Scopes) (idents : List NodeId)
    (r : Resolving) : Prop where
  steps : Steps u .none s r.scopes
  size : r.resolved.size = u.nodes.size
  fresh : ∀ i ∈ idents, r.resolved[i]? = some none ∨ r.resolved[i]? = none
  found : ∀ {i : NodeId} {e : Resolution}, r.resolved[i]? = some (some e) →
    ∃ name, u.nodes.identifier? i = some name ∧
      s.lookup? b.nodeScopes[i]? name = some e.scope
  marks : ∀ (y : ScopeId) (name : String), r.scopes.hasPropagated (some y) name = true ↔
    s.hasPropagated (some y) name = true ∨ ∃ i e, r.resolved[i]? = some (some e) ∧
      u.nodes.identifier? i = some name ∧ LiesBetween s b.nodeScopes[i]? e.scope y

namespace Passed

variable {r r' : Resolving} {i : NodeId} {idents : List NodeId}

theorem start (hsize : r.resolved = .replicate u.nodes.size none) :
    Passed u b r.scopes idents r := by
  have hnone {i : NodeId} {e : Resolution} : r.resolved[i]? ≠ some (some e) := by
    rw [hsize, Array.getElem?_replicate]
    split <;> exact nofun
  refine ⟨.refl, by simp [hsize], fun i _ => ?_, fun hi => absurd hi hnone, fun y name => ?_⟩
  · rw [hsize, Array.getElem?_replicate]
    split <;> simp
  · exact (or_iff_left fun ⟨_, _, hi, _⟩ => hnone hi).symm

theorem resolveReference (hr : Passed u b s (i :: idents) r) (hnew : i ∉ idents)
    (h : resolveReference u b r i = .ok r') : Passed u b s idents r' := by
  have hsteps := hr.steps.trans (resolveReference_steps h)
  rcases resolveReference_cases h with ⟨rfl, -⟩ | ⟨name, e, hres⟩
  · exact ⟨hr.steps, hr.size, fun j hj => hr.fresh j (List.mem_cons_of_mem _ hj), hr.found,
      hr.marks⟩
  have hi : i < r.resolved.size := hr.size ▸ Nodes.lt_size_of_identifier? hres.named
  have hself : r'.resolved[i]? = some (some e) := by
    rw [hres.resolved, Array.getElem?_setIfInBounds_self_of_lt hi]
  have hother {j : NodeId} (hj : j ≠ i) : r'.resolved[j]? = r.resolved[j]? := by
    rw [hres.resolved, Array.getElem?_setIfInBounds_ne hj.symm]
  have hfresh {e' : Resolution} : r.resolved[i]? ≠ some (some e') := by
    rcases hr.fresh i List.mem_cons_self with h | h <;> simp [h]
  refine ⟨hsteps, ?_, fun j hj => ?_, fun {j e'} hj => ?_, fun y other => ?_⟩
  · rw [hres.resolved, Array.size_setIfInBounds, hr.size]
  · rw [hother fun e => hnew (e ▸ hj)]
    exact hr.fresh j (List.mem_cons_of_mem _ hj)
  · by_cases hji : j = i
    · subst j
      cases hself.symm.trans hj
      exact ⟨name, hres.named, (hr.steps.lookup? _ _).symm.trans hres.found⟩
    · exact hr.found (hother hji ▸ hj)
  · rw [hres.marks, hr.marks, hr.steps.liesBetween_iff, or_assoc]
    refine or_congr_right ⟨?_, ?_⟩
    · rintro (⟨j, e', hj, hname, hy⟩ | ⟨rfl, hy⟩)
      · exact ⟨j, e', (hother fun e => hfresh (e ▸ hj)).trans hj, hname, hy⟩
      · exact ⟨i, e, hself, hres.named, hy⟩
    · rintro ⟨j, e', hj, hname, hy⟩
      by_cases hji : j = i
      · subst j
        cases hself.symm.trans hj
        exact .inr ⟨Option.some.inj (hname.symm.trans hres.named), hy⟩
      · exact .inl ⟨j, e', hother hji ▸ hj, hname, hy⟩

theorem resolveAll (hr : Passed u b s idents r) (hnodup : idents.Nodup)
    (h : resolveAll u b r idents = .ok r') : Passed u b s [] r' := by
  induction idents generalizing r with
  | nil =>
    cases h
    exact hr
  | cons i idents ih =>
    obtain ⟨r₁, h₁, h⟩ := bind_eq_ok.1 h
    obtain ⟨hnew, hrest⟩ := List.nodup_cons.1 hnodup
    exact ih (hr.resolveReference hnew h₁) hrest h

end Passed

end Binding

/-! ## Bound units -/

/-- What is resolved is found, and the marks are those for what is caught and for what passes. -/
structure Bound.Marked (b : Bound) : Prop where
  found : ∀ {i : NodeId} {r : Resolution}, b.resolution? i = some r →
    ∃ name, b.nodes.identifier? i = some name ∧
      b.scopes.lookup? (b.nodeScope? i) name = some r.scope
  marks : ∀ (y : ScopeId) (name : String), b.scopes.hasPropagated (some y) name = true ↔
    Caught b.unit b.scopes b.nodeScopes y name ∨ ∃ i r, b.resolution? i = some r ∧
      b.nodes.identifier? i = some name ∧ LiesBetween b.scopes (b.nodeScope? i) r.scope y

/-- With a declaration of the name at `y`, the lookup of some reference that is resolved would end
elsewhere. -/
def Bound.Shadows (b : Bound) (y : ScopeId) (name : String) (d : Declaration) : Prop :=
  ∃ i r other, b.resolution? i = some r ∧ b.nodes.identifier? i = some other ∧
    (b.scopes.declaring y name d).lookup? (b.nodeScope? i) other ≠
      b.scopes.lookup? (b.nodeScope? i) other

/-- A `catch` clause to which `y` is the nearest scope that hoists binds the name. -/
def Bound.Catches (b : Bound) (y : ScopeId) (name : String) : Prop :=
  ∃ c param body, b.nodes.form? c = some (.catchClause (some param) body) ∧
    name ∈ b.nodes.bindingNames param ∧ b.scopes.closestHoist? (b.nodeScope? c) = some y

section Bind

variable {u : CompilationUnit} {root : NodeId} {b : Bound}

theorem bind_marked (hns : u.nodes.WellFormed) (hb : bind u root = .ok b) : b.Marked := by
  unfold bind at hb
  split at hb
  · obtain ⟨s, hs, h⟩ := bind_eq_ok.1 hb
    obtain ⟨build, hbuild, h⟩ := bind_eq_ok.1 h
    extract_lets listed globals at h
    obtain ⟨r, hr, h⟩ := bind_eq_ok.1 h
    cases h
    have he := ((entered_environment hs).enterNodes rfl hbuild).1
    have hglobals : build.scopes.Built globals := .foldl (fun _ _ => .addGlobal _ _ _ _) _ _
    have hcaught : MarksCaught u globals build.nodeScopes :=
      ((MarksCaught.environment hs).enterNodes hns (entered_environment hs) rfl hbuild).built he
        hglobals
    have hpassed : Passed u build globals [] r :=
      (Passed.start (r := ⟨globals, .replicate u.nodes.size none⟩) rfl).resolveAll he.nodup hr
    have hsteps := hpassed.steps
    refine ⟨fun {i e} hi => ?_, fun y name => ?_⟩
    · obtain ⟨name, hname, hlookup⟩ := hpassed.found (Option.join_eq_some_iff.1 hi)
      exact ⟨name, hname, (hsteps.lookup? _ _).trans hlookup⟩
    · rw [hpassed.marks, hcaught]
      simp only [Caught, hsteps.closestHoist?, hsteps.liesBetween_iff, Bound.resolution?,
        Option.join_eq_some_iff, Bound.nodes, Bound.nodeScope?]
  · cases hb

/-- The scope of a `catch` does not hoist; the one that it stands in is its parent. -/
theorem caught_iff (hns : u.nodes.WellFormed) (hroot : u.nodes.Rooted) (hb : bind u = .ok b)
    (hwalk : b.Uncut) {y : ScopeId} {name : String} :
    Caught b.unit b.scopes b.nodeScopes y name ↔ b.Catches y name := by
  have hl := bind_layout hns hroot hb
  have hsize : b.nodeScopes.size = u.nodes.size := by
    obtain ⟨build, globals, r, hstaged, -, -, hnodes, -⟩ := bind_stages hns hroot hb
    rw [hnodes, hstaged.size]
  rw [Bound.Catches, Bound.nodes, bind_unit hb]
  have hclosest {c : NodeId} {param : Option NodeId} {body : NodeId}
      (hf : u.nodes.form? c = some (.catchClause param body)) :
      b.scopes.closestHoist? (b.nodeScope? c) =
        b.scopes.closestHoist? (some (standing u b.nodeScopes c)) := by
    have hc : c < b.nodeScopes.size := hsize ▸ Nodes.lt_size_of_form? hf
    have hx : b.nodeScopes[c]? = some b.nodeScopes[c] := Array.getElem?_eq_getElem hc
    have hopens : opens u c = true := by
      rw [opens, hf]
      rfl
    have hnode := (hl.opener hx).trans (opener?_of_opens hopens)
    rw [Bound.nodeScope?, hx]
    refine closestHoist?_of_parent? (hl.parent hnode) (fun hk => ?_) (hwalk _ (Array.getElem_mem hc))
    have hhoists := (hl.kind hnode).1 hk
    rw [hoists, hf] at hhoists
    cases hhoists
  constructor
  · rintro ⟨c, form, -, hf, hname, hy⟩
    unfold caughtNames at hname
    split at hname
    · next param body =>
      cases param with
      | none => cases hname
      | some param => exact ⟨c, param, body, hf, hname, (hclosest hf).trans hy⟩
    · cases hname
  · rintro ⟨c, param, body, hf, hname, hy⟩
    exact ⟨c, _, hsize ▸ Nodes.lt_size_of_form? hf, hf, hname, (hclosest hf).symm.trans hy⟩

end Bind

section Parsed

variable {u : CompilationUnit} {t : Tree} {b : Bound}

/-- **Marks are shadowing hazards.** In a bound unit with no way up its scopes cut off, a scope that
hoists has the mark of a name exactly if a declaration of the name there would change the lookup of
some reference that is resolved, or if a `catch` to which the scope is the nearest that hoists binds
the name. This is so for names that the scope has, too. -/
theorem marks_iff_shadows (hparse : Grammar.parse u.source = .ok t) (hnodes : u.nodes = .ofTree t)
    (hb : bind u = .ok b) (hwalk : b.Uncut) {y : ScopeId} (hy : b.scopes.kind? y = some .hoist)
    (name : String) (d : Declaration) :
    b.scopes.hasPropagated y name = true ↔ b.Shadows y name d ∨ b.Catches y name := by
  have hns : u.nodes.WellFormed :=
    hnodes ▸ Nodes.wellFormed_ofTree (Grammar.parse_wellFormed hparse)
  have hroot : u.nodes.Rooted := hnodes ▸ Grammar.parse_rooted hparse
  have hmarked := bind_marked hns hb
  have hgrown := (bind_layout hns hroot hb).grown
  have hlt : y < b.scopes.size := by
    obtain ⟨c, hc, -⟩ := Option.map_eq_some_iff.1 hy
    exact lt_size_of_get? hc
  rw [hmarked.marks, caught_iff hns hroot hb hwalk, or_comm]
  refine or_congr_left ⟨?_, ?_⟩
  · rintro ⟨i, r, hi, hname, -, hpass, -⟩
    obtain ⟨other, hother, hfound⟩ := hmarked.found hi
    cases hother.symm.trans hname
    exact ⟨i, r, _, hi, hname, (lookup?_declaring_ne_iff hlt d hfound).2 ⟨rfl, hpass⟩⟩
  · rintro ⟨i, r, other, hi, hname, hne⟩
    obtain ⟨_, hother, hfound⟩ := hmarked.found hi
    cases hother.symm.trans hname
    obtain ⟨rfl, hpass⟩ := (lookup?_declaring_ne_iff hlt d hfound).1 hne
    obtain ⟨x, hx, -⟩ := finds_of_lookup? hfound
    rw [hx] at hfound hpass
    refine ⟨i, r, hi, hname, fun hsame => ?_, hx ▸ hpass, hy⟩
    rw [hx] at hsame
    exact kind?_ne_of_closestHoist? hgrown (List.mem_of_find?_eq_some hfound) hsame hpass hy

/-- A function that uses a name from outside and catches another. -/
def captureAndCatch : List Char :=
  "let x = 1; function f() \x7b try \x7b g(() => x); \x7d catch (e) \x7b\x7d \x7d".toList

theorem marks_captureAndCatch : ∃ t b, Grammar.parse captureAndCatch = .ok t ∧
    bind ⟨"", captureAndCatch, .ofTree t, {}⟩ = .ok b ∧
    (b.scopes.hasPropagated programScope "x" = false ∧
      ∀ d, ¬(b.Shadows programScope "x" d ∨ b.Catches programScope "x")) ∧
    b.scopes.hasPropagated (some 2) "x" = true ∧ b.scopes.hasPropagated (some 2) "e" = true ∧
      ∀ d, (b.Shadows 2 "x" d ∨ b.Catches 2 "x") ∧ (b.Shadows 2 "e" d ∨ b.Catches 2 "e") := by
  have hrun : okAnd (Grammar.parse captureAndCatch) (fun t =>
      okAnd (bind ⟨"", captureAndCatch, .ofTree t, {}⟩) fun b =>
        decide (b.Uncut ∧ b.scopes.kind? programScope = some .hoist ∧
          b.scopes.kind? (some 2) = some .hoist ∧
          b.scopes.hasPropagated programScope "x" = false ∧
          b.scopes.hasPropagated (some 2) "x" = true ∧
          b.scopes.hasPropagated (some 2) "e" = true)) = true := by
    decide +kernel
  obtain ⟨t, hparse, hrun⟩ := okAnd_iff.1 hrun
  obtain ⟨b, hb, hrun⟩ := okAnd_iff.1 hrun
  obtain ⟨hwalk, hprogram, hfunction, hfree, hx, he⟩ := of_decide_eq_true hrun
  have hiff {y : ScopeId} (hy : b.scopes.kind? y = some .hoist) (name : String) (d : Declaration) :=
    marks_iff_shadows (u := ⟨"", captureAndCatch, .ofTree t, {}⟩) hparse rfl hb hwalk hy name d
  refine ⟨t, b, hparse, hb, ⟨hfree, fun d h => ?_⟩, hx, he, fun d =>
    ⟨(hiff hfunction "x" d).1 hx, (hiff hfunction "e" d).1 he⟩⟩
  rw [(hiff hprogram "x" d).2 h] at hfree
  cases hfree

end Parsed

end LoopClosure
