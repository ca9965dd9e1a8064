import LoopClosure.Proofs.Binding.Targets
import LoopClosure.Proofs.Syntax.Reach

/-!
# Uses before declarations

A `let`, `const` or `class` may not be used before it is initialised, unless a function lies between
the use and the scope of the declaration. `isEarly u awaits use` tells this by the tree, with
`awaits use binder` for "the use starts before the binder is initialised". The binder counts a name
as initialised from the end of its declarator on, or of the name of its class (`readyAt?`); a parsed
unit without another defect fails to bind exactly if a reference is early in this sense
(`bind_early_iff`).

A name of a pattern could be used as soon as its own element is matched (`awaitsMatch`). The binder is
stricter (`bind_defaultInPattern`).
-/

namespace LoopClosure

open Syntax Scopes Binding

namespace Syntax.Nodes

variable {ns : Nodes} {t : Tree} {binder c p use : NodeId} {place : ClassPlace}
  {heritage : Option NodeId} {members : List NodeId} {m n : Node}

/-- The name of a class comes before its other parts. -/
def NamesFirst (ns : Nodes) : Prop :=
  ∀ {p c binder : NodeId} {place : ClassPlace} {heritage : Option NodeId} {members : List NodeId}
    {m n : Node}, ns.form? p = some (.classBody place (some binder) heritage members) →
      ns.parent? c = some p → c ≠ binder → ns.get? binder = some m → ns.get? c = some n →
        m.stop ≤ n.start

theorem namesFirst_ofTree (ht : t.WellFormed) : (ofTree t).NamesFirst := by
  intro p c binder place heritage members m n hf hc hne hm hn
  obtain ⟨u, q, start, stop, form, pre, post, hu, hp, rfl⟩ := located_of_parent? hc
  rw [form?_ofTree hp, Option.some.injEq] at hf
  have hwf := hp.wellFormed ht
  cases form with
  | classBody place' name heritage' members' =>
    obtain ⟨-, hname, -, -⟩ := Form.classBody.inj hf
    obtain ⟨k, rfl, hk⟩ := Option.map_eq_some_iff.1 hname
    have hfirst : k = 0 := by
      cases hwf with
      | node children _ _ _ _ _ _ _ _ _ =>
        have hhead := congrArg List.head? children
        simpa [Form.children, List.head?_range] using hhead
    subst hfirst
    cases pre with
    | nil => exact absurd hk hne
    | cons x pre =>
      have hx : Tree.Located 0 none t (p + 1) (some p) x := hp.first
      have hbinder : p + 1 = binder := hk
      rw [← hbinder, get?_ofTree hx, Option.some.injEq] at hm
      rw [get?_ofTree hu, Option.some.injEq] at hn
      subst hm hn
      have hsiblings : (Tree.node start stop (.classBody place' (some 0) heritage' members')
          ([] ++ x :: (pre ++ u :: post))).WellFormed := hwf
      rcases hsiblings.placed.apart_or_short with h | ⟨role, traits, hform, -⟩
      · exact h
      · cases hform
  | _ => cases hf

/-- What lies inside a class behind its name starts behind it. -/
theorem NamesFirst.stop_le_start (h : ns.NamesFirst) (hns : ns.WellFormed) {name : String}
    (hf : ns.form? p = some (.classBody place (some binder) heritage members))
    (hname : ns.identifier? binder = some name) (hm : ns.get? binder = some m)
    (hin : ns.Inside p use) (hp : use ≠ p) (hne : use ≠ binder) (hn : ns.get? use = some n) :
    m.stop ≤ n.start := by
  induction hin generalizing n with
  | refl => exact absurd rfl hp
  | @up c q hq hin ih =>
    by_cases hqp : q = p
    · subst hqp
      exact h hf hq hne hm hn
    · have hqb : q ≠ binder := by
        rintro rfl
        have hmem := hns.parent_iff.1 hq
        rw [children_of_identifier? hname] at hmem
        cases hmem
      obtain ⟨k, hk⟩ := exists_get?_of_parent? hns hq
      exact Nat.le_trans (ih hqp hqb hk) (hns.within hq hn hk).1

end Syntax.Nodes

namespace Binding

variable {u : CompilationUnit} {s : Scopes} {table : Array ScopeId} {globals : List String}
  {done : List Site} {name : String} {i m p use binder : NodeId} {x y : ScopeId}

/-! ## Early uses -/

/-- The nodes around a node, itself included, that have scopes, innermost first. -/
def openers (u : CompilationUnit) (i : NodeId) : List NodeId := (u.nodes.outward i).filter (opens u)

/-- The node whose scope a name is found in, as far as a way up leads. -/
def finder? (u : CompilationUnit) (name : String) (i : NodeId) : Option NodeId :=
  ((openers u i).take maxWalk).find? fun m => (firstSite? u name m).isSome

/-- Whether a function lies on the way from a node out to `m`, which does not count itself. -/
def crosses (u : CompilationUnit) (i m : NodeId) : Bool :=
  ((u.nodes.outward i).takeWhile (· ≠ m)).any fun n => (u.nodes.form? n).any (·.isFunction)

def isDeclarator (u : CompilationUnit) (i : NodeId) : Bool :=
  match u.nodes.form? i with
  | some (.declarator _ _) => true
  | _ => false

/-- From where on a `let`, `const` or `class` may be used: from the end of its declarator, or of the
name of the class. -/
def readyAt? (u : CompilationUnit) (binder : NodeId) : Option Nat :=
  match (u.nodes.parent? binder).bind u.nodes.form? with
  | some (.classBody _ _ _ _) => (u.nodes.get? binder).map (·.stop)
  | _ => ((u.nodes.outward binder).find? (isDeclarator u)).bind fun d =>
    (u.nodes.get? d).map (·.stop)

/-- The use starts before the binder may be used. -/
def awaits (u : CompilationUnit) (use binder : NodeId) : Bool :=
  (u.nodes.get? use).any fun n => (readyAt? u binder).any fun ready => n.start < ready

/-- The part of the innermost pattern around a binder that has it, within its declarator. -/
def matched? (u : CompilationUnit) (binder : NodeId) : Option NodeId :=
  (u.nodes.stepsOut binder).findSome? (fun e =>
    match u.nodes.form? e.2 with
    | some (.arrayPattern _) | some (.objectPattern _) => some (some e.1)
    | some (.declarator _ _) | some (.classBody _ _ _ _) => some none
    | _ => none) |>.join

/-- Whether a node lies in a value that a target around a binder is matched to: an initial value or a
default. -/
def inValue (u : CompilationUnit) (use binder : NodeId) : Bool :=
  (u.nodes.stepsOut binder).any fun e =>
    match u.nodes.form? e.2 with
    | some (.declarator target (some value)) | some (.assignmentPattern target value) =>
      e.1 = target && (u.nodes.outward use).contains value
    | _ => false

/-- The use starts before the binder is initialised, if a name of a pattern is as soon as its part of
the pattern is matched. -/
def awaitsMatch (u : CompilationUnit) (use binder : NodeId) : Bool :=
  match matched? u binder with
  | some e => inValue u use binder || (u.nodes.get? use).any fun n => (u.nodes.get? e).any fun m =>
    n.start < m.stop
  | none => awaits u use binder

/-- Whether a node is a reference to a `let`, `const` or `class` that it awaits, with no function on
the way. -/
def isEarly (u : CompilationUnit) (awaits : NodeId → NodeId → Bool) (use : NodeId) : Bool :=
  match u.nodes.identifier? use with
  | some name => isReference u.nodes use && (finder? u name use).any fun m =>
    (firstSite? u name m).any fun a =>
      a.kind.isBlockScoped && !crosses u use m && awaits use a.ident
  | none => false

theorem named_of_isEarly {awaits : NodeId → NodeId → Bool} (h : isEarly u awaits use = true) :
    (∃ name, u.nodes.identifier? use = some name) ∧ isReference u.nodes use = true := by
  unfold isEarly at h
  split at h
  · next name hname => exact ⟨⟨name, hname⟩, (Bool.and_eq_true_iff.1 h).1⟩
  · cases h

/-! ## Ways up -/

theorem openers_of_parent (hns : u.nodes.WellFormed) (hp : u.nodes.parent? i = some p) :
    openers u i = if opens u i then i :: openers u p else openers u p := by
  rw [openers, Nodes.outward_of_parent hns hp, List.filter_cons]
  rfl

theorem mem_openers (h : m ∈ openers u i) : opens u m = true ∧ u.nodes.Inside m i :=
  ⟨(List.mem_filter.1 h).2, Nodes.inside_of_mem_outward (List.mem_filter.1 h).1⟩

theorem firstSite?_of_finder? (h : finder? u name i = some m) :
    m ∈ openers u i ∧ ∃ a, firstSite? u name m = some a := by
  have hsome : (firstSite? u name m).isSome = true :=
    List.find?_some (p := fun m => (firstSite? u name m).isSome) h
  exact ⟨List.mem_of_mem_take (List.mem_of_find?_eq_some h), Option.isSome_iff_exists.1 hsome⟩

theorem opensScope_of_isFunction {form : Form NodeId} (h : form.isFunction = true) :
    opensScope u i form = true := by
  cases form <;> first | rfl | cases h

/-- The scope of an entered node. -/
def scopeOf (table : Array ScopeId) (m : NodeId) : ScopeId := (table[m]?).getD topScope

namespace Layout

theorem scopeOf_opener (h : Layout u globals s table done) (hns : u.nodes.WellFormed)
    (hi : table[i]? = some x) (hm : m ∈ openers u i) :
    table[m]? = some (scopeOf table m) ∧ s.node? (some (scopeOf table m)) = some m := by
  obtain ⟨ho, hin⟩ := mem_openers hm
  have hlt : m < table.size :=
    Nat.lt_of_le_of_lt (hin.le hns) (Array.getElem?_eq_some_iff.1 hi).1
  have hget : table[m]? = some (scopeOf table m) := by
    rw [scopeOf, Array.getElem?_eq_getElem hlt, Option.getD_some]
  exact ⟨hget, (h.opener hget).trans (opener?_of_opens ho)⟩

/-- A way up the scopes leads through those of the nodes around, and to that of the globals. -/
theorem walkUp_eq (h : Layout u globals s table done) (hns : u.nodes.WellFormed)
    (hroot : u.nodes.Rooted) (hi : table[i]? = some x) (k : Nat) :
    s.walkUp k (some x) = ((openers u i).map (scopeOf table) ++ [topScope]).take k := by
  induction i using Nat.strongRecOn generalizing x k with
  | _ i ih =>
    have hown (ho : opens u i = true) : s.parent? (some x) = some (standing u table i) :=
      h.parent ((h.opener hi).trans (opener?_of_opens ho))
    have hx : scopeOf table i = x := by rw [scopeOf, hi, Option.getD_some]
    cases hp : u.nodes.parent? i with
    | none =>
      obtain ⟨form, hf⟩ := h.exists_form hi
      have ho := opens_of_hoists (hoists_of_root hroot hf hp)
      have hopeners : openers u i = [i] := by
        rw [openers, Nodes.outward_of_root hp, List.filter_cons_of_pos ho, List.filter_nil]
      have htop : standing u table i = topScope := by rw [standing, hp]; rfl
      rw [hopeners]
      cases k with
      | zero => rfl
      | succ k =>
        rw [walkUp_succ, hown ho, htop]
        cases k with
        | zero => simp [hx, Scopes.walkUp]
        | succ k => simp [walkUp_succ, h.top.2, hx]
    | some p =>
      have hpx := standing_of_parent hns hi hp
      rw [openers_of_parent hns hp]
      cases ho : opens u i with
      | false =>
        obtain rfl := h.same hi ho
        exact ih p (hns.parent_lt hp) hpx k
      | true =>
        cases k with
        | zero => rfl
        | succ k =>
          rw [walkUp_succ, hown ho, ih p (hns.parent_lt hp) hpx k, if_pos rfl, List.map_cons,
            List.cons_append, List.take_succ_cons, hx]

/-- A name is found in the scope of its finder, or else among the globals. -/
theorem lookup?_eq (h : Layout u globals s table (sites u)) (hns : u.nodes.WellFormed)
    (hroot : u.nodes.Rooted) (hi : table[i]? = some x) (name : String) :
    ∃ o, (∀ y ∈ o, y = topScope) ∧
      s.lookup? (some x) name = ((finder? u name i).map (scopeOf table)).or o := by
  let declares (y : ScopeId) : Bool := ((s.get? (some y)).map (·.declares name)).getD false
  have hdeclares {m : NodeId} (hm : m ∈ openers u i) :
      declares (scopeOf table m) = (firstSite? u name m).isSome := by
    simp only [declares, declares_eq, firstSite?]
    exact h.isSome_declaration? (h.scopeOf_opener hns hi hm).2 name
  have hfind : ((openers u i).take maxWalk).find? (declares ∘ scopeOf table) = finder? u name i := by
    rw [finder?, ← List.head?_filter, ← List.head?_filter]
    refine congrArg List.head? (List.filter_congr fun m hm => ?_)
    exact hdeclares (List.mem_of_mem_take hm)
  refine ⟨([topScope].take (maxWalk - ((openers u i).map (scopeOf table)).length)).find? declares,
    fun y hy => ?_, ?_⟩
  · exact List.mem_singleton.1 (List.mem_of_mem_take (List.mem_of_find?_eq_some hy))
  · rw [Scopes.lookup?, Scopes.walk, h.walkUp_eq hns hroot hi, List.take_append, List.find?_append,
      ← List.map_take, List.find?_map, hfind]

end Layout

/-- Nodes without a scope do not matter for what comes before a node with one. -/
theorem any_takeWhile_filter {q f : NodeId → Bool} (hm : q m = true)
    (hf : ∀ n, f n = true → q n = true) (l : List NodeId) :
    ((l.filter q).takeWhile (· ≠ m)).any f = (l.takeWhile (· ≠ m)).any f := by
  induction l with
  | nil => rfl
  | cons n l ih =>
    by_cases hn : n = m
    · subst hn
      simp [List.filter_cons_of_pos hm]
    · have hcons (l : List NodeId) : (n :: l).takeWhile (· ≠ m) = n :: l.takeWhile (· ≠ m) :=
        List.takeWhile_cons_of_pos (decide_eq_true hn)
      rw [hcons, List.any_cons]
      cases hq : q n with
      | true => rw [List.filter_cons_of_pos hq, hcons, List.any_cons, ih]
      | false =>
        have hfn : f n = false := Bool.eq_false_iff.2 fun h => by simp [hf n h] at hq
        rw [List.filter_cons_of_neg (by simp [hq]), ih, hfn, Bool.false_or]

/-- A function lies on the way out of a node to another one exactly if one lies on the way up from
its scope. -/
theorem Layout.hasFunctionBetween_eq (h : Layout u globals s table done)
    (hfunctions : FunctionsIn u s) (hns : u.nodes.WellFormed) (hroot : u.nodes.Rooted)
    (hi : table[i]? = some x) (hm : finder? u name i = some m) :
    s.hasFunctionBetween (some x) (some (scopeOf table m)) = crosses u i m := by
  obtain ⟨hfound, pre, post, hsplit, hpre⟩ := List.find?_eq_some_iff_append.1 hm
  -- The openers before `m` are those of which the name is not found.
  have hopeners : openers u i = pre ++ m :: (post ++ (openers u i).drop maxWalk) := by
    rw [← List.cons_append, ← List.append_assoc, ← hsplit, List.take_append_drop]
  have hmem {n : NodeId} (hn : n ∈ pre ++ [m]) : n ∈ openers u i := by
    rw [hopeners, ← List.singleton_append, ← List.append_assoc]
    exact List.mem_append_left _ hn
  have hne {n : NodeId} (hn : n ∈ pre) : n ≠ m := by
    rintro rfl
    have := hpre n hn
    simp [hfound] at this
  have hnode {n : NodeId} (hn : n ∈ pre ++ [m]) : s.node? (some (scopeOf table n)) = some n :=
    (h.scopeOf_opener hns hi (hmem hn)).2
  have hcrosses : crosses u i m = pre.any fun n => (u.nodes.form? n).any (·.isFunction) := by
    rw [crosses, ← any_takeWhile_filter (mem_openers (hmem (by simp))).1 fun n hn => ?_]
    · rw [← openers, hopeners, List.takeWhile_append_of_pos fun n hn => by simpa using hne hn,
        List.takeWhile_cons_of_neg (by simp), List.append_nil]
    · obtain ⟨form, hf, hfun⟩ := (Option.any_eq_true _ _).1 hn
      exact (Option.any_eq_true _ _).2 ⟨form, hf, opensScope_of_isFunction hfun⟩
  have hwalk : (s.walk (some x)).takeWhile (some · ≠ some (scopeOf table m)) =
      pre.map (scopeOf table) := by
    rw [Scopes.walk, h.walkUp_eq hns hroot hi, List.take_append, ← List.map_take, hsplit,
      List.map_append, List.append_assoc, List.takeWhile_append_of_pos fun y hy => ?_,
      List.map_cons, List.cons_append, List.takeWhile_cons_of_neg (by simp), List.append_nil]
    obtain ⟨n, hn, rfl⟩ := List.mem_map.1 hy
    refine decide_eq_true fun heq => hne hn (Option.some.inj ?_)
    rw [← hnode (List.mem_append_left _ hn), heq, hnode (by simp)]
  rw [Scopes.hasFunctionBetween, hwalk, hcrosses, List.any_map, Bool.eq_iff_iff, List.any_eq_true,
    List.any_eq_true]
  refine exists_congr fun n => and_congr_right fun hn => ?_
  rw [Function.comp_apply, hfunctions, hnode (List.mem_append_left _ hn), Option.any_some]

/-! ## Where names are initialised -/

/-- The declarator of a name is the nearest one around it, and the name is none of a class. -/
theorem declarator_of_holds (hns : u.nodes.WellFormed) {d target c : NodeId} {init : Option NodeId}
    {n : Nat} (hd : u.nodes.form? d = some (.declarator target init))
    (h : u.nodes.Holds target n c) : ∃ p f, u.nodes.parent? c = some p ∧
      u.nodes.form? p = some f ∧ f.isClass = false ∧
      (u.nodes.outward p).find? (isDeclarator u) = some d := by
  induction h with
  | refl =>
    have hdeclarator : isDeclarator u d = true := by rw [isDeclarator, hd]
    refine ⟨d, _, Nodes.parent?_of_form? hns hd List.mem_cons_self, hd, rfl, ?_⟩
    rw [Nodes.outward, List.find?_cons_of_pos hdeclarator]
  | @step n b c f h hf hc _ ih =>
    obtain ⟨p, -, hp, -, -, hfind⟩ := ih
    have hnot : isDeclarator u b = false := by
      rw [isDeclarator, hf]
      cases f <;> first | rfl | cases hc
    have hclass : f.isClass = false := by
      cases f <;> first | rfl | cases hc
    refine ⟨b, f, Nodes.parent?_of_form? hns hf (Form.mem_children_of_mem_targets hc), hf, hclass, ?_⟩
    rw [Nodes.outward_of_parent hns hp, List.find?_cons_of_neg (by simp [hnot]), hfind]

theorem readyAt?_of_declarator (hns : u.nodes.WellFormed) {d target : NodeId} {init : Option NodeId}
    (hd : u.nodes.form? d = some (.declarator target init))
    (hb : binder ∈ u.nodes.bindingIds target) :
    readyAt? u binder = (u.nodes.get? d).map (·.stop) := by
  obtain ⟨⟨n, hn⟩, name, hname⟩ := Nodes.exists_holds_of_mem hns hb
  obtain ⟨p, f, hp, hf, hclass, hfind⟩ := declarator_of_holds hns hd hn
  have hnot : isDeclarator u binder = false := by
    rw [isDeclarator, Nodes.identifier?_eq_some_iff.1 hname]
  rw [readyAt?, hp, Option.bind_some, hf]
  split
  · next hf' =>
    cases hf'
    cases hclass
  · rw [Nodes.outward_of_parent hns hp, List.find?_cons_of_neg (by simp [hnot]), hfind,
      Option.bind_some]

theorem readyAt?_of_class {place : ClassPlace} {name heritage : Option NodeId}
    {members : List NodeId} (hp : u.nodes.parent? binder = some p)
    (hf : u.nodes.form? p = some (.classBody place name heritage members)) :
    readyAt? u binder = (u.nodes.get? binder).map (·.stop) := by
  rw [readyAt?, hp, Option.bind_some, hf]

/-- What a declaration notes is where its name is initialised; it notes nothing for the name of a
class expression. -/
theorem LetAt.fromPos_cases (hns : u.nodes.WellFormed) {fromPos : Option Nat}
    (h : LetAt u table x name binder fromPos) : fromPos = readyAt? u binder ∨
      fromPos = none ∧ ∃ c heritage members, table[c]? = some x ∧
        u.nodes.form? c = some (.classBody .expression (some binder) heritage members) := by
  obtain ⟨c, form, own, hf, hc, hlex⟩ := h
  cases hlex with
  | bindings _ _ hd hb => exact .inl (readyAt?_of_declarator hns hd hb).symm
  | declaration =>
    have hp := Nodes.parent?_of_form? hns hf List.mem_cons_self
    exact .inl (readyAt?_of_class hp hf).symm
  | expression => exact .inr ⟨rfl, c, _, _, hc, hf⟩

/-! ## Resolving -/

/-- A reference does not await the class expression that it lies in. -/
theorem awaits_of_class (hns : u.nodes.WellFormed) (hfirst : u.nodes.NamesFirst)
    {place : ClassPlace} {heritage : Option NodeId} {members : List NodeId}
    (hf : u.nodes.form? m = some (.classBody place (some binder) heritage members))
    (hbinder : u.nodes.identifier? binder = some name) (hin : u.nodes.Inside m use)
    (huse : u.nodes.identifier? use = some name) (href : isReference u.nodes use = true) :
    awaits u use binder = false := by
  have hp : u.nodes.parent? binder = some m := Nodes.parent?_of_form? hns hf List.mem_cons_self
  have hm : use ≠ m := by
    rintro rfl
    cases hf.symm.trans (Nodes.identifier?_eq_some_iff.1 huse)
  have hne : use ≠ binder := by
    rintro rfl
    rw [isReference, hp, Option.bind_some, hf] at href
    simp at href
  rw [awaits, readyAt?_of_class hp hf]
  cases hn : u.nodes.get? use with
  | none => rfl
  | some n =>
    cases hk : u.nodes.get? binder with
    | none => rfl
    | some k =>
      have hle := hfirst.stop_le_start hns hf hbinder hk hin hm hne hn
      simpa using hle

/-- The test of a reference that is found tells whether it is early. -/
theorem isEarly_eq (hl : Layout u (globalNames u) s table (sites u)) (hmapped : Mapped u s table)
    (hns : u.nodes.WellFormed) (hroot : u.nodes.Rooted) (hfirst : u.nodes.NamesFirst) {n : Node}
    (hget : u.nodes.get? use = some n) (hname : u.nodes.identifier? use = some name)
    (href : isReference u.nodes use = true) (hx : table[use]? = some x) {d : Declaration}
    (hlookup : s.lookup? (some x) name = some y) (hd : s.declaration? (some y) name = some d) :
    isEarly u (awaits u) use = (d.kind.isBlockScoped && !d.isGlobal &&
      (d.fromPos.map fun first => decide (n.start < first)).getD false &&
        !s.hasFunctionBetween (some x) (some y)) := by
  have hglobal := hmapped.globals y name d hd
  obtain ⟨o, ho, hfound⟩ := hl.lookup?_eq hns hroot hx name
  rw [hlookup] at hfound
  rw [isEarly, hname]
  dsimp only
  rw [href, Bool.true_and]
  cases hfinder : finder? u name use with
  | none =>
    -- It is a global.
    rw [hfinder, Option.map_none, Option.none_or] at hfound
    obtain rfl := ho y hfound.symm
    have hnone := hl.global name
    rw [hd, Option.map_some] at hnone
    split at hnone
    · rw [hglobal, Option.some.inj hnone]
      simp
    · cases hnone
  | some m =>
    rw [hfinder, Option.map_some, Option.some_or, Option.some.injEq] at hfound
    subst hfound
    obtain ⟨hmem, a, ha⟩ := firstSite?_of_finder? hfinder
    have hnode := (hl.scopeOf_opener hns hx hmem).2
    have hbinder := hl.declared name hnode
    rw [hd, ← firstSite?, ha, Option.map_some, Option.map_some, Option.some.injEq] at hbinder
    obtain ⟨hkind, hident⟩ := Prod.mk.inj hbinder
    rw [hident, Option.isNone_some] at hglobal
    rw [Option.any_some, ha, Option.any_some, hkind, hglobal,
      hl.hasFunctionBetween_eq hmapped.functions hns hroot hx hfinder]
    cases hk : a.kind.isBlockScoped with
    | false => simp
    | true =>
      have hawaits : awaits u use a.ident =
          (d.fromPos.map fun first => decide (n.start < first)).getD false := by
        rcases hmapped.lets _ name d hd (hkind ▸ hk) with htop | ⟨ident, hi, hnamed, hlet⟩
        · rw [htop, hl.top.1] at hnode
          cases hnode
        · obtain rfl := Option.some.inj (hident.symm.trans hi)
          rcases hlet.fromPos_cases hns with hready | ⟨hnone, c, heritage, members, hc, hf⟩
          · rw [awaits, hget, Option.any_some, ← hready]
            cases d.fromPos <;> rfl
          · have hcm := (hmapped.regions.own hc hf rfl).symm.trans hnode
            rw [Option.some.injEq] at hcm
            subst hcm
            rw [awaits_of_class hns hfirst hf hnamed (mem_openers hmem).2 hname href, hnone]
            rfl
      rw [hawaits, Bool.true_and, Bool.true_and, Bool.not_false, Bool.true_and, Bool.and_comm]

variable {b : Build} {r r' : Resolving} {ident : NodeId}

theorem hasFunctionBetween_addReference (id : Option ScopeId) (name : String) (ident : NodeId)
    (inner outer : Option ScopeId) : (s.addReference id name ident).hasFunctionBetween inner outer =
      s.hasFunctionBetween inner outer := by
  have hshape : s.SameShape (s.addReference id name ident) :=
    .update _ _ (.addReference name ident)
  have hflags (j : Option ScopeId) : ((s.addReference id name ident).flags j).function =
      (s.flags j).function := by
    refine flags_view_update (f := (·.addReference name ident)) (·.function) (fun c => ?_) id j
    unfold Scope.addReference
    split <;> rfl
  simp only [hasFunctionBetween, walk, walkUp_congr fun _ => hshape.parent? _, hflags]

/-- The resolution of a reference fails for an early use exactly if the reference is one. -/
theorem failsWith_resolveReference_iff
    (hl : Layout u (globalNames u) r.scopes b.nodeScopes (sites u))
    (hmapped : Mapped u r.scopes b.nodeScopes) (hns : u.nodes.WellFormed) (hroot : u.nodes.Rooted)
    (hfirst : u.nodes.NamesFirst) (hname : u.nodes.identifier? ident = some name)
    (href : isReference u.nodes ident = true) (hx : b.nodeScopes[ident]? = some x) :
    FailsWith .useBeforeDeclaration (resolveReference u b r ident) ↔
      isEarly u (awaits u) ident = true := by
  obtain ⟨⟨start, stop, form, parent⟩, hget, rfl⟩ :=
    Option.map_eq_some_iff.1 (Nodes.identifier?_eq_some_iff.1 hname)
  unfold resolveReference
  rw [hget]
  dsimp only
  cases hlookup : r.scopes.lookup? b.nodeScopes[ident]? name with
  | none =>
    have hnot : isEarly u (awaits u) ident = false := by
      obtain ⟨o, -, hfound⟩ := hl.lookup?_eq hns hroot hx name
      rw [← hx, hlookup] at hfound
      rw [isEarly, hname]
      cases hfinder : finder? u name ident with
      | none => simp [hfinder]
      | some m => simp [hfinder] at hfound
    rw [hnot]
    refine iff_of_false ?_ Bool.false_ne_true
    dsimp only
    split
    · rw [failsWith_defectAt_iff]
      exact Defect.noConfusion
    · exact not_failsWith_ok _
  | some target =>
    obtain ⟨d, hd⟩ := Option.isSome_iff_exists.1 (declares_of_lookup? hlookup)
    rw [isEarly_eq hl hmapped hns hroot hfirst hget hname href hx (hx ▸ hlookup) hd]
    dsimp only
    rw [declaration?_addReference, hd]
    dsimp only
    rw [hasFunctionBetween_addReference, hx]
    split
    · next hearly => exact iff_of_true ((failsWith_defectAt_iff _ _).2 rfl) hearly
    · next hearly =>
      refine iff_of_false ?_ hearly
      split
      · rw [failsWith_defectAt_iff]
        exact Defect.noConfusion
      · exact not_failsWith_ok _

/-- The resolution of references fails for an early use only at one, and succeeds only where there is
none. -/
theorem resolveAll_early {idents : List NodeId}
    (hl : Layout u (globalNames u) r.scopes b.nodeScopes (sites u))
    (hmapped : Mapped u r.scopes b.nodeScopes) (hns : u.nodes.WellFormed) (hroot : u.nodes.Rooted)
    (hfirst : u.nodes.NamesFirst)
    (hnames : ∀ i ∈ idents, (∃ name, u.nodes.identifier? i = some name) ∧
      isReference u.nodes i = true) (hlt : ∀ i ∈ idents, i < b.nodeScopes.size) :
    (FailsWith .useBeforeDeclaration (resolveAll u b r idents) →
        ∃ i ∈ idents, isEarly u (awaits u) i = true) ∧
      ∀ r', resolveAll u b r idents = .ok r' → ∀ i ∈ idents, isEarly u (awaits u) i = false := by
  induction idents generalizing r with
  | nil => exact ⟨fun h => absurd h (not_failsWith_ok r), fun _ _ i hi => absurd hi List.not_mem_nil⟩
  | cons i idents ih =>
    obtain ⟨⟨name, hname⟩, href⟩ := hnames i List.mem_cons_self
    have hlti := hlt i List.mem_cons_self
    have hx : b.nodeScopes[i]? = some b.nodeScopes[i] := Array.getElem?_eq_getElem hlti
    have hiff := failsWith_resolveReference_iff hl hmapped hns hroot hfirst hname href hx
    unfold resolveAll
    cases h : resolveReference u b r i with
    | error e =>
      rw [h] at hiff
      refine ⟨fun hfails => ⟨i, List.mem_cons_self, hiff.1 ?_⟩, fun _ hok => ?_⟩
      · obtain ⟨diagnostic, he, hd⟩ := hfails
        cases he
        exact ⟨diagnostic, rfl, hd⟩
      · cases hok
    | ok r₁ =>
      rw [h] at hiff
      have hsteps := resolveReference_steps h
      obtain ⟨hfails, hok⟩ := ih (hl.steps hsteps) (hmapped.steps hsteps)
        (fun j hj => hnames j (List.mem_cons_of_mem _ hj))
        (fun j hj => hlt j (List.mem_cons_of_mem _ hj))
      refine ⟨fun h' => ?_, fun r' h' j hj => ?_⟩
      · obtain ⟨j, hj, hearly⟩ := hfails h'
        exact ⟨j, List.mem_cons_of_mem _ hj, hearly⟩
      · rcases List.mem_cons.1 hj with rfl | hj
        · exact Bool.eq_false_iff.2 fun hearly => not_failsWith_ok r₁ (hiff.2 hearly)
        · exact hok r' h' j hj

/-! ## Entering -/

section Entering

variable {α β : Type} {k : Defect} {c : Except Failure α}

theorem failsWith_bind {f : α → Except Failure β} (h : FailsWith k (c >>= f)) :
    FailsWith k c ∨ ∃ a, c = .ok a ∧ FailsWith k (f a) := by
  cases c with
  | ok a => exact .inr ⟨a, rfl, h⟩
  | error e =>
    left
    obtain ⟨diagnostic, he, hk⟩ := h
    cases he
    exact ⟨diagnostic, rfl, hk⟩

theorem failsWith_error {f : α → Except Failure β} {e : Failure}
    (h : FailsWith k ((.error e : Except Failure α) >>= f)) :
    FailsWith k (.error e : Except Failure α) :=
  (failsWith_bind h).resolve_right fun h => by
    obtain ⟨a, h, -⟩ := h
    cases h

theorem failsWith_of_map {f : α → β} (h : FailsWith k (c.map f)) : FailsWith k c := by
  obtain ⟨diagnostic, he, hk⟩ := h
  cases c with
  | ok a => cases he
  | error e =>
    cases he
    exact ⟨diagnostic, rfl, hk⟩

theorem not_failsWith_addEnvironments (names : List String) (s : Scopes) :
    ¬FailsWith .useBeforeDeclaration (addEnvironments u s names) := by
  induction names generalizing s with
  | nil => exact not_failsWith_ok s
  | cons name names ih =>
    unfold addEnvironments
    split
    · exact ih _
    · rintro ⟨diagnostic, he, hd⟩
      cases he
      cases (Defect.ofCode?_code .unknownEnvironment).symm.trans hd

theorem not_failsWith_environment : ¬FailsWith .useBeforeDeclaration (environment u) := by
  intro h
  rcases failsWith_bind h with h | ⟨t, -, h⟩
  · exact not_failsWith_addEnvironments _ _ h
  · exact not_failsWith_ok _ h

theorem Performs.not_failsWith {as : List Site} {c : Except Failure Scopes}
    (h : Performs u x s as c) : ¬FailsWith .useBeforeDeclaration c := by
  induction h with
  | done => exact not_failsWith_ok _
  | quiet _ _ ih => exact ih
  | declare _ _ ih => exact ih
  | refuse =>
    rw [failsWith_defectAt_iff]
    exact Defect.noConfusion
  | disallow =>
    rw [failsWith_defectAt_iff]
    exact Defect.noConfusion

/-- Entering nodes uses nothing. -/
theorem not_failsWith_enterNodes (ns : List Node) (id : NodeId) (b : Build) :
    ¬FailsWith .useBeforeDeclaration (enterNodes u b id ns) := by
  induction ns generalizing id b with
  | nil => exact not_failsWith_ok b
  | cons n ns ih =>
    intro h
    rcases failsWith_bind h with h | ⟨b₁, -, h⟩
    · unfold enterNode at h
      extract_lets scope at h
      rcases failsWith_bind h with h | ⟨r, -, h⟩
      · have hdeclares := enterScopes_declares (u := u) b.scopes id Nodes.root scope n.form
        generalize enterScopes u b.scopes id scope n.form = c at h hdeclares
        cases hdeclares with
        | same _ _ hp => exact hp.not_failsWith (failsWith_of_map h)
        | own _ _ _ hp => exact hp.not_failsWith (failsWith_of_map h)
        | refused hp =>
          obtain ⟨diagnostic, he, hd⟩ := h
          cases he
          exact hp.not_failsWith ⟨diagnostic, rfl, hd⟩
      · dsimp only at h
        split at h
        · split at h <;> exact not_failsWith_ok _ h
        · exact not_failsWith_ok _ h
    · exact ih _ _ h

end Entering

end Binding

section Bind

variable {u : CompilationUnit} {t : Tree}

/-- **Early uses.** A parsed unit without another defect fails to bind for a use before a declaration
exactly if it has an early use. -/
theorem bind_early_iff (hparse : Grammar.parse u.source = .ok t) (hnodes : u.nodes = .ofTree t)
    (hother : ∀ e, bind u = .error e → FailsWith .useBeforeDeclaration (bind u)) :
    FailsWith .useBeforeDeclaration (bind u) ↔ ∃ use, isEarly u (awaits u) use = true := by
  have ht := Grammar.parse_wellFormed hparse
  have hns : u.nodes.WellFormed := hnodes ▸ Nodes.wellFormed_ofTree ht
  have hroot : u.nodes.Rooted := hnodes ▸ Grammar.parse_rooted hparse
  have hfirst : u.nodes.NamesFirst := hnodes ▸ Nodes.namesFirst_ofTree ht
  obtain ⟨statements, comments, hform⟩ : ∃ statements comments,
      u.nodes.form? Nodes.root = some (.program statements comments) := by
    obtain ⟨statements, comments, hform⟩ := (Grammar.parse_spec hparse).isProgram
    rw [hnodes, show (Nodes.ofTree t).form? Nodes.root = _ from Nodes.form?_ofTree (.here _ _ _),
      Tree.nodeAt, hform]
    exact ⟨_, _, rfl⟩
  have hlisted : listedGlobals u = commentGlobals u.source comments := by rw [listedGlobals, hform]
  unfold bind at hother ⊢
  simp only [hform] at hother ⊢
  cases hs : environment u with
  | error e =>
    rw [hs] at hother
    exact absurd (hs ▸ failsWith_error (hother e rfl)) not_failsWith_environment
  | ok s =>
    rw [hs] at hother
    rw [ok_bind] at hother ⊢
    cases hbuild : enterNodes u { scopes := s } 0 u.nodes.table.toList with
    | error e =>
      rw [hbuild] at hother
      exact absurd (hbuild ▸ failsWith_error (hother e rfl)) (not_failsWith_enterNodes _ _ _)
    | ok build =>
      rw [hbuild] at hother
      rw [ok_bind] at hother ⊢
      have hstaged := enterNodes_staged hns hroot hs hbuild hlisted
      obtain ⟨hfails, hok⟩ := resolveAll_early (r := ⟨_, .replicate u.nodes.size none⟩)
        hstaged.layout hstaged.mapped hns hroot hfirst
        (fun i hi => (hstaged.mem_references i).1 hi) (fun i hi => hstaged.entered.reference_lt hi)
      cases hall : resolveAll u build ⟨_, .replicate u.nodes.size none⟩ build.references.toList with
      | error e =>
        rw [hall] at hother hfails
        obtain ⟨use, -, hearly⟩ := hfails (failsWith_error (hother e rfl))
        exact iff_of_true (hother e rfl) ⟨use, hearly⟩
      | ok r =>
        refine iff_of_false (not_failsWith_ok _) ?_
        rintro ⟨use, hearly⟩
        have hmem := (hstaged.mem_references use).2 (named_of_isEarly hearly)
        exact Bool.false_ne_true ((hok r hall use hmem).symm.trans hearly)

/-- A class in a call; the `let` is used in a function. -/
def classInCall : List Char := "let x = f(() => z, y); class y \x7b\x7d let z;".toList

theorem bind_early_classInCall : ∃ t, Grammar.parse classInCall = .ok t ∧
    FailsWith .useBeforeDeclaration (bind ⟨"", classInCall, .ofTree t, {}⟩) ∧
    ∃ use, isEarly ⟨"", classInCall, .ofTree t, {}⟩ (awaits ⟨"", classInCall, .ofTree t, {}⟩) use =
      true := by
  have hrun : okAnd (Grammar.parse classInCall) (fun t => decide
      (FailsWith .useBeforeDeclaration (bind ⟨"", classInCall, .ofTree t, {}⟩))) = true := by
    decide +kernel
  obtain ⟨t, hparse, hrun⟩ := okAnd_iff.1 hrun
  have hfails := of_decide_eq_true hrun
  have hiff := bind_early_iff (u := ⟨"", classInCall, .ofTree t, {}⟩) hparse rfl fun _ _ => hfails
  exact ⟨t, hparse, hfails, hiff.1 hfails⟩

/-- The second name of the pattern has the first as its default. -/
def defaultInPattern : List Char := "const [a, b = a] = [1];".toList

theorem bind_defaultInPattern : ∃ t, Grammar.parse defaultInPattern = .ok t ∧
    ¬(FailsWith .useBeforeDeclaration (bind ⟨"", defaultInPattern, .ofTree t, {}⟩) ↔
      ∃ use, isEarly ⟨"", defaultInPattern, .ofTree t, {}⟩
        (awaitsMatch ⟨"", defaultInPattern, .ofTree t, {}⟩) use = true) := by
  have hrun : okAnd (Grammar.parse defaultInPattern) (fun t => decide
      (FailsWith .useBeforeDeclaration (bind ⟨"", defaultInPattern, .ofTree t, {}⟩) ∧
        ∀ use < (Nodes.ofTree t).size, isEarly ⟨"", defaultInPattern, .ofTree t, {}⟩
          (awaitsMatch ⟨"", defaultInPattern, .ofTree t, {}⟩) use = false)) = true := by
    decide +kernel
  obtain ⟨t, hparse, hrun⟩ := okAnd_iff.1 hrun
  obtain ⟨hfails, hnone⟩ := of_decide_eq_true hrun
  refine ⟨t, hparse, fun hiff => ?_⟩
  obtain ⟨use, hearly⟩ := hiff.1 hfails
  obtain ⟨⟨name, hname⟩, -⟩ := named_of_isEarly hearly
  exact Bool.false_ne_true ((hnone use (Nodes.lt_size_of_identifier? hname)).symm.trans hearly)

end Bind

end LoopClosure
