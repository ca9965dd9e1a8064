import LoopClosure.Proofs.Binding.Layout

/-!
# Lexical scoping

What a name refers to by the rules of the language, told by the tree alone: on the way out of a
reference each node shows the sites of its scope that are visible from there (`visible?`), the first
one of the name is meant, and last come the globals (`lexicalTarget`).

`nearest?` takes the first site of the nearest scope that has the name, visible or not. That is what
the rules say unless the scope misleads (`targetOf_nearest?_iff`). There are three ways
(`misleads`): the discriminant of a `switch` does not see what the cases declare, the head of a
function does not see what its body declares, and what the body declares hides the name of a function
expression.
-/

namespace LoopClosure

open Syntax Scopes Binding

namespace Syntax.Nodes

variable {ns : Nodes} {i p : NodeId}

/-- The steps outward from a node, each from a node to its parent. -/
def stepsOut (ns : Nodes) (i : NodeId) : List (NodeId × NodeId) :=
  (ns.outward i).zip (ns.outward i).tail

theorem stepsOut_of_parent (hns : ns.WellFormed) (hp : ns.parent? i = some p) :
    ns.stepsOut i = (i, p) :: ns.stepsOut p := by
  rw [stepsOut, outward_of_parent hns hp]
  rfl

theorem stepsOut_of_root (hp : ns.parent? i = none) : ns.stepsOut i = [] := by
  rw [stepsOut, outward_of_root hp]
  rfl

end Syntax.Nodes

namespace Binding

variable {u : CompilationUnit} {name : String} {i p m c : NodeId} {a b : Site}

/-! ## What a name refers to -/

/-- What a name refers to: the node whose scope has it and the identifier that binds it. A global has
neither. -/
structure Target where
  node : Option NodeId
  ident : Option NodeId
deriving DecidableEq, Repr

/-- The globals that the comments of a unit list. -/
def listedGlobals (u : CompilationUnit) : List (String × Bool × Nat) :=
  match u.nodes.form? Nodes.root with
  | some (.program _ comments) => commentGlobals u.source comments
  | _ => []

/-- The names of the globals: predefined, of the options, listed in comments. -/
def globalNames (u : CompilationUnit) : List String :=
  (globalTables u).flatten.map (·.1) ++ (listedGlobals u).map (·.1)

/-- The target of a site that was found for a name, or of the name as a global. -/
def targetOf (u : CompilationUnit) (name : String) : Option Site → Option Target
  | some a => some ⟨a.home? u, some a.ident⟩
  | none => if name ∈ globalNames u then some ⟨none, none⟩ else none

/-! ## The rules -/

/-- The first site of a name in the scope of node `m`. -/
def firstSite? (u : CompilationUnit) (name : String) (m : NodeId) : Option Site :=
  (sites u).find? (·.isAt u m name)

/-- The name of the function expression `m`, which only its inside sees. -/
def isOwnName (u : CompilationUnit) (m : NodeId) (a : Site) : Bool :=
  match u.nodes.form? m with
  | some (.function .expression name _ _ _) => name = some a.ident
  | _ => false

/-- Whether a site in the scope of node `m` is seen from its child `c`. -/
def isSeen (u : CompilationUnit) (m c : NodeId) (a : Site) : Bool :=
  match u.nodes.form? m with
  | some (.switch discriminant _) => c ≠ discriminant
  | some (.function _ _ _ body _) => c = body || a.kind = .param || isOwnName u m a
  | _ => true

/-- The sites of a name in the scope of node `m` that are seen from its child `c`. -/
def seenSites (u : CompilationUnit) (name : String) (m c : NodeId) : List Site :=
  (sites u).filter fun a => a.isAt u m name && isSeen u m c a

/-- What a name means in the child `c` of node `m` by the scope of `m`. The name of a function
expression stands around its parameters and variables, which hide it. -/
def visible? (u : CompilationUnit) (name : String) (m c : NodeId) : Option Site :=
  ((seenSites u name m c).find? (!isOwnName u m ·)).or (seenSites u name m c).head?

/-- What a name at a node means, if it is no global. -/
def lexical? (u : CompilationUnit) (name : String) (i : NodeId) : Option Site :=
  (u.nodes.stepsOut i).findSome? fun e => visible? u name e.2 e.1

/-- What a name at a node refers to by the rules of the language. -/
def lexicalTarget (u : CompilationUnit) (name : String) (i : NodeId) : Option Target :=
  targetOf u name (lexical? u name i)

/-! ## What the binder finds -/

/-- The first site of the nearest scope around a node that has the name. -/
def nearest? (u : CompilationUnit) (name : String) (i : NodeId) : Option Site :=
  (u.nodes.stepsOut i).findSome? fun e => firstSite? u name e.2

/-- Whether the first site of a name in the scope of node `m` is not what the name means in its child
`c`. -/
def misleads (u : CompilationUnit) (name : String) (m c : NodeId) (a : Site) : Bool :=
  match u.nodes.form? m with
  | some (.switch discriminant _) => c = discriminant
  | some (.function _ _ _ body _) =>
    if c = body then isOwnName u m a && (sites u).any fun b => b.isAt u m name && !isOwnName u m b
    else a.kind ≠ .param && !isOwnName u m a
  | _ => false

/-- Whether the nearest scope around a node that has the name misleads. -/
def missed (u : CompilationUnit) (name : String) (i : NodeId) : Bool :=
  ((u.nodes.stepsOut i).findSome? fun e =>
    (firstSite? u name e.2).map (misleads u name e.2 e.1)).getD false

theorem lexical?_of_parent (hns : u.nodes.WellFormed) (hp : u.nodes.parent? i = some p) :
    lexical? u name i = (visible? u name p i).or (lexical? u name p) := by
  rw [lexical?, Nodes.stepsOut_of_parent hns hp, List.findSome?_cons]
  dsimp only
  cases visible? u name p i <;> simp [lexical?]

theorem nearest?_of_parent (hns : u.nodes.WellFormed) (hp : u.nodes.parent? i = some p) :
    nearest? u name i = (firstSite? u name p).or (nearest? u name p) := by
  rw [nearest?, Nodes.stepsOut_of_parent hns hp, List.findSome?_cons]
  dsimp only
  cases firstSite? u name p <;> simp [nearest?]

theorem missed_of_parent (hns : u.nodes.WellFormed) (hp : u.nodes.parent? i = some p) :
    missed u name i = ((firstSite? u name p).map (misleads u name p i)).getD (missed u name p) := by
  rw [missed, Nodes.stepsOut_of_parent hns hp, List.findSome?_cons]
  dsimp only
  cases firstSite? u name p <;> simp [missed]

theorem lexical?_of_root (hp : u.nodes.parent? i = none) : lexical? u name i = none := by
  rw [lexical?, Nodes.stepsOut_of_root hp, List.findSome?_nil]

theorem nearest?_of_root (hp : u.nodes.parent? i = none) : nearest? u name i = none := by
  rw [nearest?, Nodes.stepsOut_of_root hp, List.findSome?_nil]

theorem missed_of_root (hp : u.nodes.parent? i = none) : missed u name i = false := by
  rw [missed, Nodes.stepsOut_of_root hp, List.findSome?_nil]
  rfl

theorem mem_seenSites : a ∈ seenSites u name m c ↔
    a ∈ sites u ∧ a.isAt u m name = true ∧ isSeen u m c a = true := by
  rw [seenSites, List.mem_filter, Bool.and_eq_true]

theorem mem_of_visible? (h : visible? u name m c = some a) : a ∈ seenSites u name m c := by
  rcases Option.or_eq_some_iff.1 h with h | ⟨-, h⟩
  · exact List.mem_of_find?_eq_some h
  · exact List.mem_of_mem_head? h

/-! ## One scope -/

theorem firstSite?_eq_some (h : firstSite? u name m = some a) :
    a ∈ sites u ∧ a.isAt u m name = true :=
  ⟨List.mem_of_find?_eq_some h, List.find?_some h⟩

theorem isAt_eq_false (h : firstSite? u name m = none) (ha : a ∈ sites u) :
    a.isAt u m name = false := by
  simpa using List.find?_eq_none.1 h a ha

theorem visible?_of_firstSite? (h : firstSite? u name m = none) : visible? u name m c = none := by
  have hnil : seenSites u name m c = [] :=
    List.eq_nil_iff_forall_not_mem.2 fun a ha => by
      have := isAt_eq_false h (mem_seenSites.1 ha).1
      simp [(mem_seenSites.1 ha).2.1] at this
  rw [visible?, hnil]
  rfl

/-- The first site of the name is the first one seen, if it is seen. -/
theorem find?_seenSites (ha : firstSite? u name m = some a) (hseen : isSeen u m c a = true) :
    (seenSites u name m c).head? = some a ∧
      (isOwnName u m a = false → (seenSites u name m c).find? (!isOwnName u m ·) = some a) := by
  obtain ⟨hat, before, behind, hsites, hbefore⟩ := List.find?_eq_some_iff_append.1 ha
  have hlist : seenSites u name m c =
      a :: behind.filter fun a => a.isAt u m name && isSeen u m c a := by
    have hnil : before.filter (fun a => a.isAt u m name && isSeen u m c a) = [] :=
      List.filter_eq_nil_iff.2 fun b hb => by
        have := hbefore b hb
        simp_all
    rw [seenSites, hsites, List.filter_append, hnil, List.nil_append, List.filter_cons_of_pos]
    rw [hat, hseen]
    rfl
  rw [hlist]
  exact ⟨rfl, fun hown => List.find?_cons_of_pos (by simp [hown])⟩

/-! ## The order of sites -/

theorem mem_sitesOf {place : NodeId} {kind : BindingKind} {idents : List NodeId} :
    a ∈ sitesOf u place kind idents ↔ a.kind = kind ∧ a.place = place ∧ a.ident ∈ idents ∧
      u.nodes.identifier? a.ident = some a.name := by
  rw [sitesOf, List.mem_filterMap]
  constructor
  · rintro ⟨ident, hi, h⟩
    obtain ⟨text, hn, rfl⟩ := Option.map_eq_some_iff.1 h
    exact ⟨rfl, rfl, hi, hn⟩
  · rintro ⟨rfl, rfl, hi, hn⟩
    exact ⟨a.ident, hi, by rw [hn, Option.map_some]⟩

theorem mem_sites : a ∈ sites u ↔ ∃ j form, u.nodes.form? j = some form ∧
    (a ∈ outerSites u ((u.nodes.parent? j).getD Nodes.root) form ∨ a ∈ innerSites u j form) := by
  rw [sites, List.mem_flatMap]
  constructor
  · rintro ⟨j, -, h⟩
    unfold sitesAt at h
    split at h
    · exact ⟨j, _, ‹_›, List.mem_append.1 h⟩
    · cases h
  · rintro ⟨j, form, hf, h⟩
    refine ⟨j, List.mem_range.2 (Nodes.lt_size_of_form? hf), ?_⟩
    rw [sitesAt, hf]
    exact List.mem_append.2 h

theorem exists_mem_sitesOf_of_outer {place : NodeId} {form : Form NodeId}
    (h : a ∈ outerSites u place form) : ∃ kind idents, kind ≠ .param ∧
      a ∈ sitesOf u place kind idents := by
  unfold outerSites at h
  split at h
  · exact ⟨_, _, by simp, h⟩
  · exact ⟨_, _, by simp, h⟩
  · next keyword ds =>
    obtain ⟨d, -, h⟩ := List.mem_flatMap.1 h
    unfold declaratorSites at h
    split at h
    · exact ⟨_, _, by cases keyword <;> simp [bindingKind], h⟩
    · cases h
  · cases h

theorem exists_mem_sitesOf_of_inner {form : Form NodeId} (h : a ∈ innerSites u i form) :
    ∃ kind idents, (kind = .param → form.isFunction = true) ∧ a ∈ sitesOf u i kind idents := by
  unfold innerSites at h
  split at h
  · rcases List.mem_append.1 h with h | h
    · exact ⟨_, _, fun _ => rfl, h⟩
    · exact ⟨_, _, fun _ => rfl, h⟩
  · exact ⟨_, _, fun _ => rfl, h⟩
  · exact ⟨_, _, by simp, h⟩
  · exact ⟨_, _, by simp, h⟩
  · cases h

theorem identifier?_of_mem_sites (h : a ∈ sites u) : u.nodes.identifier? a.ident = some a.name := by
  obtain ⟨j, form, -, h | h⟩ := mem_sites.1 h
  · obtain ⟨kind, idents, -, h⟩ := exists_mem_sitesOf_of_outer h
    exact (mem_sitesOf.1 h).2.2.2
  · obtain ⟨kind, idents, -, h⟩ := exists_mem_sitesOf_of_inner h
    exact (mem_sitesOf.1 h).2.2.2

/-- A parameter is a site of its function. -/
theorem mem_innerSites_of_param (h : a ∈ sites u) (hk : a.kind = .param)
    (hat : a.isAt u m name = true) {form : Form NodeId} (hf : u.nodes.form? m = some form) :
    a ∈ innerSites u m form := by
  obtain ⟨j, form', hf', h | h⟩ := mem_sites.1 h
  · obtain ⟨kind, idents, hkind, h⟩ := exists_mem_sitesOf_of_outer h
    exact absurd ((mem_sitesOf.1 h).1.symm.trans hk) hkind
  · obtain ⟨kind, idents, hfun, h'⟩ := exists_mem_sitesOf_of_inner h
    obtain ⟨rfl, hplace, -, -⟩ := mem_sitesOf.1 h'
    have hhoists : hoists u j = true := by
      rw [hoists, hf', Option.any_some]
      have := hfun hk
      cases form' <;> first | rfl | cases this
    have hhome := (Site.isAt_iff.1 hat).2
    have hhoisted : a.kind.isHoisted = true := by rw [hk]; rfl
    rw [Site.home?, if_pos hhoisted, hplace, hoister?_of_hoists hhoists, Option.some.injEq] at hhome
    subst hhome
    rw [hf, Option.some.injEq] at hf'
    exact hf' ▸ h

/-- The first site of a name that a node declares in its own scope is the first one there. -/
theorem firstSite?_of_innerSites (hns : u.nodes.WellFormed) (hroot : u.nodes.Rooted)
    {form : Form NodeId} (hf : u.nodes.form? m = some form)
    (ha : (innerSites u m form).find? (·.isAt u m name) = some a) :
    firstSite? u name m = some a := by
  have hbefore {b : Site} (hb : b.place < m) : b.isAt u m name = false := by
    refine Bool.eq_false_iff.2 fun hat => Nat.not_le_of_lt hb ?_
    exact (Site.inside_of_home? (Site.isAt_iff.1 hat).2).le hns
  have hnone {l : List Site} (hl : ∀ b ∈ l, b.place < m) :
      l.find? (·.isAt u m name) = none :=
    List.find?_eq_none.2 fun b hb => by simp [hbefore (hl b hb)]
  -- What the nodes before `m` declare, and what `m` declares around it, stands in front of `m`.
  have houter (j : NodeId) {form : Form NodeId} (hf : u.nodes.form? j = some form) :
      ∀ b ∈ outerSites u ((u.nodes.parent? j).getD Nodes.root) form, b.place < j := by
    intro b hb
    cases hp : u.nodes.parent? j with
    | none =>
      obtain ⟨statements, comments, rfl⟩ := hroot hf hp
      cases hb
    | some p =>
      rw [place_of_mem_outerSites hb, hp]
      exact hns.parent_lt hp
  have hfront : ((List.range m).flatMap (sitesAt u)).find? (·.isAt u m name) = none := by
    refine hnone fun b hb => ?_
    obtain ⟨j, hj, hb⟩ := List.mem_flatMap.1 hb
    unfold sitesAt at hb
    split at hb
    · next form hform =>
      rcases List.mem_append.1 hb with hb | hb
      · exact Nat.lt_trans (houter j hform b hb) (List.mem_range.1 hj)
      · exact place_of_mem_innerSites hb ▸ List.mem_range.1 hj
    · cases hb
  obtain ⟨k, hk⟩ := Nat.exists_eq_add_of_lt (Nodes.lt_size_of_form? hf)
  rw [firstSite?, sites, hk, Nat.add_assoc, List.range_add, List.flatMap_append, List.find?_append,
    hfront, Option.none_or, List.range_succ_eq_map, List.map_cons, List.flatMap_cons,
    List.find?_append, Nat.add_zero, sitesAt, hf, List.find?_append, hnone (houter m hf),
    Option.none_or, ha, Option.some_or]

section Function

variable {place : FunctionPlace} {own : Option NodeId} {params : List NodeId} {body : NodeId}
  {traits : FunctionTraits}

theorem innerSites_function (m : NodeId) :
    innerSites u m (.function place own params body traits) =
      sitesOf u m .param (params.flatMap u.nodes.bindingIds) ++
        if place = .expression then sitesOf u m .function own.toList else [] := by
  cases place <;> simp [innerSites]

theorem isOwnName_iff (hf : u.nodes.form? m = some (.function place own params body traits)) :
    isOwnName u m a = true ↔ place = .expression ∧ own = some a.ident := by
  rw [isOwnName, hf]
  cases place <;> simp

/-- A parameter does not bind the identifier that names the function. -/
theorem isOwnName_of_param (hns : u.nodes.WellFormed)
    (hf : u.nodes.form? m = some (.function place own params body traits))
    (ha : a ∈ sitesOf u m .param (params.flatMap u.nodes.bindingIds)) :
    isOwnName u m a = false := by
  refine Bool.eq_false_iff.2 fun hown => ?_
  obtain ⟨-, rfl⟩ := (isOwnName_iff hf).1 hown
  obtain ⟨q, hq, hident⟩ := List.mem_flatMap.1 (mem_sitesOf.1 ha).2.2.1
  have hparent : u.nodes.parent? a.ident = some m :=
    Nodes.parent?_of_form? hns hf List.mem_cons_self
  have hpq : u.nodes.parent? q = some m :=
    Nodes.parent?_of_form? hns hf (List.mem_cons_of_mem _ (List.mem_append_left _ hq))
  have hnodup : (a.ident :: (params ++ [body])).Nodup := by
    have hchildren : u.nodes.children m = a.ident :: (params ++ [body]) :=
      Nodes.children_of_form? hf
    exact hchildren ▸ hns.nodup m
  cases Nodes.inside_of_mem_bindingIds hns hident with
  | refl => exact (List.nodup_cons.1 hnodup).1 (List.mem_append_left _ hq)
  | up hp hin =>
    rw [hparent, Option.some.injEq] at hp
    subst hp
    exact Nat.not_le_of_lt (hns.parent_lt hpq) (hin.le hns)

/-- The parameters of a function and its own name come before what its body declares. -/
theorem firstSite?_of_head (hns : u.nodes.WellFormed) (hroot : u.nodes.Rooted)
    (hf : u.nodes.form? m = some (.function place own params body traits)) (hb : b ∈ sites u)
    (hat : b.isAt u m name = true) (hhead : b.kind = .param ∨ isOwnName u m b = true) :
    ∃ a, firstSite? u name m = some a ∧ (a.kind = .param ∧ isOwnName u m a = false ∨
      isOwnName u m a = true ∧ b.kind ≠ .param) := by
  cases hparams : (sitesOf u m .param (params.flatMap u.nodes.bindingIds)).find?
    (·.isAt u m name) with
  | some a =>
    have hmem := List.mem_of_find?_eq_some hparams
    refine ⟨a, firstSite?_of_innerSites hns hroot hf ?_, .inl ⟨(mem_sitesOf.1 hmem).1, ?_⟩⟩
    · rw [innerSites_function, List.find?_append, hparams, Option.some_or]
    · exact isOwnName_of_param hns hf hmem
  | none =>
    have hkind : b.kind ≠ .param := fun hk => by
      have hinner := mem_innerSites_of_param hb hk hat hf
      rw [innerSites_function] at hinner
      rcases List.mem_append.1 hinner with hin | hin
      · exact List.find?_eq_none.1 hparams b hin hat
      · split at hin
        · have := (mem_sitesOf.1 hin).1.symm.trans hk
          cases this
        · cases hin
    obtain ⟨rfl, rfl⟩ := (isOwnName_iff hf).1 (hhead.resolve_left hkind)
    have hhoists : hoists u m = true := by
      rw [hoists, hf]
      rfl
    let o : Site := { kind := .function, name := b.name, ident := b.ident, place := m }
    have ho : o.isAt u m name = true :=
      Site.isAt_iff.2 ⟨(Site.isAt_iff.1 hat).1, hoister?_of_hoists hhoists⟩
    have hsites : sitesOf u m .function (some b.ident).toList = [o] := by
      simp [sitesOf, identifier?_of_mem_sites hb, o]
    refine ⟨o, firstSite?_of_innerSites hns hroot hf ?_, .inr ⟨?_, hkind⟩⟩
    · rw [innerSites_function, if_pos rfl, hsites, List.find?_append, hparams, Option.none_or,
        List.find?_cons_of_pos ho]
    · exact (isOwnName_iff hf).2 ⟨rfl, rfl⟩

end Function

/-- Whether the scope of a function misleads about a name. -/
theorem visible?_function (hns : u.nodes.WellFormed) (hroot : u.nodes.Rooted)
    {place : FunctionPlace} {own : Option NodeId} {params : List NodeId} {body : NodeId}
    {traits : FunctionTraits}
    (hf : u.nodes.form? m = some (.function place own params body traits))
    (ha : firstSite? u name m = some a) :
    misleads u name m c a = false ∧ visible? u name m c = some a ∨
      misleads u name m c a = true ∧ ∀ b, visible? u name m c = some b → b.ident ≠ a.ident := by
  have hsees (b : Site) :
      isSeen u m c b = (decide (c = body) || decide (b.kind = .param) || isOwnName u m b) := by
    rw [isSeen, hf]
  -- Only its own name is seen: it is meant.
  have honly (hown : isOwnName u m a = true)
      (hall : ∀ b ∈ seenSites u name m c, isOwnName u m b = true) :
      visible? u name m c = some a := by
    have hseen : isSeen u m c a = true := by rw [hsees, hown, Bool.or_true]
    have hnone : (seenSites u name m c).find? (!isOwnName u m ·) = none :=
      List.find?_eq_none.2 fun b hb => by simp [hall b hb]
    rw [visible?, hnone, Option.none_or, (find?_seenSites ha hseen).1]
  have hmisleads : misleads u name m c a =
      if c = body then
        isOwnName u m a && (sites u).any fun b => b.isAt u m name && !isOwnName u m b
      else a.kind ≠ .param && !isOwnName u m a := by
    rw [misleads, hf]
  by_cases hc : c = body
  · have hall (b : Site) : isSeen u m c b = true := by
      rw [hsees, decide_eq_true hc, Bool.true_or, Bool.true_or]
    rw [if_pos hc] at hmisleads
    cases hown : isOwnName u m a with
    | false =>
      refine .inl ⟨by rw [hmisleads, hown, Bool.false_and], ?_⟩
      rw [visible?, (find?_seenSites ha (hall a)).2 hown, Option.some_or]
    | true =>
      rw [hown, Bool.true_and] at hmisleads
      cases hother : (sites u).any fun b => b.isAt u m name && !isOwnName u m b with
      | true =>
        obtain ⟨b, hb, hat⟩ := List.any_eq_true.1 hother
        rw [Bool.and_eq_true, Bool.not_eq_true'] at hat
        refine .inr ⟨hmisleads.trans hother, fun b' hvisible hident => ?_⟩
        rcases Option.or_eq_some_iff.1 hvisible with hfind | ⟨hnone, -⟩
        · have hnot := List.find?_some hfind
          rw [isOwnName, hf, hident] at hnot
          rw [isOwnName, hf] at hown
          simp [hown] at hnot
        · have hmem : b ∈ seenSites u name m c := mem_seenSites.2 ⟨hb, hat.1, hall b⟩
          have := List.find?_eq_none.1 hnone b hmem
          simp [hat.2] at this
      | false =>
        refine .inl ⟨hmisleads.trans hother, honly hown fun b hb => ?_⟩
        obtain ⟨hb, hat, -⟩ := mem_seenSites.1 hb
        have := List.any_eq_false.1 hother b hb
        simpa [hat] using this
  · -- What is seen from the head is a parameter or its own name, and these come first.
    have hhead {b : Site} (hb : b ∈ seenSites u name m c) :
        a.kind = .param ∧ isOwnName u m a = false ∨ isOwnName u m a = true ∧ b.kind ≠ .param := by
      obtain ⟨hb, hat, hseen⟩ := mem_seenSites.1 hb
      have hkind : b.kind = .param ∨ isOwnName u m b = true := by simpa [hsees, hc] using hseen
      obtain ⟨a', ha', h⟩ := firstSite?_of_head hns hroot hf hb hat hkind
      cases ha.symm.trans ha'
      exact h
    rw [if_neg hc] at hmisleads
    cases hown : isOwnName u m a with
    | true =>
      refine .inl ⟨by rw [hmisleads, hown, Bool.not_true, Bool.and_false], honly hown fun b hb => ?_⟩
      rcases hhead hb with ⟨-, hnot⟩ | ⟨-, hkind⟩
      · simp [hown] at hnot
      · simpa [hsees, hc, hkind] using (mem_seenSites.1 hb).2.2
    | false =>
      by_cases hparam : a.kind = .param
      · have hseen : isSeen u m c a = true := by simp [hsees, hparam]
        refine .inl ⟨by simp [hmisleads, hparam], ?_⟩
        rw [visible?, (find?_seenSites ha hseen).2 hown, Option.some_or]
      · refine .inr ⟨by simp [hmisleads, hparam, hown], fun b hb => ?_⟩
        rcases hhead (mem_of_visible? hb) with ⟨hk, -⟩ | ⟨hk, -⟩
        · exact absurd hk hparam
        · simp [hown] at hk

/-- Seen from a child, a scope means the first site that it has of the name, unless it misleads: then
it means another one, or none. -/
theorem visible?_cases (hns : u.nodes.WellFormed) (hroot : u.nodes.Rooted)
    (ha : firstSite? u name m = some a) :
    misleads u name m c a = false ∧ visible? u name m c = some a ∨
      misleads u name m c a = true ∧ ∀ b, visible? u name m c = some b → b.ident ≠ a.ident := by
  have hopens := Site.opens_of_home? (Site.isAt_iff.1 (firstSite?_eq_some ha).2).2
  obtain ⟨form, hf, -⟩ := (Option.any_eq_true _ _).1 hopens
  cases form with
  | function => exact visible?_function hns hroot hf ha
  | switch discriminant cases =>
    have hown : isOwnName u m a = false := by rw [isOwnName, hf]
    have hseen (b : Site) : isSeen u m c b = decide (c ≠ discriminant) := by rw [isSeen, hf]
    have hmisleads : misleads u name m c a = decide (c = discriminant) := by rw [misleads, hf]
    by_cases hc : c = discriminant
    · refine .inr ⟨hmisleads.trans (decide_eq_true hc), fun b hb => ?_⟩
      have hb := (mem_seenSites.1 (mem_of_visible? hb)).2.2
      rw [hseen, decide_eq_true_eq] at hb
      exact absurd hc hb
    · refine .inl ⟨hmisleads.trans (decide_eq_false hc), ?_⟩
      rw [visible?, (find?_seenSites ha (by simpa [hseen] using hc)).2 hown, Option.some_or]
  | _ =>
    have hown : isOwnName u m a = false := by rw [isOwnName, hf]
    have hseen : isSeen u m c a = true := by rw [isSeen, hf]
    refine .inl ⟨by rw [misleads, hf], ?_⟩
    rw [visible?, (find?_seenSites ha hseen).2 hown, Option.some_or]

/-! ## All scopes -/

/-- What a name means outside of a node has its scope outside. -/
theorem home?_of_lexical? (hns : u.nodes.WellFormed) (h : lexical? u name i = some a) :
    ∃ n, a.home? u = some n ∧ n < i := by
  induction i using Nat.strongRecOn with
  | _ i ih =>
    cases hp : u.nodes.parent? i with
    | none =>
      rw [lexical?_of_root hp] at h
      cases h
    | some p =>
      rw [lexical?_of_parent hns hp] at h
      rcases Option.or_eq_some_iff.1 h with h | ⟨-, h⟩
      · have hat := (mem_seenSites.1 (mem_of_visible? h)).2.1
        exact ⟨p, (Site.isAt_iff.1 hat).2, hns.parent_lt hp⟩
      · obtain ⟨n, hn, hlt⟩ := ih p (hns.parent_lt hp) h
        exact ⟨n, hn, Nat.lt_trans hlt (hns.parent_lt hp)⟩

/-- The nearest scope that has a name tells what the name refers to, unless it misleads. -/
theorem targetOf_nearest?_iff (hns : u.nodes.WellFormed) (hroot : u.nodes.Rooted) (name : String)
    (i : NodeId) : targetOf u name (nearest? u name i) = lexicalTarget u name i ↔
      missed u name i = false := by
  induction i using Nat.strongRecOn with
  | _ i ih =>
    rw [lexicalTarget]
    cases hp : u.nodes.parent? i with
    | none => rw [nearest?_of_root hp, lexical?_of_root hp, missed_of_root hp]; simp
    | some p =>
      rw [nearest?_of_parent hns hp, lexical?_of_parent hns hp, missed_of_parent hns hp]
      cases hfirst : firstSite? u name p with
      | none =>
        rw [visible?_of_firstSite? hfirst, Option.none_or, Option.none_or, Option.map_none,
          Option.getD_none]
        exact ih p (hns.parent_lt hp)
      | some a =>
        rw [Option.some_or, Option.map_some, Option.getD_some]
        rcases visible?_cases (c := i) hns hroot hfirst with
          ⟨hmisleads, hvisible⟩ | ⟨hmisleads, hother⟩
        · rw [hmisleads, hvisible, Option.some_or]
          exact iff_of_true rfl rfl
        · rw [hmisleads]
          refine iff_of_false (fun heq => ?_) Bool.noConfusion
          cases hv : visible? u name p i with
          | some b =>
            rw [hv, Option.some_or] at heq
            have hident : some a.ident = some b.ident := congrArg Target.ident (Option.some.inj heq)
            exact hother b hv (Option.some.inj hident).symm
          | none =>
            rw [hv, Option.none_or] at heq
            have hhome := (Site.isAt_iff.1 (firstSite?_eq_some hfirst).2).2
            cases hl : lexical? u name p with
            | some b =>
              rw [hl] at heq
              obtain ⟨n, hn, hlt⟩ := home?_of_lexical? hns hl
              have hnode : a.home? u = b.home? u := congrArg Target.node (Option.some.inj heq)
              rw [hhome, hn, Option.some.injEq] at hnode
              exact Nat.ne_of_lt hlt hnode.symm
            | none =>
              rw [hl, targetOf, targetOf] at heq
              split at heq <;> simp at heq

end Binding

end LoopClosure
