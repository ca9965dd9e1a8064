import LoopClosure.Proofs.Binding.Duplicates
import LoopClosure.Proofs.Binding.Lexical

/-!
# What references resolve to

A reference of a bound unit resolves to the first site of the nearest scope around it that has its
name, else to a global (`bind_target`), as long as no way up the scopes is cut off. So it resolves by
the rules of the language exactly if that scope does not mislead (`bind_lexical_iff`).
-/

namespace LoopClosure

open Syntax Scopes Binding

namespace Scopes

variable {s t : Scopes} {name : String} {target x : ScopeId}

theorem find?_walkUp_of_finds (h : s.Finds name target x) {n : Nat}
    (hlen : (s.walkUp n (some x)).length < n) :
    (s.walkUp n (some x)).find? (fun id =>
      ((s.get? (some id)).map (·.declares name)).getD false) = some target := by
  induction h generalizing n with
  | here h =>
    obtain ⟨n, rfl⟩ := Nat.exists_eq_succ_of_ne_zero (Nat.ne_of_gt (Nat.zero_lt_of_lt hlen))
    rw [walkUp_succ, List.find?_cons_of_pos (by rw [declares_eq, h])]
  | up hx hp _ ih =>
    obtain ⟨n, rfl⟩ := Nat.exists_eq_succ_of_ne_zero (Nat.ne_of_gt (Nat.zero_lt_of_lt hlen))
    rw [walkUp_succ, hp, List.length_cons] at hlen
    rw [walkUp_succ, List.find?_cons_of_neg (by rw [declares_eq, hx]; simp), hp]
    exact ih (Nat.lt_of_succ_lt_succ hlen)

/-- A way that is not cut off leads to what is found. -/
theorem lookup?_of_finds (h : s.Finds name target x)
    (hlen : (s.walk (some x)).length < maxWalk) : s.lookup? (some x) name = some target :=
  find?_walkUp_of_finds h hlen

end Scopes

namespace Binding

variable {u : CompilationUnit} {globals : List String} {s t : Scopes} {table : Array ScopeId}
  {name : String} {x y : ScopeId} {i n : NodeId} {a : Site}

/-! ## Looking up a name -/

namespace Layout

theorem isSome_declaration? {done : List Site} (h : Layout u globals s table done)
    (hx : s.node? (some x) = some n) (name : String) :
    (s.declaration? (some x) name).isSome = (done.find? (·.isAt u n name)).isSome := by
  have := congrArg Option.isSome (h.declared name hx)
  rwa [Option.isSome_map, Option.isSome_map] at this

theorem finds_global_iff {done : List Site} (h : Layout u globals s table done) :
    s.Finds name y topScope ↔ y = topScope ∧ name ∈ globals := by
  have hsome : (s.declaration? (some topScope) name).isSome = true ↔ name ∈ globals := by
    have := congrArg Option.isSome (h.global name)
    rw [Option.isSome_map] at this
    rw [this]
    split <;> simp [*]
  constructor
  · intro hf
    cases hf with
    | here hd => exact ⟨rfl, hsome.1 hd⟩
    | up _ hp => cases h.top.2.symm.trans hp
  · rintro ⟨rfl, hn⟩
    exact .here (hsome.2 hn)

/-- Where a name is found from the scope of a node: in that of the first site there or outward, or
among the globals. -/
theorem finds_cases (h : Layout u globals s table (sites u)) (hns : u.nodes.WellFormed)
    (hroot : u.nodes.Rooted) (name : String) (hi : table[i]? = some x) :
    (∃ n a y, (firstSite? u name i).or (nearest? u name i) = some a ∧
        firstSite? u name n = some a ∧ s.node? (some y) = some n ∧ s.Finds name y x) ∨
      ((firstSite? u name i).or (nearest? u name i) = none ∧
        ∀ y, s.Finds name y x ↔ y = topScope ∧ name ∈ globals) := by
  induction i using Nat.strongRecOn generalizing x with
  | _ i ih =>
    obtain ⟨form, hf⟩ := h.exists_form hi
    cases ho : opens u i with
    | false =>
      have hnone : firstSite? u name i = none :=
        List.find?_eq_none.2 fun a _ hat => by
          simp [Site.opens_of_home? (Site.isAt_iff.1 hat).2] at ho
      obtain rfl := h.same hi ho
      cases hp : u.nodes.parent? i with
      | none => simp [opens_of_hoists (hoists_of_root hroot hf hp)] at ho
      | some p =>
        rw [hnone, Option.none_or, nearest?_of_parent hns hp]
        exact ih p (hns.parent_lt hp) (standing_of_parent hns hi hp)
    | true =>
      have hnode : s.node? (some x) = some i := (h.opener hi).trans (opener?_of_opens ho)
      have hsome := h.isSome_declaration? hnode name
      cases hfirst : firstSite? u name i with
      | some a =>
        rw [firstSite?] at hfirst
        rw [hfirst, Option.isSome_some] at hsome
        exact .inl ⟨i, a, x, rfl, hfirst, hnode, .here hsome⟩
      | none =>
        rw [firstSite?] at hfirst
        rw [hfirst, Option.isSome_none] at hsome
        have hparent := h.parent hnode
        -- The scope has no such name, so the search goes on outside.
        have hup (y : ScopeId) : s.Finds name y x ↔ s.Finds name y (standing u table i) := by
          refine ⟨fun hy => ?_, fun hy => .up hsome hparent hy⟩
          cases hy with
          | here hd => simp [hsome] at hd
          | up _ hp hy =>
            rw [hparent, Option.some.injEq] at hp
            exact hp ▸ hy
        rw [Option.none_or]
        cases hp : u.nodes.parent? i with
        | none =>
          have htop : standing u table i = topScope := by rw [standing, hp]; rfl
          refine .inr ⟨nearest?_of_root hp, fun y => ?_⟩
          rw [hup, htop, h.finds_global_iff]
        | some p =>
          rw [nearest?_of_parent hns hp]
          rcases ih p (hns.parent_lt hp) (standing_of_parent hns hi hp) with
            ⟨n, a, y, hor, hn, hy, hfinds⟩ | ⟨hor, hall⟩
          · exact .inl ⟨n, a, y, hor, hn, hy, (hup y).2 hfinds⟩
          · exact .inr ⟨hor, fun y => (hup y).trans (hall y)⟩

/-- What the lookup of a name from the scope of an identifier shows. -/
theorem lookup?_cases (h : Layout u globals s table (sites u)) (hns : u.nodes.WellFormed)
    (hroot : u.nodes.Rooted) {ident : NodeId} (hname : u.nodes.identifier? ident = some name)
    (hi : table[ident]? = some x) (hlen : (s.walk (some x)).length < maxWalk) :
    (∃ n a y d, nearest? u name ident = some a ∧ a.home? u = some n ∧
        s.lookup? (some x) name = some y ∧ s.node? (some y) = some n ∧
        s.declaration? (some y) name = some d ∧ d.node = some a.ident) ∨
      (nearest? u name ident = none ∧
        (name ∈ globals → s.lookup? (some x) name = some topScope ∧
          ∃ d, s.declaration? (some topScope) name = some d ∧ d.node = none) ∧
        (name ∉ globals → s.lookup? (some x) name = none)) := by
  have hnone : firstSite? u name ident = none :=
    List.find?_eq_none.2 fun a _ hat => by
      have hopens := Site.opens_of_home? (Site.isAt_iff.1 hat).2
      rw [opens, Nodes.identifier?_eq_some_iff.1 hname] at hopens
      cases hopens
  rcases h.finds_cases hns hroot name hi with ⟨n, a, y, hor, hn, hy, hfinds⟩ | ⟨hor, hall⟩
  · left
    rw [hnone, Option.none_or] at hor
    have hdecl := h.declared name hy
    rw [firstSite?] at hn
    rw [hn, Option.map_some, Option.map_eq_some_iff] at hdecl
    obtain ⟨d, hd, hbinder⟩ := hdecl
    have hhome := (Site.isAt_iff.1 (List.find?_some hn)).2
    exact ⟨n, a, y, d, hor, hhome, lookup?_of_finds hfinds hlen, hy, hd,
      congrArg Prod.snd hbinder⟩
  · right
    rw [hnone, Option.none_or] at hor
    refine ⟨hor, fun hg => ⟨lookup?_of_finds ((hall _).2 ⟨rfl, hg⟩) hlen, ?_⟩, fun hg => ?_⟩
    · have hdecl := h.global name
      rw [if_pos hg, Option.map_eq_some_iff] at hdecl
      exact hdecl
    · cases hl : s.lookup? (some x) name with
      | none => rfl
      | some y =>
        obtain ⟨x', hx', hfinds⟩ := finds_of_lookup? hl
        cases hx'
        exact absurd ((hall y).1 hfinds).2 hg

end Layout

/-! ## Resolving -/

/-- What a reference is resolved to, by the node of the scope. -/
def Resolving.target? (r : Resolving) (ident : NodeId) : Option Target :=
  ((r.resolved[ident]?).join).map fun e => ⟨r.scopes.node? e.scope, e.declaration⟩

variable {b : Build} {r r' : Resolving} {ident : NodeId}

/-- Resolving a reference notes what the nearest scope with the name has, and nothing else. -/
theorem resolveReference_target (hns : u.nodes.WellFormed) (hroot : u.nodes.Rooted)
    (hl : Layout u (globalNames u) r.scopes b.nodeScopes (sites u))
    (hname : u.nodes.identifier? ident = some name) (hx : b.nodeScopes[ident]? = some x)
    (hlen : (r.scopes.walk (some x)).length < maxWalk) (hsize : ident < r.resolved.size)
    (hfresh : r.target? ident = none) (h : resolveReference u b r ident = .ok r') :
    r'.target? ident = targetOf u name (nearest? u name ident) ∧
      r'.resolved.size = r.resolved.size ∧
      ∀ j, j ≠ ident → r'.target? j = r.target? j := by
  have hnode (id : Option ScopeId) : r'.scopes.node? id = r.scopes.node? id :=
    (resolveReference_steps h).sameShape.node? id
  -- What is noted when the lookup shows the scope `y`.
  have hnoted {y : ScopeId} {d : Declaration}
      (hy : r.scopes.lookup? b.nodeScopes[ident]? name = some y)
      (hd : r.scopes.declaration? (some y) name = some d) :
      r'.target? ident = some ⟨r.scopes.node? (some y), d.node⟩ ∧
        r'.resolved.size = r.resolved.size ∧ ∀ j, j ≠ ident → r'.target? j = r.target? j := by
    rcases resolveReference_cases h with ⟨-, hnone⟩ | ⟨name', e, hres⟩
    · cases (hnone name hname).symm.trans hy
    · cases hname.symm.trans hres.named
      cases hy.symm.trans hres.found
      obtain ⟨d', hd', hde⟩ := hres.declared
      cases hd.symm.trans hd'
      refine ⟨?_, by rw [hres.resolved, Array.size_setIfInBounds], fun j hj => ?_⟩
      · simp only [Resolving.target?, hres.resolved, Array.getElem?_setIfInBounds_self_of_lt hsize,
          Option.join_some, Option.map_some, hnode, hde]
      · simp only [Resolving.target?, hres.resolved, Array.getElem?_setIfInBounds_ne (Ne.symm hj),
          hnode]
  rcases hl.lookup?_cases hns hroot hname hx hlen with
    ⟨n, a, y, d, hnear, hhome, hy, hyn, hd, hident⟩ | ⟨hnear, hglobal, hunknown⟩
  · rw [hnear, targetOf, hhome, ← hyn, ← hident]
    exact hnoted (hx ▸ hy) hd
  · rw [hnear, targetOf]
    by_cases hg : name ∈ globalNames u
    · obtain ⟨hy, d, hd, hnone⟩ := hglobal hg
      have htop := hnoted (hx ▸ hy) hd
      rw [hl.top.1, hnone] at htop
      rw [if_pos hg]
      exact htop
    · rw [if_neg hg]
      rcases resolveReference_cases h with ⟨rfl, -⟩ | ⟨name', e, hres⟩
      · exact ⟨hfresh, rfl, fun _ _ => rfl⟩
      · cases hname.symm.trans hres.named
        have hy := hres.found
        rw [hx, hunknown hg] at hy
        cases hy

/-- All references of a list are resolved to what the nearest scopes have. -/
theorem resolveAll_target (hns : u.nodes.WellFormed) (hroot : u.nodes.Rooted) {idents : List NodeId}
    (hl : Layout u (globalNames u) r.scopes b.nodeScopes (sites u))
    (hlen : ∀ {i : NodeId} {x : ScopeId}, b.nodeScopes[i]? = some x →
      (r.scopes.walk (some x)).length < maxWalk)
    (hnodup : idents.Nodup) (hsize : r.resolved.size = b.nodeScopes.size)
    (hfresh : ∀ ident ∈ idents, r.target? ident = none)
    (hnames : ∀ ident ∈ idents, ∃ name, u.nodes.identifier? ident = some name)
    (hlt : ∀ ident ∈ idents, ident < b.nodeScopes.size)
    (h : resolveAll u b r idents = .ok r') :
    (∀ ident ∈ idents, ∀ name, u.nodes.identifier? ident = some name →
      r'.target? ident = targetOf u name (nearest? u name ident)) ∧
      ∀ j, j ∉ idents → r'.target? j = r.target? j := by
  induction idents generalizing r with
  | nil =>
    cases h
    exact ⟨fun _ hi => absurd hi List.not_mem_nil, fun _ _ => rfl⟩
  | cons ident idents ih =>
    obtain ⟨r₁, h₁, h⟩ := bind_eq_ok.1 h
    obtain ⟨hnotin, hnodup⟩ := List.nodup_cons.1 hnodup
    obtain ⟨name, hname⟩ := hnames ident List.mem_cons_self
    have hlti := hlt ident List.mem_cons_self
    have hx : b.nodeScopes[ident]? = some b.nodeScopes[ident] := Array.getElem?_eq_getElem hlti
    have hsteps := resolveReference_steps h₁
    have hl₁ : Layout u (globalNames u) r₁.scopes b.nodeScopes (sites u) := hl.steps hsteps
    obtain ⟨htarget, hsize₁, hother⟩ := resolveReference_target hns hroot hl hname hx (hlen hx)
      (hsize ▸ hlti) (hfresh ident List.mem_cons_self) h₁
    have hne {j : NodeId} (hj : j ∈ idents) : j ≠ ident := fun e => hnotin (e ▸ hj)
    have hlen₁ {i : NodeId} {x : ScopeId} (hi : b.nodeScopes[i]? = some x) :
        (r₁.scopes.walk (some x)).length < maxWalk := by
      rw [walk, walkUp_congr (fun id => hsteps.sameShape.parent? id)]
      exact hlen hi
    obtain ⟨hall, hrest⟩ := ih hl₁ hlen₁ hnodup (hsize₁.trans hsize)
      (fun j hj => (hother j (hne hj)).trans (hfresh j (List.mem_cons_of_mem _ hj)))
      (fun j hj => hnames j (List.mem_cons_of_mem _ hj))
      (fun j hj => hlt j (List.mem_cons_of_mem _ hj)) h
    refine ⟨fun j hj other hother' => ?_, fun j hj => ?_⟩
    · rcases List.mem_cons.1 hj with rfl | hj
      · cases hname.symm.trans hother'
        rw [hrest j hnotin, htarget]
      · exact hall j hj other hother'
    · obtain ⟨hji, hj⟩ := not_or.1 (mt List.mem_cons.2 hj)
      rw [hrest j hj, hother j hji]

/-! ## The references of a unit -/

theorem mem_references_enterNode {b b' : Build} {id : NodeId} {n : Node}
    (h : enterNode u b id n = .ok b') {j : NodeId} : j ∈ b'.references.toList ↔
      j ∈ b.references.toList ∨ j = id ∧ (∃ name, n.form = .identifier name) ∧
        isReference u.nodes id = true := by
  unfold enterNode at h
  extract_lets scope at h
  obtain ⟨⟨t, own⟩, -, h⟩ := bind_eq_ok.1 h
  dsimp only at h
  split at h
  · next name hform =>
    split at h
    · next href =>
      cases h
      simp [href, hform]
    · next href =>
      cases h
      simp [href]
  · next hnot =>
    cases h
    simpa using fun _ name hform => absurd hform (hnot name)

theorem mem_references_enterNodes {b b' : Build} {ns : List Node} {id : NodeId}
    (hrest : u.nodes.table.toList.drop id = ns) (h : enterNodes u b id ns = .ok b') {j : NodeId} :
    j ∈ b'.references.toList ↔ j ∈ b.references.toList ∨
      id ≤ j ∧ (∃ name, u.nodes.identifier? j = some name) ∧ isReference u.nodes j = true := by
  induction ns generalizing b id with
  | nil =>
    cases h
    refine ⟨.inl, fun h => h.resolve_right ?_⟩
    rintro ⟨hle, ⟨name, hname⟩, -⟩
    have hsize : u.nodes.size ≤ id := by simpa [Nodes.size] using List.drop_eq_nil_iff.1 hrest
    exact Nat.not_le_of_lt (Nodes.lt_size_of_identifier? hname) (Nat.le_trans hsize hle)
  | cons n ns ih =>
    obtain ⟨b₁, h₁, h⟩ := bind_eq_ok.1 h
    have hn : u.nodes.get? id = some n := by
      have := congrArg List.head? hrest
      rwa [List.head?_drop, List.head?_cons, Array.getElem?_toList] at this
    have hform (name : String) :
        u.nodes.identifier? id = some name ↔ n.form = .identifier name := by
      rw [Nodes.identifier?_eq_some_iff, Nodes.form?, hn, Option.map_some, Option.some.injEq]
    have hrest' : u.nodes.table.toList.drop (id + 1) = ns := by
      rw [← List.drop_drop, hrest, List.drop_one, List.tail_cons]
    rw [ih hrest' h, mem_references_enterNode h₁, or_assoc]
    simp only [← hform]
    refine or_congr_right ⟨?_, ?_⟩
    · rintro (⟨rfl, hrest⟩ | ⟨hle, hrest⟩)
      · exact ⟨Nat.le_refl _, hrest⟩
      · exact ⟨Nat.le_of_succ_le hle, hrest⟩
    · rintro ⟨hle, hrest⟩
      rcases Nat.eq_or_lt_of_le hle with rfl | hlt
      · exact .inl ⟨rfl, hrest⟩
      · exact .inr ⟨hlt, hrest⟩

/-- The references that are written. -/
def Build.ToldWrites (u : CompilationUnit) (b : Build) : Prop :=
  b.writes.toList = b.references.toList.filter fun j => role u.nodes j = .writes

theorem Build.ToldWrites.enterNode {b b' : Build} {id : NodeId} {n : Node} (hw : b.ToldWrites u)
    (h : enterNode u b id n = .ok b') : b'.ToldWrites u := by
  unfold Binding.enterNode at h
  extract_lets scope at h
  obtain ⟨⟨t, own⟩, -, h⟩ := bind_eq_ok.1 h
  dsimp only at h
  split at h
  · split at h
    · cases h
      rw [ToldWrites, Array.toList_push, List.filter_append, ← hw, List.filter_singleton]
      split <;> simp [*]
    · cases h
      exact hw
  · cases h
    exact hw

theorem Build.ToldWrites.enterNodes {b b' : Build} {ns : List Node} {id : NodeId}
    (hw : b.ToldWrites u) (h : enterNodes u b id ns = .ok b') : b'.ToldWrites u := by
  induction ns generalizing b id with
  | nil =>
    cases h
    exact hw
  | cons n ns ih =>
    obtain ⟨b₁, h₁, h⟩ := bind_eq_ok.1 h
    exact ih (hw.enterNode h₁) h

/-- What entering the nodes of a unit and adding the globals of its comments come to. -/
structure Staged (u : CompilationUnit) (b : Build) (s : Scopes) : Prop where
  layout : Layout u (globalNames u) s b.nodeScopes (sites u)
  mapped : Mapped u s b.nodeScopes
  entered : Entered u b
  size : b.nodeScopes.size = u.nodes.size
  mem_references : ∀ j, j ∈ b.references.toList ↔
    (∃ name, u.nodes.identifier? j = some name) ∧ isReference u.nodes j = true
  writes : b.ToldWrites u

end Binding

/-! ## Binding -/

/-- What a reference of a bound unit refers to, by the node of the scope. -/
def Bound.target? (b : Bound) (ident : NodeId) : Option Target :=
  (b.resolution? ident).map fun e => ⟨b.scopes.node? e.scope, e.declaration⟩

/-- No way up the scopes is cut off, whichever node it starts at. -/
def Bound.Uncut (b : Bound) : Prop :=
  ∀ x ∈ b.nodeScopes, (b.scopes.walk (some x)).length < maxWalk

instance (b : Bound) : Decidable b.Uncut := inferInstanceAs (Decidable (∀ x ∈ _, _))

section Bind

variable {u : CompilationUnit} {b : Bound} {name : String} {ident : NodeId}

theorem enterNodes_staged (hns : u.nodes.WellFormed) (hroot : u.nodes.Rooted) {s : Scopes}
    {build : Build} {listed : List (String × Bool × Nat)} (hs : environment u = .ok s)
    (hbuild : enterNodes u { scopes := s } 0 u.nodes.table.toList = .ok build)
    (hlisted : listedGlobals u = listed) :
    Staged u build (listed.foldl (fun s (name, writable, stop) =>
      s.addGlobal topScope name (if writable then .let_ else .const) (some stop)) build.scopes) := by
  obtain ⟨hentered, hsize⟩ := (entered_environment hs).enterNodes rfl hbuild
  refine ⟨?_, ?_, hentered, hsize.trans (by simp [Nodes.size]), fun j => ?_, ?_⟩
  · rcases (layout_environment hs).enterNodes (b := { scopes := s }) hns hroot rfl rfl with
      ⟨build', hbuild', hl⟩ | ⟨⟨_, _, he⟩, -⟩ | ⟨⟨_, he⟩, -⟩
    · cases hbuild.symm.trans hbuild'
      rw [globalNames, hlisted]
      exact hl.foldl_addGlobal _ _ _ listed
    · cases hbuild.symm.trans he
    · cases hbuild.symm.trans he
  · have hmapped := (Mapped.environment hs).enterNodes hns (entered_environment hs) rfl hbuild
    generalize build.scopes = t at hmapped
    clear hlisted
    induction listed generalizing t with
    | nil => exact hmapped
    | cons e listed ih => exact ih _ (hmapped.addGlobal _ _ _)
  · rw [mem_references_enterNodes (j := j) rfl hbuild]
    simp
  · exact (show Build.ToldWrites u { scopes := s } from rfl).enterNodes hbuild

/-- The scopes are laid out before the references are resolved. -/
theorem bind_stages (hns : u.nodes.WellFormed) (hroot : u.nodes.Rooted) (hb : bind u = .ok b) :
    ∃ build globals r, Staged u build globals ∧
      resolveAll u build ⟨globals, .replicate u.nodes.size none⟩ build.references.toList = .ok r ∧
      b.scopes = r.scopes ∧ b.nodeScopes = build.nodeScopes ∧ b.resolved = r.resolved ∧
      b.writes = build.writes := by
  unfold bind at hb
  split at hb
  · next comments hform =>
    obtain ⟨s, hs, h⟩ := bind_eq_ok.1 hb
    obtain ⟨build, hbuild, h⟩ := bind_eq_ok.1 h
    extract_lets listed globals at h
    obtain ⟨r, hr, h⟩ := bind_eq_ok.1 h
    cases h
    have hlisted : listedGlobals u = listed := by rw [listedGlobals, hform]
    exact ⟨build, globals, r, enterNodes_staged hns hroot hs hbuild hlisted, hr, rfl, rfl, rfl, rfl⟩
  · cases hb

/-- The scopes of a bound unit are laid out along the tree. -/
theorem bind_layout (hns : u.nodes.WellFormed) (hroot : u.nodes.Rooted) (hb : bind u = .ok b) :
    Layout u (globalNames u) b.scopes b.nodeScopes (sites u) := by
  obtain ⟨build, globals, r, hstaged, hr, hscopes, hnodes, -⟩ := bind_stages hns hroot hb
  rw [hscopes, hnodes]
  exact hstaged.layout.steps (resolveAll_steps hr)

/-- References resolve to what the nearest scope with the name has. -/
theorem bind_target (hns : u.nodes.WellFormed) (hroot : u.nodes.Rooted) (hb : bind u = .ok b)
    (hwalk : b.Uncut) (hname : u.nodes.identifier? ident = some name)
    (href : isReference u.nodes ident = true) :
    b.target? ident = targetOf u name (nearest? u name ident) := by
  obtain ⟨build, globals, r, ⟨hl, -, hentered, hsize, hmem, -⟩, hr, hscopes, hnodes, hresolved, -⟩ :=
    bind_stages hns hroot hb
  have hlen {i : NodeId} {x : ScopeId} (hi : build.nodeScopes[i]? = some x) :
      (globals.walk (some x)).length < maxWalk := by
    have := hwalk x (hnodes ▸ Array.mem_of_getElem? hi)
    rwa [hscopes, walk, walkUp_congr fun id => (resolveAll_steps hr).sameShape.parent? id] at this
  have hfresh (j : NodeId) : Resolving.target? ⟨globals, .replicate u.nodes.size none⟩ j = none := by
    rw [Resolving.target?, Array.getElem?_replicate]
    split <;> rfl
  have htarget := (resolveAll_target (r := ⟨globals, .replicate u.nodes.size none⟩) hns hroot hl
    hlen hentered.nodup (by simp [hsize]) (fun j _ => hfresh j) (fun j hj => ((hmem j).1 hj).1)
    (fun _ => hentered.reference_lt) hr).1 ident ((hmem ident).2 ⟨⟨name, hname⟩, href⟩) name hname
  rw [← htarget, Bound.target?, Bound.resolution?, hscopes, hresolved]
  rfl

end Bind

section Parsed

variable {u : CompilationUnit} {t : Tree} {b : Bound} {name : String} {ident : NodeId}

/-- **Lexical scoping.** A reference of a parsed unit that binds, with no way up its scopes cut off,
resolves by the rules of the language exactly if the nearest scope that has its name does not
mislead. -/
theorem bind_lexical_iff (hparse : Grammar.parse u.source = .ok t) (hnodes : u.nodes = .ofTree t)
    (hb : bind u = .ok b) (hwalk : b.Uncut) (hname : u.nodes.identifier? ident = some name)
    (href : isReference u.nodes ident = true) :
    b.target? ident = lexicalTarget u name ident ↔ missed u name ident = false := by
  have hns : u.nodes.WellFormed :=
    hnodes ▸ Nodes.wellFormed_ofTree (Grammar.parse_wellFormed hparse)
  have hroot : u.nodes.Rooted := hnodes ▸ Grammar.parse_rooted hparse
  rw [bind_target hns hroot hb hwalk hname href]
  exact targetOf_nearest?_iff hns hroot name ident

/-- A parameter that the default of another one refers to, with other bindings of its name around. -/
def paramInDefault : List Char :=
  "let x = 1; function f(x, g = () => x) \x7b \x7b let x = 2; \x7d \x7d".toList

theorem bind_lexical_paramInDefault : ∃ t b, Grammar.parse paramInDefault = .ok t ∧
    bind ⟨"", paramInDefault, .ofTree t, {}⟩ = .ok b ∧ b.target? 11 = some ⟨some 5, some 7⟩ ∧
    lexicalTarget ⟨"", paramInDefault, .ofTree t, {}⟩ "x" 11 = some ⟨some 5, some 7⟩ := by
  have hrun : okAnd (Grammar.parse paramInDefault) (fun t =>
      okAnd (bind ⟨"", paramInDefault, .ofTree t, {}⟩) fun b =>
        decide b.Uncut && decide ((Nodes.ofTree t).identifier? 11 = some "x") &&
          isReference (.ofTree t) 11 && !missed ⟨"", paramInDefault, .ofTree t, {}⟩ "x" 11 &&
          decide (b.target? 11 = some ⟨some 5, some 7⟩)) = true := by
    decide +kernel
  obtain ⟨t, hparse, hrun⟩ := okAnd_iff.1 hrun
  obtain ⟨b, hb, hrun⟩ := okAnd_iff.1 hrun
  simp only [Bool.and_eq_true, decide_eq_true_eq, Bool.not_eq_true'] at hrun
  obtain ⟨⟨⟨⟨hwalk, hname⟩, href⟩, hmissed⟩, htarget⟩ := hrun
  have hiff := bind_lexical_iff (u := ⟨"", paramInDefault, .ofTree t, {}⟩) hparse rfl hb hwalk hname
    href
  exact ⟨t, b, hparse, hb, htarget, (hiff.2 hmissed).symm.trans htarget⟩

/-- The body declares the name that the head refers to. -/
def varBehindDefault : List Char :=
  "var x = 1; function f(a = x) \x7b var x = 2; \x7d".toList

theorem target?_varBehindDefault : ∃ t b, Grammar.parse varBehindDefault = .ok t ∧
    bind ⟨"", varBehindDefault, .ofTree t, {}⟩ = .ok b ∧ b.Uncut ∧
    (Nodes.ofTree t).identifier? 9 = some "x" ∧ isReference (.ofTree t) 9 = true ∧
    b.target? 9 ≠ lexicalTarget ⟨"", varBehindDefault, .ofTree t, {}⟩ "x" 9 := by
  have hrun : okAnd (Grammar.parse varBehindDefault) (fun t =>
      okAnd (bind ⟨"", varBehindDefault, .ofTree t, {}⟩) fun b =>
        decide (b.Uncut ∧ (Nodes.ofTree t).identifier? 9 = some "x" ∧
          isReference (.ofTree t) 9 = true ∧
          b.target? 9 ≠ lexicalTarget ⟨"", varBehindDefault, .ofTree t, {}⟩ "x" 9)) = true := by
    decide +kernel
  obtain ⟨t, hparse, hrun⟩ := okAnd_iff.1 hrun
  obtain ⟨b, hb, hrun⟩ := okAnd_iff.1 hrun
  exact ⟨t, b, hparse, hb, of_decide_eq_true hrun⟩

end Parsed

end LoopClosure
