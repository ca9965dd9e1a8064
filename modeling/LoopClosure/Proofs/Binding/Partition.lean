import LoopClosure.Proofs.Binding.Lexical
import LoopClosure.Proofs.Binding.Writes
import LoopClosure.Proofs.Grammar.Placing.Statement
import LoopClosure.Proofs.Lowering.Lists

/-!
# Names and references

Names are declared on the way down, from what a declarator, a function or a `catch` clause binds;
whether an identifier refers to a binding is told on the way up. In a program whose patterns are not
deeper than that way the two part the identifiers among them (`bind_partitions`).

- `role_binds_iff`: the way up comes to where the way down began.
- `isReference_iff`: what refers to a binding neither declares a name nor only mentions one.
- `Binding.Layout.exists_declaration`: each site has a scope around it that has its name.
- `Nodes.Declares.exists_site`: what declares a name is a site.
-/

namespace LoopClosure

open Syntax

namespace Syntax

namespace Form

variable {α : Type} {f : Form α} {a : α}

/-- The name of a function or a class. -/
def title? : Form α → Option α
  | .function _ name _ _ _ | .classBody _ name _ _ => name
  | _ => none

/-- Names of labels, properties and members, but for computed ones. -/
def mentions : Form α → List α
  | .member _ key computed _ | .method key _ _ _ computed | .field key _ _ computed =>
    if computed then [] else [key]
  | .property key _ _ traits => if traits.computed then [] else [key]
  | .labeled label _ => [label]
  | .jump _ label => label.toList
  | _ => []

theorem mem_children_of_title? (h : f.title? = some a) : a ∈ f.children := by
  cases f with
  | function place name params body traits =>
    obtain rfl : name = some a := h
    exact List.mem_cons_self
  | classBody place name heritage members =>
    obtain rfl : name = some a := h
    exact List.mem_cons_self
  | _ => cases h

theorem mem_children_of_mentions (h : a ∈ f.mentions) : a ∈ f.children := by
  cases f with
  | jump jump label => exact h
  | _ => simp_all [mentions, children]

end Form

namespace Nodes

variable {ns : Nodes} {t : Tree} {ks : List Token.Lexeme} {i slot : NodeId} {n : Nat}

/-- The identifier is found in a target that is bound. -/
def Binds (ns : Nodes) (i : NodeId) : Prop := ∃ slot, ns.IsBound slot ∧ i ∈ ns.bindingIds slot

/-- The name of a function or a class. -/
def IsTitle (ns : Nodes) (i : NodeId) : Prop := ∃ p f, ns.form? p = some f ∧ f.title? = some i

/-- The identifier gives a name to what is bound. -/
def Declares (ns : Nodes) (i : NodeId) : Prop := ns.Binds i ∨ ns.IsTitle i

/-- The name of a label, a property or a member. -/
def IsMention (ns : Nodes) (i : NodeId) : Prop := ∃ p f, ns.form? p = some f ∧ i ∈ f.mentions

/-- Fewer than `limit` nodes of a pattern that is bound lie around each name in it. -/
def BindsWithin (ns : Nodes) (limit : Nat) : Prop := ∀ slot n i name,
  ns.IsBound slot → ns.Holds slot n i → ns.identifier? i = some name → n < limit

/-- A pattern has fewer nodes than the table. -/
theorem bindsWithin_of_size_le {limit : Nat} (hns : ns.WellFormed) (h : ns.size ≤ limit) :
    ns.BindsWithin limit := by
  intro slot n i name _ hn hname
  have hlt : i < ns.size := lt_size_of_form? (identifier?_eq_some_iff.1 hname)
  have hle : n ≤ i := Nat.le_trans (Nat.le_add_left n slot) (hn.add_le hns)
  exact Nat.lt_of_le_of_lt hle (Nat.lt_of_lt_of_le hlt h)

theorem isTitle_iff (hns : ns.WellFormed) {p : NodeId} {f : Form NodeId}
    (hp : ns.parent? i = some p) (hf : ns.form? p = some f) : ns.IsTitle i ↔ f.title? = some i := by
  refine ⟨fun ⟨q, g, hg, htitle⟩ => ?_, fun h => ⟨p, f, hf, h⟩⟩
  cases (parent?_of_form? hns hg (Form.mem_children_of_title? htitle)).symm.trans hp
  cases hg.symm.trans hf
  exact htitle

theorem isMention_iff (hns : ns.WellFormed) {p : NodeId} {f : Form NodeId}
    (hp : ns.parent? i = some p) (hf : ns.form? p = some f) : ns.IsMention i ↔ i ∈ f.mentions := by
  refine ⟨fun ⟨q, g, hg, hmem⟩ => ?_, fun h => ⟨p, f, hf, h⟩⟩
  cases (parent?_of_form? hns hg (Form.mem_children_of_mentions hmem)).symm.trans hp
  cases hg.symm.trans hf
  exact hmem

/-! ## What the grammar puts where -/

section Suits

variable (ht : t.WellFormed) (hs : t.Suits ks {})
include ht hs

/-- Declarators stand in declarations only. -/
theorem exists_bindings_of_declarator {d : NodeId} {target : NodeId} {init : Option NodeId}
    (hf : (ofTree t).form? d = some (.declarator target init)) :
    ∃ q keyword ds, (ofTree t).form? q = some (.bindings keyword ds) ∧ d ∈ ds := by
  obtain ⟨n, hn, -⟩ := Option.map_eq_some_iff.1 hf
  obtain ⟨p, hp⟩ := exists_standsIn ht {} hn
  have htakes := (Bool.and_eq_true_iff.1 (hp.admits ht hs hf)).1
  have hslot : p.slot = .declarator := by
    generalize p.slot = slot at htakes
    cases slot <;> first | rfl | cases htakes
  rcases hp.cases_child with ⟨-, rfl⟩ | ⟨q, j, pq, form, -, hform, hj, rfl⟩
  · cases hslot
  · cases form with
    | bindings keyword ds => exact ⟨q, keyword, ds, hform, List.mem_of_getElem? hj⟩
    | _ =>
      simp only [Place.into, Slot.into] at hslot
      repeat' split at hslot
      all_goals cases hslot

/-- Arrows have no name. -/
theorem name_of_arrow {name : Option NodeId} {params : List NodeId} {body : NodeId}
    {traits : FunctionTraits}
    (hf : (ofTree t).form? i = some (.function .arrow name params body traits)) : name = none := by
  obtain ⟨n, hn, -⟩ := Option.map_eq_some_iff.1 hf
  obtain ⟨p, hp⟩ := exists_standsIn ht {} hn
  have hadmits := (Bool.and_eq_true_iff.1 (hp.admits ht hs hf)).2
  exact Option.isNone_iff_eq_none.1 hadmits

end Suits

end Nodes

end Syntax

namespace Binding

open Syntax.Nodes Scopes

/-! ## The way up -/

section Roles

variable {ns : Nodes} {id slot : NodeId} {name : String}

theorem role_of_holds {n : Nat} (hns : ns.WellFormed) (hslot : ns.IsBound slot)
    (hbare : ∀ n c e, ns.Holds slot n c → ns.form? c ≠ some (.parenthesized e))
    (h : ns.Holds slot n id) (hn : n < maxClimb) : role ns id = .binds := by
  obtain ⟨p, f, hf, hbound⟩ := hslot
  have hp := parent?_of_form? hns hf (Form.mem_children_of_mem_bound hbound)
  have hfuel : maxClimb = maxClimb - n - 1 + 1 + n := by omega
  rw [role, hfuel, roleWithin_of_holds hns h fun b e ha hb _ he => ?_]
  · exact roleWithin_of_bound hp hf hbound
  · obtain ⟨m, k, hm, -⟩ := h.split hns hb ha
    exact absurd he (hbare m b e hm)

/-- **Binders.** An identifier is found in a target that is bound exactly if it is classified as
binding, unless the pattern is deeper than the way up. -/
theorem role_binds_iff {t : Tree} (ht : t.WellFormed) (htargeted : (ofTree t).Targeted)
    (hdepth : (ofTree t).BindsWithin maxClimb) (hname : (ofTree t).identifier? id = some name) :
    role (ofTree t) id = .binds ↔ (ofTree t).Binds id := by
  have hns := wellFormed_ofTree ht
  constructor
  · intro h
    obtain ⟨slot, n, hslot, hn⟩ := exists_holds_of_binds hns h
    exact ⟨slot, hslot, (mem_bindingIds hns htargeted (hslot.not_isObjectItem hns)).2
      ⟨⟨n, hn⟩, name, hname⟩⟩
  · rintro ⟨slot, hslot, hmem⟩
    obtain ⟨⟨n, hn⟩, -⟩ := (mem_bindingIds hns htargeted (hslot.not_isObjectItem hns)).1 hmem
    exact role_of_holds hns hslot (fun _ _ e hc => hc.not_parenthesized ht hslot e) hn
      (hdepth slot n id name hslot hn hname)

/-- What is bound is the part of a target, or what a node binds. -/
theorem mem_targets_of_binds {p : NodeId} {f : Form NodeId} (hp : ns.parent? id = some p)
    (hf : ns.form? p = some f) (hmem : id ∈ f.children) (h : role ns id = .binds) :
    id ∈ f.bound ∨ id ∈ f.targets := by
  obtain ⟨k, hk⟩ := Nat.exists_eq_succ_of_ne_zero (show maxClimb ≠ 0 by decide)
  rw [role, hk] at h
  rcases roleWithin_cases hp hf hmem (by decide) h with ⟨h, -⟩ | ⟨-, h⟩ | ⟨h, -⟩
  · cases h
  · exact .inl h
  · exact .inr h

/-- What refers to a binding neither declares a name nor only mentions one. -/
theorem isReference_iff (hns : ns.WellFormed) : isReference ns id = true ↔
    role ns id ≠ .binds ∧ ¬ns.IsTitle id ∧ ¬ns.IsMention id := by
  cases hp : ns.parent? id with
  | none =>
    have htitle : ¬ns.IsTitle id := by
      rintro ⟨p, f, hf, h⟩
      cases (parent?_of_form? hns hf (Form.mem_children_of_title? h)).symm.trans hp
    have hmention : ¬ns.IsMention id := by
      rintro ⟨p, f, hf, h⟩
      cases (parent?_of_form? hns hf (Form.mem_children_of_mentions h)).symm.trans hp
    simp [isReference, hp, htitle, hmention]
  | some p =>
    obtain ⟨f, hf, hmem⟩ := exists_form?_of_parent? hns hp
    have hbinds := mt (mem_targets_of_binds hp hf hmem)
    rw [isTitle_iff hns hp hf, isMention_iff hns hp hf, isReference, hp, Option.bind_some, hf]
    cases f with
    | member object key computed optional =>
      cases computed <;> simp_all [Form.title?, Form.mentions, Form.bound, Form.targets, @eq_comm _ id]
    | property key value role traits =>
      cases h : traits.computed <;> simp_all [Form.title?, Form.mentions, @eq_comm _ id, and_comm]
    | method key value role isStatic computed =>
      cases computed <;> simp_all [Form.title?, Form.mentions, @eq_comm _ id, and_comm]
    | field key value isStatic computed =>
      cases computed <;> simp_all [Form.title?, Form.mentions, @eq_comm _ id, and_comm]
    | labeled label body => simp [Form.title?, Form.mentions, @eq_comm _ id, and_comm]
    | jump jump label =>
      have hlabel : id ∈ (Form.jump jump label).mentions := hmem
      simp [hlabel]
    | function place title params body traits => simp [Form.title?, Form.mentions, and_comm]
    | classBody place title heritage members => simp [Form.title?, Form.mentions, and_comm]
    | _ => simp [Form.title?, Form.mentions]

end Roles

/-! ## The way down -/

section Sites

variable {u : CompilationUnit} {globals : List String} {s : Scopes} {table : Array ScopeId}
  {id : NodeId} {name : String} {a : Site}

/-- A site has a scope that has its name, which belongs to a node around its place. -/
theorem Layout.exists_declaration {done : List Site} (h : Layout u globals s table done)
    (hns : u.nodes.WellFormed) (hroot : u.nodes.Rooted) (ha : a ∈ done) :
    ∃ x n, s.node? (some x) = some n ∧ u.nodes.Inside n a.place ∧
      (s.declaration? (some x) a.name).isSome = true := by
  obtain ⟨form, hf⟩ := h.exists_form (Array.getElem?_eq_getElem (h.placed a ha))
  obtain ⟨n, hn⟩ : ∃ n, a.home? u = some n := by
    unfold Site.home?
    split
    · exact exists_hoister hns hroot hf
    · exact exists_opener hns hroot hf
  obtain ⟨x, hx⟩ : ∃ x, table[n]? = some x :=
    ⟨_, Array.getElem?_eq_getElem (h.lt_of_home? hns ha hn)⟩
  have hnode : s.node? (some x) = some n :=
    (h.opener hx).trans (opener?_of_opens (Site.opens_of_home? hn))
  refine ⟨x, n, hnode, Site.inside_of_home? hn, ?_⟩
  rw [h.isSome_declaration? hnode, List.find?_isSome]
  exact ⟨a, ha, Site.isAt_iff.2 ⟨rfl, hn⟩⟩

/-- What a node declares outside itself is declared around it. -/
theorem inside_outer (hroot : u.nodes.Rooted) {i : NodeId} {form : Form NodeId}
    (hf : u.nodes.form? i = some form) (hnot : ∀ statements comments, form ≠ .program statements comments) :
    u.nodes.Inside ((u.nodes.parent? i).getD Nodes.root) i := by
  cases hp : u.nodes.parent? i with
  | none =>
    obtain ⟨statements, comments, h⟩ := hroot hf hp
    exact absurd h (hnot statements comments)
  | some p => exact .of_parent hp

section Suits

variable {t : Tree} {ks : List Token.Lexeme} (hnodes : u.nodes = .ofTree t) (ht : t.WellFormed)
  (hs : t.Suits ks {}) (hroot : u.nodes.Rooted) (hname : u.nodes.identifier? id = some name)
include hnodes ht hs hroot hname

theorem exists_site_of_binds (h : u.nodes.Binds id) :
    ∃ a ∈ sites u, a.name = name ∧ u.nodes.Inside a.place id := by
  have hns : u.nodes.WellFormed := hnodes ▸ wellFormed_ofTree ht
  obtain ⟨slot, ⟨p, f, hf, hbound⟩, hmem⟩ := h
  have hin : u.nodes.Inside p id :=
    .trans (.of_parent (parent?_of_form? hns hf (Form.mem_children_of_mem_bound hbound)))
      (inside_of_mem_bindingIds hns hmem)
  -- The site of an identifier that is collected at a place.
  have hsite (place : NodeId) (kind : BindingKind) (idents : List NodeId) (hid : id ∈ idents) :
      (⟨kind, name, id, place⟩ : Site) ∈ sitesOf u place kind idents :=
    mem_sitesOf.2 ⟨rfl, rfl, hid, hname⟩
  cases f with
  | declarator target init =>
    obtain rfl := List.mem_singleton.1 hbound
    obtain ⟨q, keyword, ds, hq, hd⟩ := exists_bindings_of_declarator ht hs (hnodes ▸ hf)
    rw [← hnodes] at hq
    have hp : u.nodes.parent? p = some q := parent?_of_form? hns hq hd
    refine ⟨⟨bindingKind keyword, name, id, _⟩,
      mem_sites.2 ⟨q, _, hq, .inl (List.mem_flatMap.2 ⟨p, hd, ?_⟩)⟩, rfl,
      (inside_outer hroot hq nofun).trans (.trans (.of_parent hp) hin)⟩
    rw [declaratorSites, hf]
    exact hsite _ _ _ hmem
  | function place title params body traits =>
    have hparam := hsite p .param (params.flatMap u.nodes.bindingIds)
      (List.mem_flatMap.2 ⟨slot, hbound, hmem⟩)
    refine ⟨⟨.param, name, id, p⟩, mem_sites.2 ⟨p, _, hf, .inr ?_⟩, rfl, hin⟩
    cases place with
    | «expression» => exact List.mem_append_left _ hparam
    | _ => exact hparam
  | catchClause param body =>
    obtain rfl := Option.mem_toList.1 hbound
    exact ⟨_, mem_sites.2 ⟨p, _, hf, .inr (hsite p .caught _ hmem)⟩, rfl, hin⟩
  | _ => cases hbound

theorem exists_site_of_isTitle (h : u.nodes.IsTitle id) :
    ∃ a ∈ sites u, a.name = name ∧ u.nodes.Inside a.place id := by
  have hns : u.nodes.WellFormed := hnodes ▸ wellFormed_ofTree ht
  obtain ⟨p, f, hf, htitle⟩ := h
  have hin : u.nodes.Inside p id :=
    .of_parent (parent?_of_form? hns hf (Form.mem_children_of_title? htitle))
  have hsite (place : NodeId) (kind : BindingKind) :
      (⟨kind, name, id, place⟩ : Site) ∈ sitesOf u place kind (some id).toList :=
    mem_sitesOf.2 ⟨rfl, rfl, List.mem_cons_self, hname⟩
  cases f with
  | function place title params body traits =>
    obtain rfl : title = some id := htitle
    cases place with
    | declaration =>
      exact ⟨_, mem_sites.2 ⟨p, _, hf, .inl (hsite _ _)⟩, rfl, (inside_outer hroot hf nofun).trans hin⟩
    | «expression» =>
      exact ⟨_, mem_sites.2 ⟨p, _, hf, .inr (List.mem_append_right _ (hsite _ _))⟩, rfl, hin⟩
    | arrow => cases name_of_arrow ht hs (hnodes ▸ hf)
  | classBody place title heritage members =>
    obtain rfl : title = some id := htitle
    cases place with
    | declaration =>
      exact ⟨_, mem_sites.2 ⟨p, _, hf, .inl (hsite _ _)⟩, rfl, (inside_outer hroot hf nofun).trans hin⟩
    | «expression» => exact ⟨_, mem_sites.2 ⟨p, _, hf, .inr (hsite _ _)⟩, rfl, hin⟩
  | _ => cases htitle

/-- What declares a name is a site, at a place around it. -/
theorem exists_site_of_declares (h : u.nodes.Declares id) :
    ∃ a ∈ sites u, a.name = name ∧ u.nodes.Inside a.place id :=
  h.elim (exists_site_of_binds hnodes ht hs hroot hname)
    (exists_site_of_isTitle hnodes ht hs hroot hname)

end Suits

end Sites

end Binding

open Binding

/-- Names that are declared, mere mentions and references part the identifiers of a bound unit. -/
structure Bound.Parted (b : Bound) : Prop where
  /-- The ways down and up agree. -/
  binds : ∀ id name, b.nodes.identifier? id = some name →
    (b.nodes.Binds id ↔ role b.nodes id = .binds)
  /-- A declared name is one of a scope around it. -/
  declared : ∀ id name, b.nodes.identifier? id = some name → b.nodes.Declares id →
    ∃ x n, b.scopes.node? (some x) = some n ∧ b.nodes.Inside n id ∧
      (b.scopes.declaration? (some x) name).isSome = true
  /-- A reference is an identifier of the third sort. -/
  apart : ∀ id ∈ b.references, (∃ name, b.nodes.identifier? id = some name) ∧
    ¬b.nodes.Declares id ∧ ¬b.nodes.IsMention id
  once : ∀ id name, b.nodes.identifier? id = some name → ¬b.nodes.Declares id →
    ¬b.nodes.IsMention id → b.references.count id = 1
  ordered : b.references.Pairwise fun i j => b.nodes.start i < b.nodes.start j

section Bind

variable {u : CompilationUnit} {t : Tree} {b : Bound}

/-- **Names and references.** In a parsed unit that binds, and whose patterns are not too deep, what
is found in the targets of declarators, functions and `catch` clauses is what is classified as
binding. Such an identifier, and the name of a function or a class, is declared in a scope around it
and is no reference; any other identifier that names no property, member or label is a reference,
once. References come in the order of the source. -/
theorem bind_partitions (hparse : Grammar.parse u.source = .ok t) (hnodes : u.nodes = .ofTree t)
    (hb : bind u = .ok b) (hdepth : u.nodes.BindsWithin maxClimb) : b.Parted := by
  have ht := Grammar.parse_wellFormed hparse
  obtain ⟨ks, -, hs⟩ := Grammar.parse_suits hparse
  have hns : u.nodes.WellFormed := hnodes ▸ Nodes.wellFormed_ofTree ht
  have hroot : u.nodes.Rooted := hnodes ▸ Grammar.parse_rooted hparse
  have htargeted := Nodes.targeted_ofTree ht (Grammar.parse_within hparse)
  have hbnodes : b.nodes = u.nodes := congrArg CompilationUnit.nodes (bind_unit hb)
  have hbinds {id : NodeId} {name : String} (hname : u.nodes.identifier? id = some name) :
      role u.nodes id = .binds ↔ u.nodes.Binds id := by
    rw [hnodes] at hdepth hname ⊢
    exact role_binds_iff ht htargeted hdepth hname
  obtain ⟨hsorted, hmem⟩ := bind_references hb
  have href {id : NodeId} {name : String} (hname : u.nodes.identifier? id = some name) :
      id ∈ b.references ↔ ¬u.nodes.Declares id ∧ ¬u.nodes.IsMention id := by
    rw [hmem, and_iff_right ⟨name, hname⟩, isReference_iff hns, ne_eq, hbinds hname, Nodes.Declares,
      not_or, and_assoc]
  refine ⟨?_, ?_, ?_, ?_, references_ordered ht (hnodes ▸ hroot) hnodes hb⟩ <;> rw [hbnodes]
  · exact fun id name hname => (hbinds hname).symm
  · intro id name hname hdeclares
    obtain ⟨a, ha, rfl, hin⟩ := exists_site_of_declares hnodes ht hs hroot hname hdeclares
    obtain ⟨x, n, hnode, hplace, hsome⟩ :=
      (bind_layout hns hroot hb).exists_declaration hns hroot ha
    exact ⟨x, n, hnode, hplace.trans hin, hsome⟩
  · intro id hid
    obtain ⟨name, hname⟩ := ((hmem id).1 hid).1
    exact ⟨⟨name, hname⟩, (href hname).1 hid⟩
  · intro id name hname hdeclares hmention
    exact List.count_eq_one_of_mem (hsorted.imp Nat.ne_of_lt) ((href hname).2 ⟨hdeclares, hmention⟩)

/-- Names in a pattern with a default, a computed key and a rest, and names of all other sorts. -/
def manyNames : List Char :=
  "function f(\x7ba, [a]: b = a, ...c\x7d, d) \x7b l: for (;;) break l; c.d(\x7bd\x7d); \x7d".toList

theorem bind_partitions_manyNames : ∃ t b, Grammar.parse manyNames = .ok t ∧
    bind ⟨"", manyNames, .ofTree t, {}⟩ = .ok b ∧ (Nodes.ofTree t).BindsWithin maxClimb ∧
    b.Parted ∧ b.references = [8, 11, 24, 29] ∧ (Nodes.ofTree t).Binds 10 ∧
    role (.ofTree t) 10 = .binds := by
  have hrun : okAnd (Grammar.parse manyNames) (fun t =>
      okAnd (bind ⟨"", manyNames, .ofTree t, {}⟩) fun b =>
        decide ((Nodes.ofTree t).size ≤ maxClimb ∧ b.references = [8, 11, 24, 29] ∧
          (Nodes.ofTree t).identifier? 10 = some "b" ∧ role (.ofTree t) 10 = .binds)) = true := by
    decide +kernel
  obtain ⟨t, hparse, hrun⟩ := okAnd_iff.1 hrun
  obtain ⟨b, hb, hrun⟩ := okAnd_iff.1 hrun
  obtain ⟨hsize, hreferences, hname, hrole⟩ := of_decide_eq_true hrun
  have hdepth := Nodes.bindsWithin_of_size_le
    (Nodes.wellFormed_ofTree (Grammar.parse_wellFormed hparse)) hsize
  have hparted := bind_partitions (u := ⟨"", manyNames, .ofTree t, {}⟩) hparse rfl hb hdepth
  have hnodes : b.nodes = .ofTree t := congrArg CompilationUnit.nodes (bind_unit hb)
  refine ⟨t, b, hparse, hb, hdepth, hparted, hreferences, ?_, hrole⟩
  exact hnodes ▸ (hparted.binds 10 "b" (hnodes ▸ hname)).2 (hnodes ▸ hrole)

end Bind

end LoopClosure
