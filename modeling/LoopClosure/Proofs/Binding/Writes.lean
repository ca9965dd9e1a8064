import LoopClosure.Proofs.Binding.Targets
import LoopClosure.Proofs.Grammar.TooDeep
import LoopClosure.Proofs.Syntax.Reach

/-!
# Which identifiers are written

An identifier is classified from below: the climb from it through patterns and parentheses comes to a
node that writes, or not. A target tells from above which identifiers it binds (`bindingIds`). The
two agree, but for identifiers in parentheses inside a pattern (`role_writes_iff`): those are taken
for reads.
-/

namespace LoopClosure

open Syntax

namespace Syntax.Nodes

/-- The identifier stands in parentheses inside the pattern `slot`: going down from the target,
parentheses come behind something else. -/
def Enclosed (ns : Nodes) (slot id : NodeId) : Prop :=
  ∃ p q e, ns.form? p = some (.parenthesized e) ∧ ns.parent? p = some q ∧
    (∀ e', ns.form? q ≠ some (.parenthesized e')) ∧ ns.Inside slot q ∧ ns.Inside p id

end Syntax.Nodes

namespace Binding

open Syntax.Nodes

variable {ns : Nodes} {a b c p q : NodeId} {k m n : Nat} {f : Form NodeId}

attribute [local simp] roleWithin isWrittenWithin

/-! ## One step up -/

section Step

variable (hp : ns.parent? c = some p) (hf : ns.form? p = some f)
include hp hf

/-- A part of a target that no parentheses hold takes the role of the target. -/
theorem roleWithin_succ (hc : c ∈ f.targets)
    (hobject : f.isProperty = true → ns.IsObjectItem p)
    (hparens : ∀ e, f = .parenthesized e → isWritten ns p = true) :
    roleWithin ns (k + 1) c = roleWithin ns k p := by
  cases f with
  | arrayPattern elements => simp [hp, hf]
  | objectPattern properties => simp [hp, hf]
  | rest argument => simp [hp, hf]
  | property key value role traits =>
    obtain rfl := List.mem_singleton.1 hc
    obtain ⟨q, properties, hq, hqf⟩ := hobject rfl
    simp [hp, hf, hq, hqf]
  | assignmentPattern left right =>
    obtain rfl := List.mem_singleton.1 hc
    simp [hp, hf]
  | parenthesized e => simp [hp, hf, hparens e rfl]
  | _ => cases hc

/-- In parentheses that are no whole target nothing is written. -/
theorem roleWithin_of_not_isWritten {e : NodeId} (hparens : f = .parenthesized e)
    (hwritten : isWritten ns p = false) : roleWithin ns k c = .reads := by
  subst hparens
  cases k with
  | zero => rfl
  | succ k => simp [hp, hf, hwritten]

theorem roleWithin_of_assigned (hassigned : f.assigned? = some c) :
    roleWithin ns (k + 1) c = .writes := by
  cases f with
  | assignment op left right => simp [hp, hf, Option.some.inj hassigned]
  | update op before argument => simp [hp, hf, Option.some.inj hassigned]
  | forEach each left right body => simp [hp, hf, Option.some.inj hassigned]
  | _ => cases hassigned

theorem roleWithin_of_bound (hbound : c ∈ f.bound) : roleWithin ns (k + 1) c = .binds := by
  cases f with
  | declarator target init =>
    obtain rfl := List.mem_singleton.1 hbound
    simp [hp, hf]
  | function place name params body traits => simp [hp, hf, show c ∈ params from hbound]
  | catchClause param body => simp [hp, hf, Option.mem_toList.1 hbound]
  | _ => cases hbound

/-- What is written or bound is so by the node around it, or through it. -/
theorem roleWithin_cases {r : Role} (hmem : c ∈ f.children) (hr : r ≠ .reads)
    (h : roleWithin ns (k + 1) c = r) : r = .writes ∧ f.assigned? = some c ∨
      r = .binds ∧ c ∈ f.bound ∨
      c ∈ f.targets ∧ (f.isProperty = true → ns.IsObjectItem p) ∧ roleWithin ns k p = r := by
  rw [roleWithin, hp] at h
  dsimp only at h
  rw [hf] at h
  cases f with
  | arrayPattern elements => exact .inr (.inr ⟨hmem, nofun, h⟩)
  | objectPattern properties => exact .inr (.inr ⟨hmem, nofun, h⟩)
  | rest argument => exact .inr (.inr ⟨hmem, nofun, h⟩)
  | property key value role traits =>
    dsimp only at h
    split at h
    · next hvalue =>
      split at h
      · next properties hq =>
        obtain ⟨q, hq, hqf⟩ := Option.bind_eq_some_iff.1 hq
        exact .inr (.inr ⟨List.mem_singleton.2 hvalue.symm, fun _ => ⟨q, properties, hq, hqf⟩, h⟩)
      · exact absurd h.symm hr
    · exact absurd h.symm hr
  | assignmentPattern left right =>
    dsimp only at h
    split at h
    · next hleft => exact .inr (.inr ⟨List.mem_singleton.2 hleft.symm, nofun, h⟩)
    · exact absurd h.symm hr
  | parenthesized e =>
    dsimp only at h
    split at h
    · exact .inr (.inr ⟨hmem, nofun, h⟩)
    · exact absurd h.symm hr
  | assignment op left right =>
    dsimp only at h
    split at h
    · next hleft => exact .inl ⟨h.symm, congrArg some hleft⟩
    · exact absurd h.symm hr
  | update op before argument =>
    dsimp only at h
    split at h
    · next hargument => exact .inl ⟨h.symm, congrArg some hargument⟩
    · exact absurd h.symm hr
  | forEach each left right body =>
    dsimp only at h
    split at h
    · next hleft => exact .inl ⟨h.symm, congrArg some hleft⟩
    · exact absurd h.symm hr
  | declarator target init =>
    dsimp only at h
    split at h
    · next htarget => exact .inr (.inl ⟨h.symm, List.mem_singleton.2 htarget.symm⟩)
    · exact absurd h.symm hr
  | catchClause param body =>
    dsimp only at h
    split at h
    · next hparam => exact .inr (.inl ⟨h.symm, Option.mem_toList.2 hparam⟩)
    · exact absurd h.symm hr
  | function place name params body traits =>
    dsimp only at h
    split at h
    · next hparam => exact .inr (.inl ⟨h.symm, hparam⟩)
    · exact absurd h.symm hr
  | _ => exact absurd h.symm hr

end Step

/-! ## Climbing -/

/-- The parts of a target take its role, if all parentheses on the way hold the whole target. -/
theorem roleWithin_of_holds (hns : ns.WellFormed) (h : ns.Holds a n c)
    (hparens : ∀ b e, ns.Inside a b → ns.Inside b c → b ≠ c → ns.form? b = some (.parenthesized e) →
      isWritten ns b = true) : roleWithin ns (k + n) c = roleWithin ns k a := by
  induction h with
  | refl => rfl
  | @step n b c f h hf hc hobject ih =>
    have hp := parent?_of_form? hns hf (Form.mem_children_of_mem_targets hc)
    have hb : ns.Inside b c := .of_parent hp
    have hne : b ≠ c := Nat.ne_of_lt (hns.parent_lt hp)
    rw [← Nat.add_assoc, roleWithin_succ hp hf hc hobject fun e he =>
      hparens b e (h.inside hns) hb hne (he ▸ hf)]
    refine ih fun b' e ha hb' _ he => hparens b' e ha (hb'.trans hb) ?_ he
    rintro rfl
    exact hne (hb.antisymm hns hb')

/-- In parentheses that do not hold the whole target nothing is written, however deep. -/
theorem roleWithin_of_holds_parens (hns : ns.WellFormed) (h : ns.Holds b n c) (hne : b ≠ c)
    {e : NodeId} (he : ns.form? b = some (.parenthesized e)) (hwritten : isWritten ns b = false) :
    roleWithin ns k c = .reads := by
  induction h generalizing k with
  | refl => exact absurd rfl hne
  | @step n d c f h hf hc hobject ih =>
    have hp := parent?_of_form? hns hf (Form.mem_children_of_mem_targets hc)
    by_cases hbd : b = d
    · subst hbd
      cases he.symm.trans hf
      exact roleWithin_of_not_isWritten hp hf rfl hwritten
    · cases k with
      | zero => rfl
      | succ k =>
        cases hw : isWritten ns d with
        | true => rw [roleWithin_succ hp hf hc hobject fun _ _ => hw, ih hbd]
        | false =>
          by_cases hparens : ∃ e', f = .parenthesized e'
          · obtain ⟨e', he'⟩ := hparens
            exact roleWithin_of_not_isWritten hp hf he' hw
          · rw [roleWithin_succ hp hf hc hobject fun e' he' => absurd ⟨e', he'⟩ hparens, ih hbd]

/-- Whatever is written or bound is a part of a target that a node writes or binds. -/
theorem exists_holds_of_roleWithin {r : Role} (hns : ns.WellFormed) (hr : r ≠ .reads)
    (h : roleWithin ns k c = r) : ∃ a n, (r = .writes ∧ ns.IsAssigned a ∨ r = .binds ∧ ns.IsBound a) ∧
      ns.Holds a n c := by
  induction k generalizing c with
  | zero => exact absurd h.symm hr
  | succ k ih =>
    cases hp : ns.parent? c with
    | none =>
      rw [roleWithin, hp] at h
      exact absurd h.symm hr
    | some p =>
      obtain ⟨f, hf, hmem⟩ := exists_form?_of_parent? hns hp
      rcases roleWithin_cases hp hf hmem hr h with
        ⟨rfl, hassigned⟩ | ⟨rfl, hbound⟩ | ⟨hc, hobject, h⟩
      · exact ⟨c, 0, .inl ⟨rfl, p, f, hf, hassigned⟩, .refl⟩
      · exact ⟨c, 0, .inr ⟨rfl, p, f, hf, hbound⟩, .refl⟩
      · obtain ⟨a, n, ha, hn⟩ := ih h
        exact ⟨a, n + 1, ha, .step hn hf hc hobject⟩

theorem exists_holds_of_writes (hns : ns.WellFormed) (h : roleWithin ns k c = .writes) :
    ∃ a n, ns.IsAssigned a ∧ ns.Holds a n c := by
  obtain ⟨a, n, ⟨-, ha⟩ | ⟨hr, -⟩, hn⟩ := exists_holds_of_roleWithin hns (by decide) h
  · exact ⟨a, n, ha, hn⟩
  · cases hr

theorem exists_holds_of_binds (hns : ns.WellFormed) (h : roleWithin ns k c = .binds) :
    ∃ a n, ns.IsBound a ∧ ns.Holds a n c := by
  obtain ⟨a, n, ⟨hr, -⟩ | ⟨-, ha⟩, hn⟩ := exists_holds_of_roleWithin hns (by decide) h
  · cases hr
  · exact ⟨a, n, ha, hn⟩

/-! ## Parentheses -/

theorem isWrittenWithin_of_assigned (hns : ns.WellFormed) (ha : ns.IsAssigned a) :
    isWrittenWithin ns (k + 1) a = true := by
  obtain ⟨p, f, hf, hassigned⟩ := ha
  have hp := parent?_of_form? hns hf (Form.mem_children_of_assigned? hassigned)
  cases f with
  | assignment op left right => simp [hp, hf, Option.some.inj hassigned]
  | update op before argument => simp [hp, hf, Option.some.inj hassigned]
  | forEach each left right body => simp [hp, hf, Option.some.inj hassigned]
  | _ => cases hassigned

theorem isWrittenWithin_of_parenthesized {e : NodeId} (hp : ns.parent? c = some p)
    (hf : ns.form? p = some (.parenthesized e)) :
    isWrittenWithin ns (k + 1) c = isWrittenWithin ns k p := by
  simp [hp, hf]

theorem isWrittenWithin_of_targets (hp : ns.parent? c = some p) (hf : ns.form? p = some f)
    (hc : c ∈ f.targets) (hparens : ∀ e, f ≠ .parenthesized e) :
    isWrittenWithin ns (k + 1) c = false := by
  cases f with
  | parenthesized e => exact absurd rfl (hparens e)
  | arrayPattern elements => simp [hp, hf]
  | objectPattern properties => simp [hp, hf]
  | property key value role traits => simp [hp, hf]
  | assignmentPattern left right => simp [hp, hf]
  | rest argument => simp [hp, hf]
  | _ => cases hc

/-- Parentheses around a part of a target hold all of it exactly if nothing else stands around
them. -/
theorem isWritten_iff (hns : ns.WellFormed) (ht : ns.Targeted) (ha : ns.IsAssigned a)
    (h : ns.Holds a n b) {e : NodeId} (he : ns.form? b = some (.parenthesized e)) :
    isWritten ns b = true ↔ ¬ns.Enclosed a b := by
  have hwithin : ∀ {n b}, ns.Holds a n b → ∀ e k, ns.form? b = some (.parenthesized e) →
      (isWrittenWithin ns (k + 1 + n) b = true ↔ ¬ns.Enclosed a b) := by
    intro n b h
    induction h with
    | refl =>
      intro e k _
      refine iff_of_true (isWrittenWithin_of_assigned hns ha) ?_
      rintro ⟨p, q, e', -, hp, -, hq, hi⟩
      have hlt := hns.parent_lt hp
      exact absurd (Nat.le_trans (hi.le hns) (hq.le hns)) (Nat.not_le_of_lt hlt)
    | @step n d b f h hf hb hobject ih =>
      intro e k he
      have hp := parent?_of_form? hns hf (Form.mem_children_of_mem_targets hb)
      rw [← Nat.add_assoc]
      by_cases hparens : ∃ e', f = .parenthesized e'
      · obtain ⟨e', rfl⟩ := hparens
        rw [isWrittenWithin_of_parenthesized hp hf, ih e' k hf, not_iff_not]
        constructor
        · rintro ⟨p, q, e'', hpf, hq, hqf, hi, hpd⟩
          exact ⟨p, q, e'', hpf, hq, hqf, hi, hpd.trans (.of_parent hp)⟩
        · rintro ⟨p, q, e'', hpf, hq, hqf, hi, hpb⟩
          refine ⟨p, q, e'', hpf, hq, hqf, hi, hpb.parent ?_ hp⟩
          rintro rfl
          cases hp.symm.trans hq
          exact hqf e' hf
      · rw [isWrittenWithin_of_targets hp hf hb fun e' he' => hparens ⟨e', he'⟩]
        refine iff_of_false Bool.false_ne_true (not_not.2
          ⟨b, d, e, he, hp, fun e' he' => ?_, h.inside hns, .refl⟩)
        cases hf.symm.trans he'
        exact hparens ⟨e', rfl⟩
  have hlt := ht.lt ha h
  have hfuel : maxClimb = maxClimb - n - 1 + 1 + n := by omega
  rw [isWritten, hfuel]
  exact hwithin h e _ he

/-- **Writes.** An identifier is written exactly if a target that a node writes binds it, and it
stands in no parentheses inside the pattern. -/
theorem role_writes_iff (hns : ns.WellFormed) (ht : ns.Targeted) {id : NodeId} {name : String}
    (hname : ns.identifier? id = some name) : role ns id = .writes ↔
      ∃ slot, ns.IsAssigned slot ∧ id ∈ ns.bindingIds slot ∧ ¬ns.Enclosed slot id := by
  constructor
  · intro h
    obtain ⟨slot, n, hslot, hn⟩ := exists_holds_of_writes hns h
    refine ⟨slot, hslot, (mem_bindingIds hns ht (hslot.not_isObjectItem hns)).2 ⟨⟨n, hn⟩, name, hname⟩, ?_⟩
    rintro ⟨p, q, e, hpf, hq, hqf, hi, hp⟩
    have hne : p ≠ id := by
      rintro rfl
      cases hpf.symm.trans (identifier?_eq_some_iff.1 hname)
    obtain ⟨i, j, hpi, hpj⟩ := hn.split hns hp (.up hq hi)
    have hwritten : isWritten ns p = false := by
      rw [← Bool.not_eq_true, isWritten_iff hns ht hslot hpi hpf, not_not]
      exact ⟨p, q, e, hpf, hq, hqf, hi, .refl⟩
    rw [role, roleWithin_of_holds_parens hns hpj hne hpf hwritten] at h
    cases h
  · rintro ⟨slot, hslot, hid, hnot⟩
    obtain ⟨⟨n, hn⟩, -⟩ := (mem_bindingIds hns ht (hslot.not_isObjectItem hns)).1 hid
    obtain ⟨p, f, hf, hassigned⟩ := hslot
    have hp := parent?_of_form? hns hf (Form.mem_children_of_assigned? hassigned)
    have hslot : ns.IsAssigned slot := ⟨p, f, hf, hassigned⟩
    have hlt := ht.lt hslot hn
    have hfuel : maxClimb = maxClimb - n - 1 + 1 + n := by omega
    rw [role, hfuel, roleWithin_of_holds hns hn fun b e ha hb hne he => ?_]
    · exact roleWithin_of_assigned hp hf hassigned
    · obtain ⟨i, j, hi, hj⟩ := hn.split hns hb ha
      rw [isWritten_iff hns ht hslot hi he]
      rintro ⟨p', q, e', hpf, hq, hqf, hi', hpb⟩
      exact hnot ⟨p', q, e', hpf, hq, hqf, hi', hpb.trans hb⟩

/-- What is written refers to a binding. -/
theorem isReference_of_writes (hns : ns.WellFormed) (h : role ns c = .writes) :
    isReference ns c = true := by
  obtain ⟨n, hn⟩ := Nat.exists_eq_succ_of_ne_zero (show maxClimb ≠ 0 by decide)
  cases hp : ns.parent? c with
  | none =>
    rw [role, hn, roleWithin, hp] at h
    cases h
  | some p =>
    obtain ⟨f, hf, hmem⟩ := exists_form?_of_parent? hns hp
    have hnot : decide (role ns c ≠ .binds) = true := by rw [h]; decide
    rw [role, hn] at h
    have hcase : f.assigned? = some c ∨ c ∈ f.targets := by
      rcases roleWithin_cases hp hf hmem (by decide) h with ⟨-, h⟩ | ⟨h, -⟩ | ⟨h, -⟩
      · exact .inl h
      · cases h
      · exact .inr h
    rw [isReference, hp, Option.bind_some, hf]
    cases f with
    | property key value place traits =>
      -- The value of a property is another node than its key.
      obtain rfl := List.mem_singleton.1 (hcase.resolve_left (Option.some_ne_none c).symm)
      have hnodup := hns.nodup p
      rw [children_of_form? hf] at hnodup
      have hne : key ≠ c := fun e => (List.nodup_cons.1 hnodup).1 (e ▸ List.mem_cons_self)
      simp [hne, hnot]
    | _ =>
      first
      | exact hnot
      | rcases hcase with h | h <;> cases h

/-! ## Constants -/

variable {u : CompilationUnit} {G : Grants} {s t : Scopes} {build : Build} {r r' : Resolving}

theorem Steps.binder_eq (h : Steps u .none s t) (x : ScopeId) (name : String) :
    (t.declaration? (some x) name).map Declaration.binder =
      (s.declaration? (some x) name).map Declaration.binder := by
  induction h with
  | refl => rfl
  | tail _ hstep ih => exact (hstep.binder_eq x name).trans ih

theorem Steps.declarationKind? (h : Steps u .none s t) (x : ScopeId) (name : String) :
    (t.declaration? (some x) name).map (·.kind) = (s.declaration? (some x) name).map (·.kind) := by
  have := congrArg (Option.map Prod.fst) (h.binder_eq x name)
  rwa [Option.map_map, Option.map_map] at this

/-- What is written resolves to no constant. -/
def AllWritable (u : CompilationUnit) (build : Build) (r : Resolving) : Prop :=
  ∀ (id : NodeId) (e : Resolution) (name : String), id ∈ build.writes →
    r.resolved[id]? = some (some e) → u.nodes.identifier? id = some name →
    (r.scopes.declaration? (some e.scope) name).map (·.kind) ≠ some .const

theorem AllWritable.resolveReference {ident : NodeId} (hr : AllWritable u build r)
    (h : resolveReference u build r ident = .ok r') : AllWritable u build r' := by
  intro id e name hw he hname
  rw [(resolveReference_steps h).declarationKind?]
  rcases resolveReference_cases h with ⟨rfl, -⟩ | ⟨name', e', hres⟩
  · exact hr id e name hw he hname
  · rw [hres.resolved, Array.getElem?_setIfInBounds] at he
    split at he
    · next hid =>
      subst id
      split at he
      · cases he
        cases hname.symm.trans hres.named
        intro hconst
        obtain ⟨d, hd, hconst⟩ := Option.map_eq_some_iff.1 hconst
        exact hres.writable hw d hd hconst
      · cases he
    · exact hr id e name hw he hname

theorem AllWritable.resolveAll {idents : List NodeId} (hr : AllWritable u build r)
    (h : resolveAll u build r idents = .ok r') : AllWritable u build r' := by
  induction idents generalizing r with
  | nil =>
    cases h
    exact hr
  | cons ident idents ih =>
    obtain ⟨r₁, h₁, h⟩ := bind_eq_ok.1 h
    exact ih (hr.resolveReference h₁) h

end Binding

/-- The kind of the binding that a reference resolves to. -/
def Bound.kindOf? (b : Bound) (id : NodeId) : Option BindingKind :=
  (b.resolution? id).bind fun e => (b.nodes.identifier? id).bind fun name =>
    (b.scopes.declaration? (some e.scope) name).map (·.kind)

section Bind

open Binding

variable {u : CompilationUnit} {t : Tree} {b : Bound}

/-- What a bound unit writes resolves to no constant. -/
theorem bind_writable (hns : u.nodes.WellFormed) (hroot : u.nodes.Rooted) (hb : bind u = .ok b)
    {id : NodeId} (hw : id ∈ b.writes) : b.kindOf? id ≠ some .const := by
  obtain ⟨build, globals, r, -, hr, hscopes, -, hresolved, hwrites⟩ := bind_stages hns hroot hb
  have hinit : AllWritable u build ⟨globals, .replicate u.nodes.size none⟩ := by
    intro id e name _ he
    rw [Array.getElem?_replicate] at he
    split at he <;> cases he
  intro hconst
  obtain ⟨e, he, hconst⟩ := Option.bind_eq_some_iff.1 hconst
  obtain ⟨name, hname, hconst⟩ := Option.bind_eq_some_iff.1 hconst
  rw [Bound.resolution?, hresolved] at he
  rw [Bound.nodes, bind_unit hb] at hname
  rw [hscopes] at hconst
  exact hinit.resolveAll hr id e name (hwrites ▸ hw) (Option.join_eq_some_iff.1 he) hname hconst

/-- **Writes.** What a parsed unit that binds writes are the identifiers that the targets of its
assignments, updates and loops bind, but for those in parentheses inside a pattern; and none of them
resolves to a constant. -/
theorem bind_writes_iff (hparse : Grammar.parse u.source = .ok t) (hnodes : u.nodes = .ofTree t)
    (hb : bind u = .ok b) (id : NodeId) :
    (id ∈ b.writes ↔ ∃ slot, u.nodes.IsAssigned slot ∧ id ∈ u.nodes.bindingIds slot ∧
      ¬u.nodes.Enclosed slot id) ∧
    (id ∈ b.writes → b.kindOf? id ≠ some .const) := by
  have hns : u.nodes.WellFormed :=
    hnodes ▸ Nodes.wellFormed_ofTree (Grammar.parse_wellFormed hparse)
  have hroot : u.nodes.Rooted := hnodes ▸ Grammar.parse_rooted hparse
  have ht : u.nodes.Targeted :=
    hnodes ▸ Nodes.targeted_ofTree (Grammar.parse_wellFormed hparse) (Grammar.parse_within hparse)
  obtain ⟨build, globals, r, hstaged, -, -, -, -, hwrites⟩ := bind_stages hns hroot hb
  refine ⟨?_, bind_writable hns hroot hb⟩
  rw [hwrites, ← Array.mem_toList_iff, hstaged.writes, List.mem_filter, hstaged.mem_references,
    decide_eq_true_eq]
  constructor
  · rintro ⟨⟨⟨name, hname⟩, -⟩, hrole⟩
    exact (role_writes_iff hns ht hname).1 hrole
  · rintro ⟨slot, hslot, hid, hnot⟩
    obtain ⟨-, name, hname⟩ := (Nodes.mem_bindingIds hns ht (hslot.not_isObjectItem hns)).1 hid
    have hrole := (role_writes_iff hns ht hname).2 ⟨slot, hslot, hid, hnot⟩
    exact ⟨⟨⟨name, hname⟩, isReference_of_writes hns hrole⟩, hrole⟩

/-- A pattern in a pattern, and parentheses around a whole target. -/
def swappedInPattern : List Char := "let x, y; [x, \x7ba: y = 1\x7d] = 0; ((x))++;".toList

theorem bind_writes_swappedInPattern : ∃ t b, Grammar.parse swappedInPattern = .ok t ∧
    bind ⟨"", swappedInPattern, .ofTree t, {}⟩ = .ok b ∧ b.writes = #[9, 14, 21] ∧
    ∀ id ∈ b.writes, b.kindOf? id ≠ some .const ∧ ∃ slot, (Nodes.ofTree t).IsAssigned slot ∧
      id ∈ (Nodes.ofTree t).bindingIds slot ∧ ¬(Nodes.ofTree t).Enclosed slot id := by
  have hrun : okAnd (Grammar.parse swappedInPattern) (fun t =>
      okAnd (bind ⟨"", swappedInPattern, .ofTree t, {}⟩) fun b =>
        decide (b.writes = #[9, 14, 21])) = true := by
    decide +kernel
  obtain ⟨t, hparse, hrun⟩ := okAnd_iff.1 hrun
  obtain ⟨b, hb, hrun⟩ := okAnd_iff.1 hrun
  have hwrites (id : NodeId) := bind_writes_iff (u := ⟨"", swappedInPattern, .ofTree t, {}⟩) hparse rfl
    hb id
  exact ⟨t, b, hparse, hb, of_decide_eq_true hrun, fun id hw =>
    ⟨(hwrites id).2 hw, (hwrites id).1.1 hw⟩⟩

/-- The constant is written through parentheses inside a pattern. -/
def constInParentheses : List Char := "const x = 1; [(x)] = [2];".toList

theorem bind_constInParentheses : ∃ t b slot id, Grammar.parse constInParentheses = .ok t ∧
    bind ⟨"", constInParentheses, .ofTree t, {}⟩ = .ok b ∧ (Nodes.ofTree t).IsAssigned slot ∧
    id ∈ (Nodes.ofTree t).bindingIds slot ∧ b.kindOf? id = some .const ∧ id ∉ b.writes := by
  have hrun : okAnd (Grammar.parse constInParentheses) (fun t =>
      okAnd (bind ⟨"", constInParentheses, .ofTree t, {}⟩) fun b =>
        decide (((Nodes.ofTree t).form? 6).bind (·.assigned?) = some 7 ∧
          9 ∈ (Nodes.ofTree t).bindingIds 7 ∧ b.kindOf? 9 = some .const ∧ 9 ∉ b.writes)) = true := by
    decide +kernel
  obtain ⟨t, hparse, hrun⟩ := okAnd_iff.1 hrun
  obtain ⟨b, hb, hrun⟩ := okAnd_iff.1 hrun
  obtain ⟨hslot, hrest⟩ := of_decide_eq_true hrun
  obtain ⟨f, hf, hassigned⟩ := Option.bind_eq_some_iff.1 hslot
  exact ⟨t, b, 7, 9, hparse, hb, ⟨6, f, hf, hassigned⟩, hrest⟩

end Bind

end LoopClosure
