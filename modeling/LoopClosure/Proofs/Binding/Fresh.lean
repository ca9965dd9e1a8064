import LoopClosure.Proofs.Binding.Steps
import LoopClosure.Proofs.Scope.Hoist
import LoopClosure.Proofs.Syntax.Inside

/-!
# Names that a binding does not know

A table avoids a name if no scope propagates it and none has a `let` or `const` of it. The table of a
bound unit avoids every name with a dollar sign that is not among the identifiers of the unit
(`bind_avoids`): declarations and marks come from identifiers, and no predefined global has a dollar
sign.
-/

namespace LoopClosure

open Syntax Binding

/-- No reference passes through the scope under the name, and the scope has no `let` or `const` of
it. -/
structure Scope.Avoids (name : String) (c : Scope) : Prop where
  propagates : name ∉ c.propagates
  kind : ∀ {d : Declaration}, c.declaration? name = some d → d.kind.isBlockScoped = false

namespace Scopes

variable {s t : Scopes} {name : String}

def Avoids (name : String) (s : Scopes) : Prop :=
  ∀ (id : Option ScopeId) (c : Scope), s.get? id = some c → c.Avoids name

namespace Avoids

theorem hasPropagated (h : s.Avoids name) (id : Option ScopeId) :
    s.hasPropagated id name = false := by
  rw [Scopes.hasPropagated]
  cases hc : s.get? id with
  | none => rfl
  | some c => simpa using (h id c hc).propagates

theorem bars (h : s.Avoids name) (id : Option ScopeId) : s.bars id name = false := by
  rw [← Bool.not_eq_true]
  intro hb
  cases hc : s.get? id with
  | none => simp [Scopes.bars, declaration?, hc] at hb
  | some c =>
    obtain ⟨d, hd, hk⟩ := (bars_iff hc).1 hb
    rw [(h id c hc).kind hd] at hk
    cases hk

theorem not_refuses (h : s.Avoids name) (id : Option ScopeId) : ¬s.Refuses id name := by
  rintro (hp | ⟨j, -, hb⟩)
  · rw [h.hasPropagated] at hp
    cases hp
  · rw [h.bars] at hb
    cases hb

theorem empty (name : String) : Avoids name {} := by
  intro id c hc
  cases id <;> simp [get?] at hc

theorem update {f : Scope → Scope} (h : s.Avoids name) (id : Option ScopeId)
    (hf : ∀ c, c.Avoids name → (f c).Avoids name) : (s.update id f).Avoids name := by
  intro j c hc
  rw [get?_update] at hc
  split at hc
  · obtain ⟨c', hc', rfl⟩ := Option.map_eq_some_iff.1 hc
    exact hf c' (h j c' hc')
  · exact h j c hc

theorem alloc {kind : ScopeKind} {node : Option NodeId} {parent : Option ScopeId} {flags : Flags}
    (h : s.Avoids name) : (s.alloc kind node parent flags).1.Avoids name := by
  refine update (fun id c hc => ?_) parent fun c hc => ⟨hc.propagates, hc.kind⟩
  cases id with
  | none => cases hc
  | some id =>
    change (s.table.push _)[id]? = some c at hc
    rw [Array.getElem?_push] at hc
    split at hc
    · cases hc
      exact ⟨List.not_mem_nil, fun hd => (nomatch hd)⟩
    · exact h (some id) c hc

end Avoids

end Scopes

namespace Scope.Avoids

variable {c : Scope} {name other : String} {d : Declaration}

theorem append (hc : c.Avoids name) (hd : name = other → d.kind.isBlockScoped = false) :
    (c.append other d).Avoids name := by
  refine ⟨hc.propagates, fun {d'} hd' => ?_⟩
  rw [declaration?, Scope.append, List.lookup_append] at hd'
  rcases Option.or_eq_some_iff.1 hd' with hold | ⟨-, hnew⟩
  · exact hc.kind hold
  · rw [List.lookup_cons] at hnew
    split at hnew
    · next heq =>
      cases hnew
      exact hd (beq_iff_eq.1 heq)
    · cases hnew

theorem remove (hc : c.Avoids name) (hne : name ≠ other) : (c.remove other).Avoids name := by
  refine ⟨hc.propagates, fun {d} hd => hc.kind (d := d) ?_⟩
  rwa [declaration?, Scope.remove, lookup_filter_ne, if_neg hne] at hd

theorem modify {f : Declaration → Declaration} (hc : c.Avoids name)
    (hf : ∀ d, (f d).kind = d.kind) : (c.modify other f).Avoids name := by
  refine ⟨hc.propagates, fun {d} hd => ?_⟩
  rw [declaration?, Scope.modify, lookup_map_entry] at hd
  split at hd
  · obtain ⟨d', hd', rfl⟩ := Option.map_eq_some_iff.1 hd
    rw [hf]
    exact hc.kind hd'
  · exact hc.kind hd

theorem propagate (hc : c.Avoids name) (hne : name ≠ other) : (c.propagate other).Avoids name :=
  ⟨fun h => (mem_appendNew.1 h).elim hc.propagates hne, hc.kind⟩

theorem addReference (hc : c.Avoids name) (ident : NodeId) :
    (c.addReference other ident).Avoids name := by
  unfold Scope.addReference
  split
  · exact ⟨hc.propagates, hc.kind⟩
  · exact ⟨hc.propagates, hc.kind⟩

end Scope.Avoids

namespace Binding

variable {u : CompilationUnit} {s t : Scopes} {name : String} {G : Grants}

theorem Step.avoids (h : Step u G s t) (hn : ∀ ident, u.nodes.identifier? ident ≠ some name)
    (hs : s.Avoids name) : t.Avoids name := by
  have hne {ident : NodeId} {other : String} (ho : u.nodes.identifier? ident = some other) :
      name ≠ other := fun heq => hn ident (heq ▸ ho)
  cases h with
  | declare ho _ hd =>
    rcases Scopes.declare_cases hd with rfl | ⟨j, c, -, -, -, rfl⟩
    · exact hs
    · exact hs.update _ fun c hc => hc.append fun heq => absurd heq (hne ho)
  | modify id other hf => exact hs.update _ fun c hc => hc.modify fun d => (hf d).kind.symm
  | addFlags id hf => exact hs.update _ fun c hc => ⟨hc.propagates, hc.kind⟩
  | markPropagates id ho => exact hs.update _ fun c hc => hc.propagate (hne ho)
  | addReference id other ident => exact hs.update _ fun c hc => hc.addReference ident

theorem Steps.avoids (h : Steps u G s t) (hn : ∀ ident, u.nodes.identifier? ident ≠ some name)
    (hs : s.Avoids name) : t.Avoids name := by
  induction h with
  | refl => exact hs
  | tail _ hstep ih => exact hstep.avoids hn ih

theorem Enters.avoids {id : NodeId} {scope own : ScopeId} {form : Form NodeId}
    (h : Enters u id scope form s t own) (hn : ∀ ident, u.nodes.identifier? ident ≠ some name)
    (hs : s.Avoids name) : t.Avoids name := by
  cases h with
  | same _ h => exact h.avoids hn hs
  | own _ h _ h' => exact h'.avoids hn (h.avoids hn hs).alloc

theorem enterNodes_avoids {b b' : Build} {i : NodeId} {ns : List Node}
    (h : enterNodes u b i ns = .ok b') (hn : ∀ ident, u.nodes.identifier? ident ≠ some name)
    (hb : b.scopes.Avoids name) : b'.scopes.Avoids name := by
  induction ns generalizing b i with
  | nil =>
    cases h
    exact hb
  | cons n ns ih =>
    obtain ⟨b₁, h₁, h⟩ := bind_eq_ok.1 h
    obtain ⟨own, he, -⟩ := enterNode_scopes h₁
    exact ih h ((enterScopes_enters he).avoids hn hb)

/-! ## Globals -/

/-- The predefined globals have plain names. -/
theorem dollar_not_mem_globals : ∀ table ∈ Globals.always ++ Globals.environments.map (·.2),
    ∀ e ∈ table, '$' ∉ e.1.toList := by
  decide +kernel

theorem addGlobal_avoids {other : String} {kind : BindingKind} {id : Option ScopeId}
    {fromPos : Option Nat} (hs : s.Avoids name) (hne : name ≠ other) :
    (s.addGlobal id other kind fromPos).Avoids name :=
  hs.update id fun _ hc => (hc.remove hne).append fun heq => absurd heq hne

theorem addTable_avoids {table : List (String × Bool)} (hs : s.Avoids name)
    (hne : ∀ e ∈ table, name ≠ e.1) : (addTable s table).Avoids name := by
  unfold addTable
  induction table generalizing s with
  | nil => exact hs
  | cons e table ih =>
    rw [List.foldl_cons]
    exact ih (addGlobal_avoids hs (hne e List.mem_cons_self))
      fun e' he => hne e' (List.mem_cons_of_mem _ he)

theorem addTables_avoids {tables : List (List (String × Bool))} (hs : s.Avoids name)
    (hne : ∀ table ∈ tables, ∀ e ∈ table, name ≠ e.1) :
    (tables.foldl addTable s).Avoids name := by
  induction tables generalizing s with
  | nil => exact hs
  | cons table tables ih =>
    exact ih (addTable_avoids hs (hne table List.mem_cons_self))
      fun t ht => hne t (List.mem_cons_of_mem _ ht)

theorem addListed_avoids {listed : List (String × Bool × Nat)} (hs : s.Avoids name)
    (hne : ∀ e ∈ listed, name ≠ e.1) : (listed.foldl (fun s (name, writable, stop) =>
      s.addGlobal topScope name (if writable then .let_ else .const) (some stop)) s).Avoids name := by
  induction listed generalizing s with
  | nil => exact hs
  | cons e listed ih =>
    rw [List.foldl_cons]
    exact ih (addGlobal_avoids hs (hne e List.mem_cons_self))
      fun e' he => hne e' (List.mem_cons_of_mem _ he)

theorem addEnvironments_avoids {names : List String} (hd : '$' ∈ name.toList)
    (hs : s.Avoids name) (h : addEnvironments u s names = .ok t) : t.Avoids name := by
  induction names generalizing s with
  | nil =>
    cases h
    exact hs
  | cons environment names ih =>
    unfold addEnvironments at h
    split at h
    · next table htable =>
      refine ih (addTable_avoids hs fun e he heq => ?_) h
      obtain ⟨l₁, l₂, heqs, -⟩ := List.lookup_eq_some_iff.1 htable
      have hmem : table ∈ Globals.environments.map (·.2) :=
        List.mem_map.2 ⟨_, by rw [heqs]; exact List.mem_append_right _ List.mem_cons_self, rfl⟩
      exact dollar_not_mem_globals table (List.mem_append_right _ hmem) e he (heq ▸ hd)
    · cases h

theorem environment_avoids (hd : '$' ∈ name.toList) (hn : name ∉ u.options.globals.map (·.1))
    (h : environment u = .ok s) : s.Avoids name := by
  unfold environment at h
  obtain ⟨t, ht, h⟩ := bind_eq_ok.1 h
  cases h
  have halways : (Globals.always.foldl addTable
      (Scopes.alloc {} .hoist none none { top := true }).1).Avoids name :=
    addTables_avoids (Scopes.Avoids.empty name).alloc fun table ht e he heq =>
      dollar_not_mem_globals table (List.mem_append_left _ ht) e he (heq ▸ hd)
  refine addTable_avoids (addEnvironments_avoids hd halways ht) fun e he heq => hn ?_
  exact List.mem_map.2 ⟨e, he, heq.symm⟩

end Binding

/-- A unit knows the names of its identifiers and of the globals that its options and its comments
list. -/
theorem mem_identifiers {u : CompilationUnit} {root : NodeId} {b : Bound}
    (h : bind u root = .ok b) : ∃ statements comments,
      u.nodes.form? root = some (.program statements comments) ∧ ∀ {name : String},
        name ∈ b.identifiers ↔ (∃ ident, u.nodes.identifier? ident = some name) ∨
          name ∈ u.options.globals.map (·.1) ∨
          name ∈ (commentGlobals u.source comments).map (·.1) := by
  unfold bind at h
  split at h
  · next statements comments hform =>
    obtain ⟨s, -, h⟩ := bind_eq_ok.1 h
    obtain ⟨build, -, h⟩ := bind_eq_ok.1 h
    extract_lets listed globals names at h
    obtain ⟨r, -, h⟩ := bind_eq_ok.1 h
    cases h
    refine ⟨statements, comments, hform, fun {name} => ?_⟩
    have hnames : name ∈ names ↔ ∃ ident, u.nodes.identifier? ident = some name := by
      rw [List.mem_filterMap]
      constructor
      · rintro ⟨n, hn, hname⟩
        obtain ⟨ident, hident⟩ := List.mem_iff_getElem?.1 hn
        rw [Array.getElem?_toList] at hident
        split at hname
        · next hf =>
          cases hname
          exact ⟨ident, Nodes.identifier?_eq_some_iff.2 (Option.map_eq_some_iff.2 ⟨n, hident, hf⟩)⟩
        · cases hname
      · rintro ⟨ident, hident⟩
        obtain ⟨n, hn, hf⟩ := Option.map_eq_some_iff.1 (Nodes.identifier?_eq_some_iff.1 hident)
        exact ⟨n, List.mem_iff_getElem?.2 ⟨ident, Array.getElem?_toList ▸ hn⟩, by rw [hf]⟩
    rw [mem_foldl_appendNew, List.mem_append, List.mem_append, hnames, or_assoc]
    exact or_iff_right List.not_mem_nil
  · cases h

/-- The scopes of a bound unit avoid the names with a dollar sign that are no identifiers of it. -/
theorem bind_avoids {u : CompilationUnit} {root : NodeId} {b : Bound} {name : String}
    (h : bind u root = .ok b) (hd : '$' ∈ name.toList) (hn : name ∉ b.identifiers) :
    b.scopes.Avoids name := by
  obtain ⟨statements, comments, hform, hmem⟩ := mem_identifiers h
  rw [hmem, not_or, not_or, not_exists] at hn
  obtain ⟨hident, hoptions, hlisted⟩ := hn
  unfold bind at h
  rw [hform] at h
  obtain ⟨s, hs, h⟩ := bind_eq_ok.1 h
  obtain ⟨build, hbuild, h⟩ := bind_eq_ok.1 h
  extract_lets listed globals names at h
  obtain ⟨r, hr, h⟩ := bind_eq_ok.1 h
  cases h
  have hbuilt := enterNodes_avoids hbuild hident (environment_avoids hd hoptions hs)
  have hglobals : globals.Avoids name := by
    have hne : ∀ e ∈ listed, name ≠ e.1 := fun e he heq =>
      hlisted (List.mem_map.2 ⟨e, he, heq.symm⟩)
    exact addListed_avoids hbuilt hne
  exact (resolveAll_steps hr).avoids hident hglobals

end LoopClosure
