import LoopClosure.Proofs.Binding.Layout
import LoopClosure.Proofs.Grammar.Program

/-!
# Names declared again

A parsed unit whose environments are known and that may have a `var` fails to bind with a duplicate
declaration exactly if one of its sites clashes with a site before it (`bind_duplicate_iff`). Each
declaration looks at those before it only. A `let` or `const` that is written behind a hoisted name
which passes its scope is accepted (`not_conflict_varBeforeLet`).
-/

namespace LoopClosure

open Syntax Binding Scopes

/-- A computation ends in a defect of the given sort. -/
def FailsWith {α : Type} (d : Defect) (c : Except Failure α) : Prop :=
  ∃ diagnostic, c = .error (.defect diagnostic) ∧ diagnostic.defect? = some d

section FailsWith

variable {α : Type} {u : CompilationUnit} {d d' : Defect} {c : Except Failure α}

theorem failsWith_defectAt_iff (ident : NodeId) (name : String) :
    FailsWith (α := α) d (.error (u.defectAt d' ident name)) ↔ d' = d := by
  have hdefect (start length : Nat) :
      FailsWith (α := α) d (.error (u.defect d' start length name)) ↔ d' = d := by
    constructor
    · rintro ⟨diagnostic, he, hd⟩
      cases he
      exact Option.some.inj ((Defect.ofCode?_code d').symm.trans hd)
    · rintro rfl
      exact ⟨_, rfl, Defect.ofCode?_code d'⟩
  unfold CompilationUnit.defectAt
  split <;> exact hdefect _ _

theorem not_failsWith_ok (a : α) : ¬FailsWith d (.ok a) := by
  rintro ⟨_, he, -⟩
  cases he

instance (d : Defect) (c : Except Failure α) : Decidable (FailsWith d c) :=
  match c with
  | .error (.defect diagnostic) => decidable_of_iff (diagnostic.defect? = some d)
      ⟨fun h => ⟨diagnostic, rfl, h⟩, by rintro ⟨_, ⟨rfl⟩, h⟩; exact h⟩
  | .error (.internal _) => isFalse (by rintro ⟨_, he, -⟩; cases he)
  | .ok a => isFalse (not_failsWith_ok a)

end FailsWith

namespace Binding

variable {u : CompilationUnit} {s : Scopes}

/-! ## Environments -/

theorem exists_addEnvironments {names : List String}
    (h : ∀ name ∈ names, (Globals.environment? name).isSome = true) (s : Scopes) :
    ∃ t, addEnvironments u s names = .ok t := by
  induction names generalizing s with
  | nil => exact ⟨s, rfl⟩
  | cons name names ih =>
    obtain ⟨table, htable⟩ := Option.isSome_iff_exists.1 (h name List.mem_cons_self)
    unfold addEnvironments
    rw [htable]
    exact ih (fun name' hn => h name' (List.mem_cons_of_mem _ hn)) _

theorem exists_environment
    (h : ∀ name ∈ u.options.environments, (Globals.environment? name).isSome = true) :
    ∃ s, environment u = .ok s := by
  obtain ⟨t, ht⟩ := exists_addEnvironments (u := u) h
    (Globals.always.foldl addTable (Scopes.alloc {} .hoist none none { top := true }).1)
  exact ⟨addTable t u.options.globals, bind_eq_ok.2 ⟨t, ht, rfl⟩⟩

/-! ## Resolving -/

/-- Resolving declares nothing. -/
theorem not_failsWith_resolveReference (b : Build) (r : Resolving) (ident : NodeId) :
    ¬FailsWith .duplicateConst (resolveReference u b r ident) := by
  unfold resolveReference
  split
  · dsimp only
    split
    · split
      · simp [failsWith_defectAt_iff]
      · exact not_failsWith_ok _
    · split
      · exact not_failsWith_ok _
      · split
        · simp [failsWith_defectAt_iff]
        · split
          · simp [failsWith_defectAt_iff]
          · exact not_failsWith_ok _
  · exact not_failsWith_ok _

theorem not_failsWith_resolveAll (b : Build) (r : Resolving) (idents : List NodeId) :
    ¬FailsWith .duplicateConst (resolveAll u b r idents) := by
  induction idents generalizing r with
  | nil => exact not_failsWith_ok _
  | cons ident idents ih =>
    unfold resolveAll
    cases h : resolveReference u b r ident with
    | ok r' => exact ih r'
    | error e =>
      have hnot := not_failsWith_resolveReference (u := u) b r ident
      rw [h] at hnot
      rintro ⟨diagnostic, he, hd⟩
      cases he
      exact hnot ⟨diagnostic, rfl, hd⟩

end Binding

/-! ## Binding -/

theorem Grammar.parse_rooted {source : List Char} {t : Tree} (h : parse source = .ok t) :
    (Nodes.ofTree t).Rooted := by
  obtain ⟨statements, comments, hform⟩ := (parse_spec h).isProgram
  intro i form hf hp
  obtain ⟨n, hn, rfl⟩ := Option.map_eq_some_iff.1 hf
  obtain ⟨p, v, hv, rfl⟩ := Nodes.located_of_get? hn
  have hnone : p = none := (Nodes.parent?_ofTree hv).symm.trans hp
  subst hnone
  rcases hv.cases_parent with ⟨-, -, rfl⟩ | ⟨j, q, start, stop, form, pre, post, -, hsome, -⟩
  · rw [Tree.nodeAt, hform]
    exact ⟨_, _, rfl⟩
  · cases hsome

section Bind

variable {u : CompilationUnit} {root : NodeId}

/-- A bound unit has no clash, and its scopes are laid out along the tree. -/
theorem bind_cases (hns : u.nodes.WellFormed) (hroot : u.nodes.Rooted)
    (hprogram : ∃ statements comments, u.nodes.form? root = some (.program statements comments))
    (henv : ∀ name ∈ u.options.environments, (Globals.environment? name).isSome = true)
    (hv : u.options.disallowVars = false) :
    (¬FailsWith .duplicateConst (bind u root) ∧ (sites u).Pairwise fun a b => ¬Clash u a b) ∨
      (FailsWith .duplicateConst (bind u root) ∧
        ¬(sites u).Pairwise fun a b => ¬Clash u a b) := by
  obtain ⟨statements, comments, hform⟩ := hprogram
  obtain ⟨s, hs⟩ := exists_environment henv
  unfold bind
  simp only [hform, hs, ok_bind]
  rcases (layout_environment hs).enterNodes (b := { scopes := s }) hns hroot rfl rfl with
    ⟨b, hb, hl⟩ | ⟨⟨ident, name, he⟩, hclash⟩ | ⟨-, hv'⟩
  · refine .inl ⟨?_, hl.apart⟩
    have hb' : enterNodes u { scopes := s } 0 u.nodes.table.toList = .ok b := hb
    rw [hb', ok_bind]
    generalize hr : resolveAll u b _ b.references.toList = r
    cases r with
    | ok r => exact not_failsWith_ok _
    | error e =>
      have hnot : ¬FailsWith .duplicateConst (Except.error e : Except Failure Resolving) :=
        hr ▸ not_failsWith_resolveAll _ _ _
      rintro ⟨diagnostic, he, hd⟩
      cases he
      exact hnot ⟨diagnostic, rfl, hd⟩
  · have he' : enterNodes u { scopes := s } 0 u.nodes.table.toList =
        .error (u.defectAt .duplicateConst ident name) := he
    rw [he']
    exact .inr ⟨(failsWith_defectAt_iff ident name).2 rfl, hclash⟩
  · rw [hv] at hv'
    cases hv'

end Bind

section Parsed

variable {u : CompilationUnit} {t : Tree}

/-- **Duplicates.** A parsed unit fails to bind with a duplicate declaration exactly if two of its
sites have one name, and either both go to one scope and one of them is a `let` or `const`, or the
later one is hoisted past a scope that has the earlier one as a `let` or `const`. -/
theorem bind_duplicate_iff (hparse : Grammar.parse u.source = .ok t) (hnodes : u.nodes = .ofTree t)
    (henv : ∀ name ∈ u.options.environments, (Globals.environment? name).isSome = true)
    (hv : u.options.disallowVars = false) :
    FailsWith .duplicateConst (bind u) ↔
      ∃ a b, [a, b].Sublist (sites u) ∧ a.name = b.name ∧ (Meets u a b ∨ Passes u b a) := by
  have hns : u.nodes.WellFormed :=
    hnodes ▸ Nodes.wellFormed_ofTree (Grammar.parse_wellFormed hparse)
  have hroot : u.nodes.Rooted := hnodes ▸ Grammar.parse_rooted hparse
  obtain ⟨statements, comments, hform⟩ := (Grammar.parse_spec hparse).isProgram
  have hprogram : ∃ statements comments,
      u.nodes.form? Nodes.root = some (.program statements comments) := by
    rw [hnodes, show (Nodes.ofTree t).form? Nodes.root = _ from Nodes.form?_ofTree (.here _ _ _),
      Tree.nodeAt, hform]
    exact ⟨_, _, rfl⟩
  have hiff : (∃ a b, [a, b].Sublist (sites u) ∧ a.name = b.name ∧ (Meets u a b ∨ Passes u b a)) ↔
      ¬(sites u).Pairwise fun a b => ¬Clash u a b := by
    rw [List.pairwise_iff_forall_sublist]
    simp only [not_forall, not_not, Clash, exists_prop]
  rw [hiff]
  rcases bind_cases hns hroot hprogram henv hv with ⟨hnot, hapart⟩ | ⟨hfails, hclash⟩
  · exact iff_of_false hnot (not_not_intro hapart)
  · exact iff_of_true hfails hclash

/-- A `var` that would be hoisted past a `let` of its name. -/
def varPastLet : List Char := "\x7b let x; f(); \x7b var x; \x7d \x7d".toList

theorem bind_duplicate_varPastLet : ∃ t, Grammar.parse varPastLet = .ok t ∧
    FailsWith .duplicateConst (bind ⟨"", varPastLet, .ofTree t, {}⟩) := by
  let a : Site := { kind := .let_, name := "x", ident := 4, place := 1 }
  let b : Site := { kind := .var, name := "x", ident := 11, place := 8 }
  have hrun : okAnd (Grammar.parse varPastLet) (fun t =>
      [a, b].isSublist (sites ⟨"", varPastLet, .ofTree t, {}⟩) &&
        decide (Passes ⟨"", varPastLet, .ofTree t, {}⟩ b a)) = true := by
    decide +kernel
  obtain ⟨t, hparse, hrun⟩ := okAnd_iff.1 hrun
  rw [Bool.and_eq_true, List.isSublist_iff_sublist, decide_eq_true_eq] at hrun
  have hiff := bind_duplicate_iff (u := ⟨"", varPastLet, .ofTree t, {}⟩) hparse rfl (by simp) rfl
  exact ⟨t, hparse, hiff.2 ⟨a, b, hrun.1, rfl, .inr hrun.2⟩⟩

/-- Sites of one name that go to one scope, one of them a `let` or `const`, or one of which is
hoisted past a scope that has the other as a `let` or `const`, whichever is declared first. -/
def Conflict (u : CompilationUnit) (a b : Site) : Prop :=
  a.name = b.name ∧ (Meets u a b ∨ Passes u a b ∨ Passes u b a)

/-- The `let` is declared behind the `var` that is hoisted past it. -/
def varBeforeLet : List Char := "\x7b var x; let x; \x7d".toList

theorem not_conflict_varBeforeLet : ∃ t, Grammar.parse varBeforeLet = .ok t ∧
    ¬(FailsWith .duplicateConst (bind ⟨"", varBeforeLet, .ofTree t, {}⟩) ↔
      ∃ a b, [a, b].Sublist (sites ⟨"", varBeforeLet, .ofTree t, {}⟩) ∧
        Conflict ⟨"", varBeforeLet, .ofTree t, {}⟩ a b) := by
  let a : Site := { kind := .var, name := "x", ident := 4, place := 1 }
  let b : Site := { kind := .let_, name := "x", ident := 7, place := 1 }
  have hrun : okAnd (Grammar.parse varBeforeLet) (fun t =>
      okAnd (bind ⟨"", varBeforeLet, .ofTree t, {}⟩) fun _ =>
        [a, b].isSublist (sites ⟨"", varBeforeLet, .ofTree t, {}⟩) &&
          decide (Passes ⟨"", varBeforeLet, .ofTree t, {}⟩ a b)) = true := by
    decide +kernel
  obtain ⟨t, hparse, hrun⟩ := okAnd_iff.1 hrun
  obtain ⟨r, hr, hrun⟩ := okAnd_iff.1 hrun
  rw [Bool.and_eq_true, List.isSublist_iff_sublist, decide_eq_true_eq] at hrun
  refine ⟨t, hparse, fun hiff => ?_⟩
  have hfails := hiff.2 ⟨a, b, hrun.1, rfl, .inr (.inl hrun.2)⟩
  rw [hr] at hfails
  exact not_failsWith_ok r hfails

end Parsed

end LoopClosure
