import LoopClosure.Proofs.Lowering.Applied
import LoopClosure.Proofs.Lowering.Hygiene
import LoopClosure.Proofs.Lowering.Prologue
import LoopClosure.Proofs.Syntax.Provider

/-!
# `this` in derived constructors

Before the constructor of a derived class has called `super`, it has no `this`. The variable for the
`this` of a wrapped body is declared behind the directives of the constructor, wherever `super` is
called: it stands behind those calls only that are no part of the body of the constructor but of its
parameters (`alias_behind_super_iff`).
-/

namespace LoopClosure

open Syntax Syntax.Nodes

/-! ## Constructors -/

namespace Syntax.Nodes

variable {ns : Nodes} {f body s : NodeId}

/-- The function `f` with the body `body` is the constructor of a class that extends another. -/
structure IsDerivedConstructor (ns : Nodes) (f body : NodeId) : Prop where
  function : ∃ place name params traits,
    ns.form? f = some (.function place name params body traits)
  member : ∃ m key isStatic computed c place name heritage members,
    ns.form? m = some (.method key f .constructor isStatic computed) ∧ ns.parent? m = some c ∧
      ns.form? c = some (.classBody place name (some heritage) members)

/-- `s` calls the constructor above for the `this` of `f`. -/
structure CallsSuper (ns : Nodes) (f s : NodeId) : Prop where
  provider : ns.Provider f s
  call : ∃ callee args isOptional,
    ns.form? s = some (.call callee args isOptional) ∧ ns.form? callee = some .super

end Syntax.Nodes

namespace Lowering

variable {b : Bound} {t : Tree} {target : ScopeId} {f body s : NodeId} {m n : Node}

/-! ## The start of a body -/

section Function

variable {place : FunctionPlace} {name : Option NodeId} {params : List NodeId}
  {traits : FunctionTraits}

theorem bodyStart_other (hnode : b.scopes.node? target = some f)
    (hf : b.nodes.form? f = some (.function place name params body traits))
    (hm : b.nodes.get? body = some m) (hblock : ∀ statements, m.form ≠ .block statements) :
    bodyStart b target = m.start := by
  obtain ⟨start, stop, form, parent⟩ := m
  simp only [bodyStart, hnode, Option.bind_some, hf, hm]
  cases form with
  | block statements => exact absurd rfl (hblock statements)
  | _ => rfl

theorem start_le_bodyStart (hns : b.nodes.WellFormed) (hnode : b.scopes.node? target = some f)
    (hf : b.nodes.form? f = some (.function place name params body traits))
    (hm : b.nodes.get? body = some m) : m.start ≤ bodyStart b target := by
  by_cases hblock : ∃ statements, m.form = .block statements
  · obtain ⟨statements, hform⟩ := hblock
    obtain ⟨start, stop, form, parent⟩ := m
    subst hform
    rw [bodyStart_block hnode hf hm]
    exact start_le_directivesEnd hns hm
  · rw [bodyStart_other hnode hf hm fun statements h => hblock ⟨statements, h⟩]

/-- A call in the body stands behind its start. -/
theorem bodyStart_le_of_inside (ht : t.WellFormed) (hb : b.nodes = .ofTree t)
    (hnode : b.scopes.node? target = some f)
    (hf : b.nodes.form? f = some (.function place name params body traits)) {callee : NodeId}
    {args : List NodeId} {isOptional : Bool}
    (hs : b.nodes.form? s = some (.call callee args isOptional)) (hn : b.nodes.get? s = some n)
    (hin : b.nodes.Inside body s) : bodyStart b target ≤ n.start := by
  have hns : b.nodes.WellFormed := hb ▸ wellFormed_ofTree ht
  obtain ⟨m, hm⟩ := hin.exists_get? hns hn
  by_cases hblock : ∃ statements, m.form = .block statements
  · obtain ⟨statements, hform⟩ := hblock
    obtain ⟨start, stop, form, parent⟩ := m
    subst hform
    have hbody : b.nodes.form? body = some (.block statements) := by
      rw [Nodes.form?, hm]
      rfl
    have hcall : n.form = .call callee args isOptional := by
      rw [Nodes.form?, hn, Option.map_some] at hs
      exact Option.some.inj hs
    have hne : body ≠ s := by
      rintro rfl
      cases hbody.symm.trans hs
    rw [bodyStart_block hnode hf hm]
    exact directivesEnd_le_of_inside ht hb hbody rfl rfl hm (Nat.le_refl _) hin hne hn
      (fun e h => by cases hcall.symm.trans h) fun raw h => by cases hcall.symm.trans h
  · rw [bodyStart_other hnode hf hm fun statements h => hblock ⟨statements, h⟩]
    exact (hin.within hns hm hn).1

/-- What is in the function but not in its body stands in front of the body. -/
theorem stop_le_bodyStart (ht : t.WellFormed) (hb : b.nodes = .ofTree t)
    (hnode : b.scopes.node? target = some f)
    (hf : b.nodes.form? f = some (.function place name params body traits)) {c : NodeId}
    (hc : b.nodes.parent? c = some f) (hcs : b.nodes.Inside c s) (hn : b.nodes.get? s = some n)
    (hout : ¬b.nodes.Inside body s) : n.stop ≤ bodyStart b target := by
  have hns : b.nodes.WellFormed := hb ▸ wellFormed_ofTree ht
  have hparts := children_of_form? hf
  have hbody : b.nodes.parent? body = some f :=
    parent?_of_form? hns hf (by simp [Form.children])
  obtain ⟨m, hm⟩ := exists_get?_of_parent?_eq_some hbody
  obtain ⟨k, hk⟩ := hcs.exists_get? hns hn
  have hpairwise : (name.toList ++ params ++ [body]).Pairwise b.nodes.Before := by
    rw [hb] at hf ⊢
    exact pairwise_children ht hf rfl
  have hmem : c ∈ name.toList ++ params := by
    have hmem := hns.parent_iff.1 hc
    rw [hparts, Form.children] at hmem
    refine (List.mem_append.1 hmem).resolve_right fun h => hout ?_
    exact List.mem_singleton.1 h ▸ hcs
  have hbefore : k.stop ≤ m.start :=
    (List.pairwise_append.1 hpairwise).2.2 c hmem body List.mem_cons_self k m hk hm
  exact Nat.le_trans (hcs.within hns hk hn).2
    (Nat.le_trans hbefore (start_le_bodyStart hns hnode hf hm))

end Function

/-! ## The variable for `this` -/

/-- A keyword in a wrapped body gets its variable in a scope. -/
def DeclaresAlias (l : Lowering) (a : Alias) (target : ScopeId) : Prop :=
  ∃ i w, l.wraps[i]? = some w ∧ l.sitesOf i a.siteKind ≠ [] ∧
    aliasScope? l.bound w.scope = some target

/-- The declaration of a variable in a function stands behind a call of `super` exactly if the call
is no part of the body. -/
theorem stop_le_init_iff {l : Lowering} {place : FunctionPlace} {name : Option NodeId}
    {params : List NodeId} {traits : FunctionTraits} (a : Alias) (v : String) (ht : t.WellFormed)
    (hb : l.nodes = .ofTree t) (hnode : l.bound.scopes.node? target = some f)
    (hf : l.nodes.form? f = some (.function place name params body traits))
    (hs : l.nodes.CallsSuper f s) (hn : l.nodes.get? s = some n) :
    n.stop ≤ (a.init l.bound target v).start ↔ ¬l.nodes.Inside body s := by
  obtain ⟨callee, args, isOptional, hcall, hsuper⟩ := hs.call
  have hns : l.nodes.WellFormed := hb ▸ wellFormed_ofTree ht
  obtain ⟨c, hc, -, hcs, -⟩ := (provider_iff hns).1 hs.provider
  constructor
  · intro hle hin
    have hstart : bodyStart l.bound target ≤ n.start :=
      bodyStart_le_of_inside ht hb hnode hf hcall hn hin
    -- The callee takes room.
    have hchild : l.nodes.parent? callee = some s :=
      parent?_of_form? hns hcall (by simp [Form.children])
    obtain ⟨k, hk⟩ := exists_get?_of_parent?_eq_some hchild
    have hroom := hns.within hchild hk hn
    have hlt : n.start < n.stop := by omega
    exact absurd (Nat.le_trans hle hstart) (Nat.not_le_of_lt hlt)
  · exact stop_le_bodyStart ht hb hnode hf hc hcs hn

end Lowering

/-- A variable for a keyword is declared. -/
theorem Lowering.DeclaresAlias.exists_init {source : List Char} {options : Options} {l : Lowering}
    {a : Alias} {target : ScopeId} (ha : l.Account source options) (h : l.DeclaresAlias a target) :
    ∃ name, l.draft.names.permanent? a.key = some name ∧
      a.init l.bound target name ∈ l.draft.edits.active := by
  obtain ⟨i, w, hw, hsites, htarget⟩ := h
  obtain ⟨target', name, htarget', hname⟩ := ha.named hw a hsites
  cases htarget.symm.trans htarget'
  refine ⟨name, hname, ?_⟩
  rw [ha.active_eq]
  exact (ha.inserts _).2 ⟨_, _, .body (.init a hw hsites htarget hname)⟩

/-- In the constructor of a class that extends another, the variable for `this` stands behind a call
of `super` exactly if the call is no part of the body. -/
theorem alias_behind_super_iff {file : String} {source : List Char} {options : Options}
    {out : Lowered} (h : compile file source options = .ok out) :
    ∃ l, Compiles file source options l out ∧ ∀ (target : ScopeId) (f body : NodeId),
      l.DeclaresAlias .this target → l.bound.scopes.node? target = some f →
      l.nodes.IsDerivedConstructor f body →
        ∃ name, l.draft.names.permanent? Alias.this.key = some name ∧
          Alias.this.init l.bound target name ∈ out.edits ∧
          ∀ s n, l.nodes.CallsSuper f s → l.nodes.get? s = some n →
            (n.stop ≤ (Alias.this.init l.bound target name).start ↔ ¬l.nodes.Inside body s) := by
  obtain ⟨l, hl, -⟩ := compile_outcome h
  obtain ⟨t, hparse, hnodes⟩ := hl.nodes
  refine ⟨l, hl, fun target f body hdeclares hnode hf => ?_⟩
  obtain ⟨name, hname, hinit⟩ := hdeclares.exists_init (account_of_lowerSource hl.lowered)
  obtain ⟨_, _, _, _, hfunction⟩ := hf.function
  exact ⟨name, hname, hl.edits ▸ hinit, fun s n hs hn => Lowering.stop_le_init_iff .this name
    (Grammar.parse_wellFormed hparse) hnodes hnode hfunction hs hn⟩

/-! ## A call among the parameters and one in the body -/

section Runs

/-- A node that is no function, field or program provides nothing. -/
theorem Syntax.Nodes.Provider.above {ns : Nodes} {p q c : NodeId} {form : Form NodeId}
    (h : ns.Provider p q) (hq : ns.parent? c = some q) (hf : ns.form? q = some form)
    (hfun : form.isFunction = false)
    (hfield : ∀ key value isStatic computed, form ≠ .field key value isStatic computed)
    (hroot : q ≠ Nodes.root) : ns.Provider p c := by
  refine .up hq ?_ h
  rintro (⟨hf', -⟩ | hq | ⟨hf', -⟩)
  · cases hf.symm.trans hf'
    cases hfun
  · exact hroot hq
  · exact hfield _ _ _ _ (Option.some.inj (hf.symm.trans hf'))

/-- The call of `super` comes before the parameters are bound. -/
def superInParameters : List Char :=
  "class A extends B { constructor(a = super()) { for (const x of xs) { f(() => x + this); } } }".toList

theorem alias_behind_super_superInParameters : ∃ l out target f body s n name,
    compile "" superInParameters {} = .ok out ∧ Compiles "" superInParameters {} l out ∧
    l.DeclaresAlias .this target ∧ l.bound.scopes.node? target = some f ∧
    l.nodes.IsDerivedConstructor f body ∧ l.nodes.CallsSuper f s ∧ l.nodes.get? s = some n ∧
    Alias.this.init l.bound target name ∈ out.edits ∧
    n.stop ≤ (Alias.this.init l.bound target name).start := by
  have hrun : okAnd (lowerSource "" superInParameters {}) (fun l =>
      okAnd l.draft.apply (fun _ => true) && decide (
        (l.wraps[0]?.bind fun w => Lowering.aliasScope? l.bound w.scope) = some 3 ∧
        l.sitesOf 0 .this ≠ [] ∧ l.bound.scopes.node? (some 3) = some 6 ∧
        l.nodes.form? 1 = some (.classBody .declaration (some 2) (some 3) [4]) ∧
        l.nodes.form? 4 = some (.method 5 6 .constructor false false) ∧
        l.nodes.form? 6 = some (.function .expression none [7] 11 {}) ∧
        l.nodes.form? 7 = some (.assignmentPattern 8 9) ∧
        l.nodes.get? 9 = some ⟨36, 43, .call 10 [] false, some 7⟩ ∧
        l.nodes.form? 10 = some .super ∧ l.nodes.parent? 4 = some 1 ∧
        l.nodes.parent? 7 = some 6 ∧ ¬11 ≤ 9)) = true := by
    decide +kernel
  obtain ⟨l', out, hout, hl', hcheck⟩ := exists_compile hrun
  obtain ⟨l, hl, hall⟩ := alias_behind_super_iff hout
  obtain rfl : l = l' := Except.ok.inj (hl.lowered.symm.trans hl')
  obtain ⟨l₂, hl₂, ho⟩ := compile_outcome hout
  obtain rfl : l = l₂ := Except.ok.inj (hl.lowered.symm.trans hl₂.lowered)
  obtain ⟨hscope, hsites, hnode, hclass, hmethod, hf, hparam, hs, hsuper, hc, hp, hlt⟩ :=
    of_decide_eq_true hcheck
  obtain ⟨w, hw, htarget⟩ := Option.bind_eq_some_iff.1 hscope
  have hcall : l.nodes.form? 9 = some (.call 10 [] false) := by
    rw [Nodes.form?, hs, Option.map_some]
  have hparent : l.nodes.parent? 9 = some 7 := by rw [Nodes.parent?, hs, Option.bind_some]
  have hderived : l.nodes.IsDerivedConstructor 6 11 :=
    ⟨⟨_, _, _, _, hf⟩, 4, 5, _, _, 1, _, _, _, _, hmethod, hc, hclass⟩
  have hprovider : l.nodes.Provider 6 9 :=
    Provider.above (.here hp (.function hf (by decide))) hparent hparam rfl
      (fun _ _ _ _ e => by cases e) (by decide)
  have hcalls : l.nodes.CallsSuper 6 9 := ⟨hprovider, _, _, _, hcall, hsuper⟩
  have hdeclares : l.DeclaresAlias .this 3 := ⟨0, w, hw, hsites, htarget⟩
  obtain ⟨name, -, hinit, hbehind⟩ := hall 3 6 11 hdeclares hnode hderived
  exact ⟨l, out, 3, 6, 11, 9, _, name, hout, hl, hdeclares, hnode, hderived, hcalls, hs, hinit,
    (hbehind 9 _ hcalls hs).2 fun hin => hlt (hin.le ho.nested.nodes)⟩

/-- The call of `super` comes first in the body. -/
def superInBody : List Char :=
  "class A extends B { constructor() { super(); for (const x of xs) { f(() => x + this); } } }".toList

theorem alias_before_super_superInBody : ∃ l out target f body s n name,
    compile "" superInBody {} = .ok out ∧ Compiles "" superInBody {} l out ∧
    l.DeclaresAlias .this target ∧ l.bound.scopes.node? target = some f ∧
    l.nodes.IsDerivedConstructor f body ∧ l.nodes.CallsSuper f s ∧ l.nodes.get? s = some n ∧
    Alias.this.init l.bound target name ∈ out.edits ∧
    (Alias.this.init l.bound target name).start < n.start := by
  have hrun : okAnd (lowerSource "" superInBody {}) (fun l =>
      okAnd l.draft.apply (fun _ => true) && decide (
        (l.wraps[0]?.bind fun w => Lowering.aliasScope? l.bound w.scope) = some 3 ∧
        l.sitesOf 0 .this ≠ [] ∧ l.bound.scopes.node? (some 3) = some 6 ∧
        l.nodes.form? 1 = some (.classBody .declaration (some 2) (some 3) [4]) ∧
        l.nodes.form? 4 = some (.method 5 6 .constructor false false) ∧
        l.nodes.form? 6 = some (.function .expression none [] 7 {}) ∧
        l.nodes.form? 7 = some (.block [8, 11]) ∧ l.nodes.form? 8 = some (.expression 9) ∧
        l.nodes.get? 9 = some ⟨36, 43, .call 10 [] false, some 8⟩ ∧
        l.nodes.form? 10 = some .super ∧ l.nodes.parent? 4 = some 1 ∧
        l.nodes.parent? 7 = some 6 ∧ l.nodes.parent? 8 = some 7 ∧
        Lowering.bodyStart l.bound 3 < 36)) = true := by
    decide +kernel
  obtain ⟨l', out, hout, hl', hcheck⟩ := exists_compile hrun
  obtain ⟨l, hl, -⟩ := compile_outcome hout
  obtain rfl : l = l' := Except.ok.inj (hl.lowered.symm.trans hl')
  obtain ⟨hscope, hsites, hnode, hclass, hmethod, hf, hblock, hstatement, hs, hsuper, hc, hp, hp',
    hlt⟩ := of_decide_eq_true hcheck
  obtain ⟨w, hw, htarget⟩ := Option.bind_eq_some_iff.1 hscope
  have hcall : l.nodes.form? 9 = some (.call 10 [] false) := by
    rw [Nodes.form?, hs, Option.map_some]
  have hparent : l.nodes.parent? 9 = some 8 := by rw [Nodes.parent?, hs, Option.bind_some]
  have hderived : l.nodes.IsDerivedConstructor 6 7 :=
    ⟨⟨_, _, _, _, hf⟩, 4, 5, _, _, 1, _, _, _, _, hmethod, hc, hclass⟩
  have hbody : l.nodes.Provider 6 8 :=
    Provider.above (.here hp (.function hf (by decide))) hp' hblock rfl
      (fun _ _ _ _ e => by cases e) (by decide)
  have hprovider : l.nodes.Provider 6 9 :=
    hbody.above hparent hstatement rfl (fun _ _ _ _ e => by cases e) (by decide)
  have hdeclares : l.DeclaresAlias .this 3 := ⟨0, w, hw, hsites, htarget⟩
  obtain ⟨name, -, hinit⟩ := hdeclares.exists_init (account_of_lowerSource hl.lowered)
  exact ⟨l, out, 3, 6, 7, 9, _, name, hout, hl, hdeclares, hnode, hderived,
    ⟨hprovider, _, _, _, hcall, hsuper⟩, hs, hl.edits ▸ hinit, hlt⟩

end Runs

end LoopClosure
