import LoopClosure.Grammar.Statement
import LoopClosure.Proofs.Syntax.WellFormed

/-!
# Values of readers

`Yields p P`: wherever `p` reads, its value satisfies `P`. That suffices for what the rules alone tell
of a tree, whatever the text: a block is a block, and a target that is declared has no parentheses
in it.
-/

namespace LoopClosure.Grammar

open Syntax Token

variable {α β σ : Type} {p : Parse α} {f : α → Parse β} {P : α → Prop} {Q : β → Prop}
  {rules : Rules} {start : Nat} {form : Form Tree}

/-- All values of the reader satisfy `P`. -/
def Yields (p : Parse α) (P : α → Prop) : Prop := ∀ c s a t, p c s = .ok a t → P a

namespace Yields

theorem pure {a : α} (h : P a) : Yields (pure a) P := by
  intro c s b t hr
  cases hr
  exact h

theorem bind (hp : Yields p P) (hf : ∀ a, P a → Yields (f a) Q) : Yields (p >>= f) Q := by
  intro c s b t hr
  change EStateM.bind (p c) (fun a => f a c) s = .ok b t at hr
  unfold EStateM.bind at hr
  split at hr
  · next a u heq => exact hf a (hp c s a u heq) c u b t hr
  · cases hr

/-- Nothing need be known of what is read first. -/
theorem step (hf : ∀ a, Yields (f a) Q) : Yields (p >>= f) Q :=
  bind (P := fun _ => True) (fun _ _ _ _ _ => trivial) fun a _ => hf a

theorem map {g : α → β} (hp : Yields p fun a => Q (g a)) : Yields (g <$> p) Q := by
  rw [← bind_pure_comp]
  exact hp.bind fun a h => .pure h

theorem ite {b : Prop} [Decidable b] {q : Parse α} (hp : Yields p P) (hq : Yields q P) :
    Yields (if b then p else q) P := by
  split
  · exact hp
  · exact hq

theorem fail {e : SyntaxError} : Yields (fail e) P := by
  intro c s a t hr
  cases hr

theorem fail_bind {e : SyntaxError} : Yields (Grammar.fail e >>= f) Q :=
  bind (P := fun _ => False) .fail fun _ h => h.elim

theorem withIn (hp : Yields p P) : Yields (withIn p) P := fun _ => hp _

theorem inFunction {traits : FunctionTraits} (hp : Yields p P) : Yields (inFunction traits p) P :=
  fun _ => hp _

theorem nested (hp : Yields p P) : Yields (nested p) P := by
  intro c s a t hr
  unfold Grammar.nested at hr
  split at hr
  · exact hp _ s a t hr
  · cases hr

theorem iterate {turn : σ → Parse (Option σ)} {I : σ → Prop}
    (hturn : ∀ x, I x → Yields (turn x) fun o => ∀ y ∈ o, I y) (n : Nat) {x : σ} (hx : I x) :
    Yields (iterate turn n x) I := by
  induction n generalizing x with
  | zero => exact .fail
  | succ n ih =>
    refine (hturn x hx).bind fun o ho => ?_
    cases o with
    | none => exact .pure hx
    | some y => exact ih (ho y rfl)

theorem collect {item : Parse (Option α)} (hitem : Yields item fun o => ∀ a ∈ o, P a) :
    Yields (collect item) fun as => ∀ a ∈ as, P a := by
  refine bind (P := fun as => ∀ a ∈ as, P a) ?_ fun as has => .pure (by simpa using has)
  refine step fun c => iterate (fun as has => hitem.bind fun o ho => .pure ?_) _ (by simp)
  intro bs hbs
  cases o with
  | none => cases hbs
  | some a =>
    cases hbs
    exact List.forall_mem_cons.2 ⟨ho a rfl, has⟩

theorem commaList {close : Punctuator} {item : Parse α} (hitem : Yields item P) :
    Yields (commaList close item) fun as => ∀ a ∈ as, P a := by
  refine (collect (.step fun _ => .ite (.pure nofun) (hitem.bind fun a ha => ?_))).bind
    fun as has => .step fun _ => .pure has
  have hsome : ∀ b ∈ some a, P b := by simpa using ha
  exact .step fun _ => .ite (.step fun _ => .pure hsome) (.pure hsome)

theorem arrayElements {P : Tree → Prop} {item : Parse Tree} (hitem : Yields item P) :
    Yields (arrayElements item) fun es => ∀ e ∈ es, ∀ t ∈ e, P t := by
  refine (collect (.step fun _ => .ite (.pure nofun) (.step fun _ =>
    .ite (.pure (by simp)) (hitem.bind fun t ht => ?_)))).bind fun es hes => .step fun _ => .pure hes
  have hsome : ∀ e ∈ some (some t), ∀ u ∈ e, P u := by simpa using ht
  exact .step fun _ => .ite (.step fun _ => .pure hsome) (.pure hsome)

end Yields

/-! ## Nodes -/

/-- A node has the form that it is made of. -/
theorem finish_yields {P : Tree → Prop} (h : ∀ stop, P (.ofForm start stop form)) :
    Yields (finish start form) P :=
  .step fun _ => .pure (h _)

theorem block_yields : Yields (block rules) fun t => t.form.isBlock = true :=
  .step fun _ => .step fun _ => .step fun _ => .step fun _ => finish_yields fun _ => rfl

theorem declarator_yields : Yields (declarator rules) fun t => t.form.isDeclarator = true :=
  .step fun _ => .step fun _ => .step fun _ =>
    .ite (.step fun _ => finish_yields fun _ => rfl) (.step fun _ => finish_yields fun _ => rfl)

/-! ## Patterns without parentheses -/

/-- A node that is no parentheses binds through none if none of its items does. -/
theorem bare_ofForm {stop : Nat} (hopen : ∀ e, form.number ≠ .parenthesized e)
    (h : ∀ t ∈ form.targets, t.Bare) : (Tree.ofForm start stop form).Bare :=
  .node hopen fun _ t hk ht => h t (Form.mem_targets_number hk ht)

theorem identifierName_bare : Yields identifierName Tree.Bare :=
  .step fun _ => .ite .fail_bind <| .step fun _ => .step fun _ => .step fun _ =>
    finish_yields fun _ => bare_ofForm nofun nofun

theorem identifier_bare : Yields identifier Tree.Bare :=
  .step fun _ => .ite .fail_bind identifierName_bare

/-- A property name that is not computed. -/
theorem propertyName_bare : Yields (propertyName rules) fun r => r.2 = false → r.1.Bare := by
  have hliteral (kind : LiteralKind) : Yields (literal kind >>= fun key => pure (key, false))
      fun r => r.2 = false → r.1.Bare := by
    refine Yields.bind (P := Tree.Bare) (.step fun _ => .step fun _ => .step fun _ =>
      finish_yields fun _ => bare_ofForm nofun nofun) fun key hkey => .pure fun _ => hkey
  refine .step fun k => ?_
  split
  · exact hliteral .string
  · exact hliteral .number
  · exact .step fun _ => .step fun _ => .step fun _ => .pure nofun
  · exact .ite (identifierName_bare.bind fun key hkey => .pure fun _ => hkey) .fail

section Patterns

variable (hr : Yields (rules .bindingTarget) Tree.Bare)
include hr

theorem bindingElement_bare : Yields (bindingElement rules) Tree.Bare := by
  refine .step fun _ => hr.bind fun target htarget => .step fun _ => .ite ?_ (.pure htarget)
  exact .step fun value => finish_yields fun _ => bare_ofForm nofun (by simpa [Form.targets])

theorem restElement_bare : Yields (restElement rules) Tree.Bare :=
  .step fun _ => .step fun _ => hr.bind fun argument hargument =>
    finish_yields fun _ => bare_ofForm nofun (by simpa [Form.targets])

theorem bindingOrRest_bare : Yields (bindingOrRest rules) Tree.Bare :=
  .step fun _ => .ite (restElement_bare hr) (bindingElement_bare hr)

theorem bindingProperty_bare : Yields (bindingProperty rules) Tree.Bare := by
  have hproperty {key value : Tree} {traits : PropertyTraits} {start : Nat} (hvalue : value.Bare) :
      Yields (finish start (.property key value .init traits)) Tree.Bare :=
    finish_yields fun _ => bare_ofForm nofun (by simpa [Form.targets])
  refine .step fun start => .step fun mayBeShort => propertyName_bare.bind ?_
  rintro ⟨key, computed⟩ hkey
  refine .step fun _ => .ite ((bindingElement_bare hr).bind fun value hvalue => hproperty hvalue) ?_
  split
  · exact .fail
  · next hshort =>
    rw [Bool.not_eq_true, Bool.or_eq_false_iff] at hshort
    have hname : key.Bare := hkey hshort.2
    refine .step fun _ => .ite (.step fun value => ?_) (hproperty hname)
    have hdefault : Yields (finish start (.assignmentPattern key value)) Tree.Bare :=
      finish_yields fun _ => bare_ofForm nofun (by simpa [Form.targets])
    exact hdefault.bind fun _ => hproperty

theorem bindingTarget_bare : Yields (bindingTarget rules) Tree.Bare := by
  refine .step fun _ => .step fun k => ?_
  split
  · refine .step fun _ => (Yields.arrayElements (bindingOrRest_bare hr)).bind fun es hes => ?_
    refine finish_yields fun _ => bare_ofForm nofun fun t ht => ?_
    obtain ⟨e, he, rfl⟩ := List.mem_filterMap.1 ht
    exact hes _ he t rfl
  · refine .step fun _ => (Yields.commaList (.step fun _ =>
      .ite (restElement_bare hr) (bindingProperty_bare hr))).bind fun ts hts => ?_
    exact finish_yields fun _ => bare_ofForm nofun hts
  · exact identifier_bare

theorem parameterList_bare : Yields (parameterList rules) fun ts => ∀ t ∈ ts, t.Bare :=
  .step fun _ => .commaList (bindingOrRest_bare hr)

/-- The parameters of a function have no parentheses in them, and its body is a block. -/
theorem parametersAndBody_yields {traits : FunctionTraits} :
    Yields (parametersAndBody rules traits) fun r =>
      (∀ t ∈ r.1, t.Bare) ∧ r.2.form.isBlock = true :=
  .withIn <| .inFunction <| (parameterList_bare hr).bind fun _ hparams =>
    block_yields.bind fun _ hbody => .pure ⟨hparams, hbody⟩

end Patterns

end LoopClosure.Grammar
