import LoopClosure.Grammar.Program
import LoopClosure.Proofs.Syntax.Ways

/-!
# Readers under the limit on nesting

`Limits p q c Q` compares two readers, of which the second may start at a lower level of nesting: the
first one ends as the second one does, with a value as `Q` says, or it is refused because it nests
too deep. There is one rule for each way in which readers are put together; readers that pay no
attention to the level of nesting are `Steady` and stand on both sides.
-/

namespace LoopClosure.Grammar

open Syntax Token

variable {α β σ : Type} {c : Context} {p q : Parse α} {f g : α → Parse β} {P : α → Prop}
  {Q : β → Prop}

/-- The outcome of a reader, with a value as `Q` says, against that of another one: the same, unless
the text nests too deep for the first. -/
inductive Checked (Q : α → Prop) : EStateM.Result Stop State α →
    EStateM.Result Stop State α → Prop where
  | ok {a : α} {s : State} (h : Q a) : Checked Q (.ok a s) (.ok a s)
  | error {h : Stop} {s : State} : Checked Q (.error h s) (.error h s)
  | tooDeep {d : SyntaxDiagnostic} {s : State} {r : EStateM.Result Stop State α}
    (h : d.error = .nestingTooDeep) : Checked Q (.error (.fault d) s) r

/-- The reader `p` reads as `q` does, which stands at a lower level of nesting. -/
def Limits (p q : Parse α) (c : Context) (Q : α → Prop) : Prop :=
  ∀ m ≤ c.nesting, ∀ s, Checked Q (p c s) (q { c with nesting := m } s)

/-- The level of nesting is of no account. -/
def Steady (p : Parse α) : Prop := ∀ c m s, p { c with nesting := m } s = p c s

/-! ## Steady readers -/

namespace Steady

theorem pure {a : α} : Steady (Pure.pure a) := fun _ _ _ => rfl

theorem bind (hp : Steady p) (hf : ∀ a, Steady (f a)) : Steady (p >>= f) := by
  intro c m s
  change EStateM.bind (p _) (fun a => f a _) s = EStateM.bind (p c) (fun a => f a c) s
  unfold EStateM.bind
  rw [hp]
  split
  · exact hf _ _ _ _
  · rfl

theorem ite {b : Prop} [Decidable b] {q : Parse α} (hp : Steady p) (hq : Steady q) :
    Steady (if b then p else q) := by
  split
  · exact hp
  · exact hq

theorem fail {e : SyntaxError} : Steady (Grammar.fail e : Parse α) := fun _ _ _ => rfl

theorem here : Steady here := fun _ _ _ => rfl

theorem kind : Steady kind := fun _ _ _ => rfl

theorem lexer : Steady lexer := fun _ _ _ => rfl

theorem get : Steady (MonadState.get : Parse State) := fun _ _ _ => rfl

theorem next : Steady next := fun _ _ _ => rfl

theorem rescan {h : Lexer → Lexer} : Steady (rescan h) := fun _ _ _ => rfl

theorem afterLineBreak : Steady afterLineBreak := fun _ _ _ => rfl

theorem isPunct {p : Punctuator} : Steady (isPunct p) := fun _ _ _ => rfl

theorem isWord {k : Keyword} : Steady (isWord k) := fun _ _ _ => rfl

theorem isEnd : Steady isEnd := fun _ _ _ => rfl

theorem accept {k : Kind} : Steady (accept k) :=
  .bind .kind fun _ => .ite (.bind .next fun _ => .pure) .pure

theorem expect {k : Kind} : Steady (expect k) :=
  .bind .accept fun _ => .ite .fail .pure

theorem lookAhead (hp : Steady p) : Steady (lookAhead p) :=
  .bind .get fun _ => .bind hp fun _ _ _ _ => rfl

theorem isIdentifier : Steady isIdentifier := by
  refine .bind .kind fun k => ?_
  split <;> exact fun _ _ _ => rfl

theorem canEndStatement : Steady canEndStatement := by
  refine .bind .kind fun k => ?_
  split <;> exact fun _ _ _ => rfl

theorem semicolon : Steady semicolon :=
  .bind .accept fun _ => .ite (.bind .canEndStatement fun _ => .ite .fail .pure) .pure

theorem identifierName : Steady identifierName :=
  .bind .kind fun _ => .ite (.bind .fail fun _ _ _ _ => rfl) fun _ _ _ => rfl

theorem startsExpression : Steady startsExpression := by
  refine .bind .kind fun k => ?_
  split
  · split <;> exact .pure
  all_goals exact .pure

theorem declarationKeyword? : Steady declarationKeyword? := by
  refine .bind .kind fun k => ?_
  split
  · exact .pure
  · exact .pure
  · have hstarts : Steady startsLet := .lookAhead <| .bind .next fun _ =>
      .bind .isIdentifier fun _ _ _ _ => rfl
    exact .bind hstarts fun _ => .ite .pure .pure
  · exact .pure

theorem acceptModifier {k : Keyword} : Steady (acceptModifier k) :=
  .bind .isWord fun _ => .ite (.bind (.lookAhead fun _ _ _ => rfl) fun _ =>
    .ite (.bind .next fun _ => .pure) .pure) .pure

theorem accessorRole : Steady accessorRole :=
  .bind .acceptModifier fun _ => .ite .pure (.bind .acceptModifier fun _ => .ite .pure .pure)

theorem isConstructorKey {key : Tree} : Steady (isConstructorKey key) := by
  rcases isConstructorKey_cases key with ⟨b, h⟩ | ⟨h, -⟩
  · exact h ▸ .pure
  · exact h ▸ fun _ _ _ => rfl

theorem methodRole {role : MethodRole} {isStatic computed : Bool} {key : Tree} :
    Steady (methodRole role isStatic computed key) :=
  .ite (.bind .isConstructorKey fun _ => .ite .pure .pure) .pure

theorem iterate {step : σ → Parse (Option σ)} (hstep : ∀ x, Steady (step x)) (n : Nat) (x : σ) :
    Steady (iterate step n x) := by
  induction n generalizing x with
  | zero => exact .fail
  | succ n ih =>
    refine .bind (hstep x) fun o => ?_
    cases o with
    | none => exact .pure
    | some y => exact ih y

theorem isArrowHere : Steady isArrowHere := fun _ _ _ => rfl

theorem headToken {top : Bracket} {stack below : List (Bracket × Nat)} {prev : Kind} :
    Steady (headToken top stack below prev) := by
  have slash : Steady (headSlash stack prev) :=
    .ite (.bind .rescan fun _ => .pure) .pure
  refine .bind .here fun pos => .bind .kind fun k => ?_
  split
  · exact .pure
  · exact .pure
  · exact .pure
  · exact .pure
  · exact .pure
  · exact .ite .pure .pure
  · exact .ite .pure .pure
  · split
    · exact .pure
    · exact .bind .rescan fun _ => .bind .kind fun _ => .ite .pure .pure
    · exact .pure
  · exact slash
  · exact slash
  · exact .pure

theorem recordArrowHead {offset : Nat} {isArrow : Bool} :
    Steady (recordArrowHead offset isArrow) := fun _ _ _ => rfl

theorem headStep {h : HeadScan} : Steady (headStep h) := by
  refine .ite .pure ?_
  split
  · exact .pure
  · extract_lets rest
    have hrest : ∀ u, Steady (rest u) := by
      refine fun u => .ite .pure (.bind .headToken fun o => ?_)
      split
      · exact .pure
      · exact .bind .kind fun _ => .bind .next fun _ => .pure
    clear_value rest
    split
    · exact .bind .isArrowHere fun _ => .bind .recordArrowHead hrest
    · exact hrest ()

theorem repeating {step : σ → Parse (Option σ)} (hstep : ∀ x, Steady (step x)) (x : σ) :
    Steady (repeating step x) := fun c m s => iterate hstep c.limit x c m s

theorem passArrowHead : Steady passArrowHead :=
  .bind .here fun _ => .bind .kind fun _ => .bind .next fun _ =>
    .bind (.repeating (fun _ => .headStep) _) fun _ => .ite .pure .isArrowHere

theorem startsArrow : Steady startsArrow := by
  refine .bind .kind fun k => ?_
  split
  · refine .bind .here fun opened => .bind .get fun s => ?_
    split
    · exact .pure
    · exact .bind (.lookAhead .passArrowHead) fun _ => .bind (fun _ _ _ => rfl) fun _ => .pure
  · refine .lookAhead (.bind .next fun _ => .bind .afterLineBreak fun _ => .ite .pure ?_)
    refine .bind .isPunct fun _ => .ite .pure (.bind .isPunct fun _ => .ite ?_ ?_)
    · exact .passArrowHead
    · exact .bind .isIdentifier fun _ => .ite (.bind .next fun _ => .isArrowHere) .pure
  · exact .bind .isIdentifier fun _ =>
      .ite (.lookAhead (.bind .next fun _ => .isArrowHere)) .pure

end Steady

/-! ## Rules -/

namespace Checked

variable {r r' : EStateM.Result Stop State α}

theorem mono {P' : α → Prop} (hr : Checked P r r') (h : ∀ a, P a → P' a) : Checked P' r r' := by
  cases hr with
  | ok ha => exact .ok (h _ ha)
  | error => exact .error
  | tooDeep hd => exact .tooDeep hd

theorem bind {x x' : EStateM Stop State α} {s : State}
    {k k' : α → EStateM Stop State β} (hx : Checked P (x s) (x' s))
    (hk : ∀ a s, P a → Checked Q (k a s) (k' a s)) :
    Checked Q (EStateM.bind x k s) (EStateM.bind x' k' s) := by
  unfold EStateM.bind
  generalize x s = r at hx
  generalize x' s = r' at hx
  cases hx with
  | ok ha => exact hk _ _ ha
  | error => exact .error
  | tooDeep hd => exact .tooDeep hd

end Checked

namespace Limits

theorem mono {P' : α → Prop} (hp : Limits p q c P) (h : ∀ a, P a → P' a) : Limits p q c P' :=
  fun m hm s => (hp m hm s).mono h

theorem of_steady (hp : Steady p) : Limits p p c fun _ => True := by
  intro m _ s
  rw [hp c m s]
  cases p c s with
  | ok => exact .ok trivial
  | error => exact .error

theorem pure {a : α} (h : P a) : Limits (Pure.pure a) (Pure.pure a) c P := fun _ _ _ => .ok h

theorem bind (hp : Limits p q c P) (hf : ∀ a, P a → Limits (f a) (g a) c Q) :
    Limits (p >>= f) (q >>= g) c Q := by
  intro m hm s
  exact Checked.bind (hp m hm s) fun a s ha => hf a ha m hm s

/-- A steady reader comes first. -/
theorem step (hp : Steady p) (hf : ∀ a, Limits (f a) (g a) c Q) :
    Limits (p >>= f) (p >>= g) c Q :=
  (of_steady hp).bind fun a _ => hf a

/-- Of the context all but the level of nesting is known. -/
theorem read {f g : Context → Parse β} (hg : ∀ m, g { c with nesting := m } = g c)
    (h : Limits (f c) (g c) c Q) : Limits (MonadReader.read >>= f) (MonadReader.read >>= g) c Q := by
  intro m hm s
  change Checked Q (f c c s) (g { c with nesting := m } { c with nesting := m } s)
  rw [hg]
  exact h m hm s

theorem map {h : α → β} (hp : Limits p q c fun a => Q (h a)) :
    Limits (h <$> p) (h <$> q) c Q := by
  rw [← bind_pure_comp, ← bind_pure_comp]
  exact hp.bind fun a ha => .pure ha

theorem fail {e : SyntaxError} : Limits (Grammar.fail e : Parse α) (Grammar.fail e) c P :=
  fun _ _ _ => .error

theorem throw {h : Stop} : Limits (throw h : Parse α) (throw h) c P :=
  fun _ _ _ => .error

theorem fail_bind {e : SyntaxError} : Limits (Grammar.fail e >>= f) (Grammar.fail e >>= g) c Q :=
  bind (P := fun _ => False) .fail fun _ h => h.elim

theorem throw_bind {h : Stop} :
    Limits ((MonadExcept.throw h : Parse α) >>= f) (MonadExcept.throw h >>= g) c Q :=
  bind (P := fun _ => False) .throw fun _ h => h.elim

theorem ite {b : Prop} [Decidable b] {p' q' : Parse α} (hp : b → Limits p q c P)
    (hp' : ¬b → Limits p' q' c P) : Limits (if b then p else p') (if b then q else q') c P := by
  split
  · exact hp ‹_›
  · exact hp' ‹_›

theorem unexpected : Limits (Grammar.unexpected : Parse α) Grammar.unexpected c P :=
  step .lexer fun _ => .ite (fun _ => .fail) fun _ => .fail

/-- Two ways that lead to one continuation. -/
theorem branch {b : Prop} [Decidable b] {p' q' : Parse α} (hp : b → Limits p q c P)
    (hp' : ¬b → Limits p' q' c P) (hf : ∀ a, P a → Limits (f a) (g a) c Q) :
    Limits (if b then p >>= f else p' >>= f) (if b then q >>= g else q' >>= g) c Q :=
  .ite (fun h => (hp h).bind hf) fun h => (hp' h).bind hf

/-- A steady detour. -/
theorem detour {b : Prop} [Decidable b] {p : Parse Unit} {f g : Unit → Parse β} (hp : Steady p)
    (hf : Limits (f ()) (g ()) c Q) :
    Limits (if b then p >>= f else f ()) (if b then p >>= g else g ()) c Q :=
  .ite (fun _ => step hp fun _ => hf) fun _ => hf

/-- An item that a test announces. -/
theorem optional {b : Prop} [Decidable b] {f g : Option α → Parse β} (hp : Limits p q c P)
    (hf : ∀ o : Option α, (∀ a ∈ o, P a) → Limits (f o) (g o) c Q) :
    Limits (if b then (some <$> p) >>= f else Pure.pure none >>= f)
      (if b then (some <$> q) >>= g else Pure.pure none >>= g) c Q :=
  branch (P := fun o => ∀ a ∈ o, P a)
    (fun _ => .map (hp.mono fun a ha b hb => by cases hb; exact ha)) (fun _ => .pure nofun) hf

theorem withIn (hp : Limits p q { c with noIn := false } P) :
    Limits (Grammar.withIn p) (Grammar.withIn q) c P := hp

theorem withoutIn (hp : Limits p q { c with noIn := true } P) :
    Limits (Grammar.withoutIn p) (Grammar.withoutIn q) c P := hp

theorem inFunction {traits : FunctionTraits}
    (hp : Limits p q { c with async := traits.isAsync, generator := traits.isGenerator } P) :
    Limits (Grammar.inFunction traits p) (Grammar.inFunction traits q) c P := hp

theorem nested (hp : c.nesting < maxNesting → Limits p q { c with nesting := c.nesting + 1 } P) :
    Limits (Grammar.nested p) (Grammar.nested q) c P := by
  intro m hm s
  unfold Grammar.nested
  dsimp only
  by_cases hlt : c.nesting < maxNesting
  · rw [if_pos hlt, if_pos (Nat.lt_of_le_of_lt hm hlt)]
    exact hp hlt (m + 1) (Nat.succ_le_succ hm) s
  · rw [if_neg hlt]
    exact .tooDeep rfl

/-! ## Repetition -/

theorem iterate {step step' : σ → Parse (Option σ)} {I : σ → Prop}
    (hstep : ∀ x, I x → Limits (step x) (step' x) c fun o => ∀ y ∈ o, I y) (n : Nat) {x : σ}
    (hx : I x) : Limits (Grammar.iterate step n x) (Grammar.iterate step' n x) c I := by
  induction n generalizing x with
  | zero => exact .fail
  | succ n ih =>
    refine (hstep x hx).bind fun o ho => ?_
    cases o with
    | none => exact .pure hx
    | some y => exact ih (ho y rfl)

theorem repeating {step step' : σ → Parse (Option σ)} {I : σ → Prop}
    (hstep : ∀ x, I x → Limits (step x) (step' x) c fun o => ∀ y ∈ o, I y) {x : σ} (hx : I x) :
    Limits (Grammar.repeating step x) (Grammar.repeating step' x) c I :=
  fun m hm s => iterate hstep c.limit hx m hm s

theorem collect {item item' : Parse (Option α)} (hitem : Limits item item' c fun o => ∀ a ∈ o, P a) :
    Limits (Grammar.collect item) (Grammar.collect item') c fun as => ∀ a ∈ as, P a := by
  refine .bind (.repeating (I := fun as => ∀ a ∈ as, P a) (fun as has => ?_) (x := []) nofun)
    fun as has => .pure fun a ha => has a (List.mem_reverse.1 ha)
  refine hitem.bind fun o ho => .pure fun bs hbs => ?_
  obtain ⟨a, ha, rfl⟩ := Option.map_eq_some_iff.1 hbs
  exact List.forall_mem_cons.2 ⟨ho a ha, has⟩

theorem commaList {close : Punctuator} {item item' : Parse α} (hitem : Limits item item' c P) :
    Limits (Grammar.commaList close item) (Grammar.commaList close item') c
      fun as => ∀ a ∈ as, P a := by
  have hsome : ∀ a, P a → ∀ b ∈ some a, P b := fun a ha b hb => Option.some.inj hb ▸ ha
  refine bind (collect (P := P) ?_) fun as has => step .next fun _ => .pure has
  refine step .isPunct fun _ => .ite (fun _ => .pure nofun) fun _ => ?_
  refine hitem.bind fun a ha => step .isPunct fun _ => ?_
  exact detour .expect (.pure (hsome a ha))

theorem arrayElements {item item' : Parse Tree} {P : Tree → Prop} (hitem : Limits item item' c P) :
    Limits (Grammar.arrayElements item) (Grammar.arrayElements item') c
      fun elements => ∀ t ∈ elements.filterMap id, P t := by
  have hsome : ∀ t, P t → ∀ o ∈ some (some t), ∀ u ∈ o, P u := by
    rintro t ht _ ⟨⟩ u ⟨⟩
    exact ht
  refine bind (collect (P := fun o => ∀ t ∈ o, P t) ?_) fun es hes => step .next fun _ => .pure ?_
  · refine step .isPunct fun _ => .ite (fun _ => .pure nofun) fun _ => ?_
    refine step .accept fun _ => .ite (fun _ => .pure ?_) fun _ => ?_
    · rintro _ ⟨⟩ t ht
      cases ht
    · refine hitem.bind fun t ht => step .isPunct fun _ => ?_
      exact detour .expect (.pure (hsome t ht))
  · intro t ht
    rw [List.mem_filterMap] at ht
    obtain ⟨o, ho, rfl⟩ := ht
    exact hes _ ho t rfl

/-! ## Nodes -/

theorem finish {P : Tree → Prop} {start : Nat} {form : Form Tree} (h : ∀ s e, P (.ofForm s e form)) :
    Limits (Grammar.finish start form) (Grammar.finish start form) c P :=
  fun _ _ s => .ok (h start (max s.prevStop start))

end Limits

end LoopClosure.Grammar
