import LoopClosure.Grammar.Arrow
import LoopClosure.Grammar.Binding
import LoopClosure.Proofs.Grammar.Yields
import LoopClosure.Proofs.Token.Lexemes

/-!
# What readers ensure

A `Track` is a state together with the tokens passed on the way to it, which no reader sees.
`Ensures p c s Q`: where `p` reads on from `s` without an error, `Q` holds of its value and of the
track behind it. There is one rule for each way in which readers are put together, and one equation
or lemma for each reader of a token. Looking ahead changes nothing that a later reader sees, and
passes no token (`Track.Same`).
-/

namespace LoopClosure.Grammar

open Syntax Token

/-- A state of the reader with the tokens passed on the way to it. -/
structure Track extends State where
  past : List Lexeme

variable {α β σ : Type} {c : Context} {s s' : Track} {p : Parse α} {f : α → Parse β}

namespace Track

/-- Offset of the current token. -/
def here (s : Track) : Nat := s.lexer.start.offset

def kind (s : Track) : Kind := s.lexer.kind

/-- Behind the current token. -/
def advance (s : Track) : Track where
  lexer := s.lexer.scan
  prevStop := s.lexer.cursor.offset
  arrowHeads := s.arrowHeads
  past := s.past ++ [s.lexer.lexeme]

/-- The tracks differ in what was recorded only. -/
structure Same (s s' : Track) : Prop where
  start : s'.lexer.start = s.lexer.start
  cursor : s'.lexer.cursor = s.lexer.cursor
  kind : s'.lexer.kind = s.lexer.kind
  value : s'.lexer.value = s.lexer.value
  prevStop : s'.prevStop = s.prevStop
  past : s'.past = s.past

theorem Same.refl (s : Track) : s.Same s := ⟨rfl, rfl, rfl, rfl, rfl, rfl⟩

theorem Same.trans {t : Track} (h : s.Same s') (h' : s'.Same t) : s.Same t :=
  ⟨h'.start.trans h.start, h'.cursor.trans h.cursor, h'.kind.trans h.kind, h'.value.trans h.value,
    h'.prevStop.trans h.prevStop, h'.past.trans h.past⟩

/-- The second track comes behind the first: tokens once passed stay so, and unless no token lies
between the two the current one of the first is the first to follow. -/
structure Leads (s s' : Track) : Prop where
  further : (s'.past = s.past ∧ s'.prevStop = s.prevStop ∧ s'.here = s.here) ∨
    ∃ k rest, s'.past = s.past ++ k :: rest ∧ k.start = s.here

theorem Leads.refl (s : Track) : s.Leads s := ⟨.inl ⟨rfl, rfl, rfl⟩⟩

theorem Leads.grows (h : s.Leads s') : s.past <+: s'.past := by
  rcases h.further with ⟨hpast, -, -⟩ | ⟨k, rest, hpast, -⟩
  · exact hpast ▸ List.prefix_rfl
  · exact hpast ▸ List.prefix_append _ _

theorem Leads.kept (h : s.Leads s') : s.past ⊆ s'.past := h.grows.subset

theorem Leads.passed (h : s.Leads s') :
    (s'.prevStop = s.prevStop ∧ s'.here = s.here) ∨ ∃ k ∈ s'.past, k.start = s.here := by
  rcases h.further with ⟨-, hsame⟩ | ⟨k, rest, hpast, hstart⟩
  · exact .inl hsame
  · exact .inr ⟨k, hpast ▸ List.mem_append_right _ List.mem_cons_self, hstart⟩

theorem Leads.trans {t : Track} (h : s.Leads s') (h' : s'.Leads t) : s.Leads t := by
  rcases h.further with ⟨hpast, hprev, hhere⟩ | ⟨k, rest, hpast, hstart⟩
  · exact ⟨hpast ▸ hprev ▸ hhere ▸ h'.further⟩
  · obtain ⟨more, hmore⟩ := h'.grows
    refine ⟨.inr ⟨k, rest ++ more, ?_, hstart⟩⟩
    rw [← hmore, hpast, List.append_assoc, List.cons_append]

theorem Same.leads (h : s.Same s') : s.Leads s' :=
  ⟨.inl ⟨h.past, h.prevStop, congrArg Text.Cursor.offset h.start⟩⟩

theorem leads_advance (s : Track) : s.Leads s.advance := ⟨.inr ⟨s.lexer.lexeme, [], rfl, rfl⟩⟩

end Track

def Ensures (p : Parse α) (c : Context) (s : Track) (Q : α → Track → Prop) : Prop :=
  ∀ a t, p c s.toState = .ok a t → ∃ past, s.Leads ⟨t, past⟩ ∧ Q a ⟨t, past⟩

/-- The reader ends with the value, on the track. -/
structure Runs (p : Parse α) (c : Context) (s : Track) (a : α) (s' : Track) : Prop where
  run : p c s.toState = .ok a s'.toState
  leads : s.Leads s'

/-! ## Rules -/

section Rules

variable {Q : β → Track → Prop} {P : α → Track → Prop}

theorem Ensures.mono {Q' : α → Track → Prop} (hp : Ensures p c s P)
    (h : ∀ a s', P a s' → Q' a s') : Ensures p c s Q' := by
  intro a t hr
  obtain ⟨past, hleads, hP⟩ := hp a t hr
  exact ⟨past, hleads, h a _ hP⟩

theorem Ensures.leads (hp : Ensures p c s P) : Ensures p c s fun a s' => s.Leads s' ∧ P a s' := by
  intro a t hr
  obtain ⟨past, hleads, hP⟩ := hp a t hr
  exact ⟨past, hleads, hleads, hP⟩

/-- What holds of all outcomes of a reader may be told along with its track. -/
theorem Ensures.and {R : α → State → Prop} (hp : Ensures p c s P)
    (hR : ∀ a t, p c s.toState = .ok a t → R a t) :
    Ensures p c s fun a s' => P a s' ∧ R a s'.toState := by
  intro a t hr
  obtain ⟨past, hleads, hP⟩ := hp a t hr
  exact ⟨past, hleads, hP, hR a t hr⟩

theorem Ensures.yields {R : α → Prop} (hp : Ensures p c s P) (hR : Yields p R) :
    Ensures p c s fun a s' => P a s' ∧ R a :=
  hp.and fun a t hr => hR c _ a t hr

/-- What holds of all values of a reader holds on any track. -/
theorem Ensures.of_yields {R : α → Prop} (hR : Yields p R) : Ensures p c s fun a _ => R a :=
  fun a t hr => ⟨s.past ++ [⟨s.kind, s.here, s.here⟩], ⟨.inr ⟨_, [], rfl, rfl⟩⟩, hR c _ a t hr⟩

theorem Ensures.pure {a : α} (h : P a s) : Ensures (pure a) c s P := by
  intro b t hr
  cases hr
  exact ⟨s.past, .refl s, h⟩

theorem Ensures.bind (hp : Ensures p c s P) (hf : ∀ a s', P a s' → Ensures (f a) c s' Q) :
    Ensures (p >>= f) c s Q := by
  intro b t hr
  change EStateM.bind (p c) (fun a => f a c) s.toState = .ok b t at hr
  unfold EStateM.bind at hr
  split at hr
  · next a u heq =>
    obtain ⟨past, hleads, hP⟩ := hp a u heq
    obtain ⟨past', hleads', hQ⟩ := hf a _ hP b t hr
    exact ⟨past', hleads.trans hleads', hQ⟩
  · cases hr

/-- A reader whose outcome is known. -/
theorem Ensures.done {a : α} {t : Track} (hp : Runs p c s a t) (h : P a t) : Ensures p c s P := by
  intro b u hr
  rw [hp.run] at hr
  cases hr
  exact ⟨t.past, hp.leads, h⟩

/-- A reader whose outcome is known comes first. -/
theorem Ensures.step {a : α} {t : Track} (hp : Runs p c s a t) (hf : Ensures (f a) c t Q) :
    Ensures (p >>= f) c s Q := by
  refine (Ensures.done (P := fun b u => b = a ∧ u = t) hp ⟨rfl, rfl⟩).bind ?_
  rintro b u ⟨rfl, rfl⟩
  exact hf

theorem Ensures.map {g : α → β} (hp : Ensures p c s fun a s' => Q (g a) s') :
    Ensures (g <$> p) c s Q := by
  rw [← bind_pure_comp]
  exact hp.bind fun a s' h => .pure h

theorem Ensures.ite {b : Prop} [Decidable b] {q : Parse α} (hp : b → Ensures p c s P)
    (hq : ¬b → Ensures q c s P) : Ensures (if b then p else q) c s P := by
  split
  · exact hp ‹_›
  · exact hq ‹_›

theorem Ensures.fail {e : SyntaxError} : Ensures (fail e) c s P := by
  intro a s' hr
  cases hr

theorem Ensures.fail_bind {e : SyntaxError} : Ensures (Grammar.fail e >>= f) c s Q :=
  Ensures.bind (P := fun _ _ => False) .fail fun _ _ h => h.elim

theorem Ensures.throw_bind {h : Stop} :
    Ensures ((throw h : Parse α) >>= f) c s Q := by
  refine Ensures.bind (P := fun _ _ => False) ?_ fun _ _ h => h.elim
  intro a s' hr
  cases hr

theorem Ensures.withIn (hp : Ensures p { c with noIn := false } s P) :
    Ensures (withIn p) c s P := hp

theorem Ensures.withoutIn (hp : Ensures p { c with noIn := true } s P) :
    Ensures (withoutIn p) c s P := hp

theorem Ensures.inFunction {traits : FunctionTraits}
    (hp : Ensures p { c with async := traits.isAsync, generator := traits.isGenerator } s P) :
    Ensures (inFunction traits p) c s P := hp

/-- Two ways that lead to one continuation. -/
theorem Ensures.branch {b : Bool} {q : Parse α} (hp : b = true → Ensures p c s P)
    (hq : ¬b = true → Ensures q c s P) (hf : ∀ a s', P a s' → Ensures (f a) c s' Q) :
    Ensures (if b = true then p >>= f else q >>= f) c s Q :=
  .ite (fun h => (hp h).bind hf) fun h => (hq h).bind hf

/-- A detour. -/
theorem Ensures.detour {b : Bool} {p : Parse Unit} {f : Unit → Parse β} {R : Track → Prop}
    (hp : b = true → Ensures p c s fun _ => R) (hs : ¬b = true → R s)
    (hf : ∀ u s', R s' → Ensures (f u) c s' Q) :
    Ensures (if b = true then p >>= f else f ()) c s Q :=
  .ite (fun h => (hp h).bind hf) fun h => hf () s (hs h)

/-- An item that a test announces. -/
theorem Ensures.optional {test : Parse Bool} {g : Option α → Parse β} {R : Track → Prop}
    {P : Option α → Track → Prop} (htest : Ensures test c s fun _ s' => R s')
    (hsome : ∀ s', R s' → Ensures p c s' fun a => P (some a)) (hnone : ∀ s', R s' → P none s')
    (hg : ∀ o s', P o s' → Ensures (g o) c s' Q) :
    Ensures (test >>= fun b => if b = true then (some <$> p) >>= g else Pure.pure none >>= g) c s
      Q :=
  htest.bind fun _ s' hs' =>
    .branch (fun _ => .map (hsome s' hs')) (fun _ => .pure (hnone s' hs')) hg

end Rules

/-! ## The current token -/

/-- A reader that only looks. -/
theorem Runs.look {a : α} (h : p c s.toState = .ok a s.toState) : Runs p c s a s := ⟨h, .refl s⟩

theorem pure_eq {a : α} : Runs (pure a) c s a s := .look rfl

theorem here_eq : Runs here c s s.here s := .look rfl

theorem kind_eq : Runs kind c s s.kind s := .look rfl

theorem lexer_eq : Runs lexer c s s.lexer s := .look rfl

theorem read_eq : Runs (read : Parse Context) c s c s := .look rfl

theorem get_eq : Runs (get : Parse State) c s s.toState s := .look rfl

theorem next_eq : Runs next c s () s.advance := ⟨rfl, s.leads_advance⟩

theorem afterLineBreak_eq : Runs afterLineBreak c s s.lexer.lineBreak s := .look rfl

theorem isPunct_eq {p : Punctuator} : Runs (isPunct p) c s (decide (s.kind = .punct p)) s :=
  .look rfl

theorem isWord_eq {k : Keyword} : Runs (isWord k) c s (decide (s.kind = .word k)) s := .look rfl

theorem isEnd_eq : Runs isEnd c s (decide (s.kind = .endOfFile)) s := .look rfl

/-- The current token read in another way. -/
def Track.rescan (g : Lexer → Lexer) (s : Track) : Track := { s with lexer := g s.lexer }

theorem Track.leads_rescan {g : Lexer → Lexer} (hg : (g s.lexer).start = s.lexer.start) :
    s.Leads (s.rescan g) :=
  ⟨.inl ⟨rfl, rfl, congrArg Text.Cursor.offset hg⟩⟩

theorem rescan_eq {g : Lexer → Lexer} (hg : (g s.lexer).start = s.lexer.start) :
    Runs (rescan g) c s () (s.rescan g) :=
  ⟨rfl, Track.leads_rescan hg⟩

theorem recordArrowHead_eq {offset : Nat} {isArrow : Bool} :
    Runs (recordArrowHead offset isArrow) c s ()
      { s with arrowHeads := (offset, isArrow) :: s.arrowHeads } where
  run := rfl
  leads := ⟨.inl ⟨rfl, rfl, rfl⟩⟩

/-- An identifier is a name. -/
theorem isIdentifier_spec :
    Ensures isIdentifier c s fun b s' => s' = s ∧ (b = true → s.kind.isName = true) := by
  refine .step kind_eq ?_
  generalize s.kind = k
  split
  · exact .pure ⟨rfl, fun _ => rfl⟩
  · exact .step read_eq (.pure ⟨rfl, fun _ => rfl⟩)
  · exact .step read_eq (.pure ⟨rfl, fun _ => rfl⟩)
  · refine .pure ⟨rfl, fun h => ?_⟩
    cases k with
    | word => rfl
    | _ => cases h

theorem canEndStatement_spec : Ensures canEndStatement c s fun _ s' => s' = s := by
  refine .step kind_eq ?_
  split
  · exact .pure rfl
  · exact .pure rfl
  · exact .pure rfl
  · exact .done afterLineBreak_eq rfl

theorem accept_spec {k : Kind} : Ensures (accept k) c s fun b s' =>
    b = true ∧ s.kind = k ∧ s' = s.advance ∨ b = false ∧ s' = s := by
  refine .step kind_eq (.ite (fun hk => ?_) fun _ => ?_)
  · exact .step next_eq (.pure (.inl ⟨rfl, hk, rfl⟩))
  · exact .pure (.inr ⟨rfl, rfl⟩)

theorem expect_spec {k : Kind} :
    Ensures (expect k) c s fun _ s' => s.kind = k ∧ s' = s.advance := by
  refine accept_spec.bind fun b s' h => ?_
  rcases h with ⟨rfl, hk, rfl⟩ | ⟨rfl, -⟩
  · exact .pure ⟨hk, rfl⟩
  · exact .fail

theorem Ensures.unexpected {P : α → Track → Prop} : Ensures unexpected c s P :=
  .step lexer_eq (.ite (fun _ => .fail) fun _ => .fail)

/-- What was found out on the way is all that is left of looking ahead. -/
theorem lookAhead_spec : Ensures (lookAhead p) c s fun _ s' => s.Same s' := by
  intro a t hr
  -- The tokens that `p` passes are dropped with its lexer.
  suffices hsame : s.Same ⟨t, s.past⟩ from ⟨s.past, hsame.leads, hsame⟩
  unfold lookAhead at hr
  change EStateM.bind (p c) _ s.toState = .ok a t at hr
  unfold EStateM.bind at hr
  split at hr
  · cases hr
    exact ⟨rfl, rfl, rfl, rfl, rfl, rfl⟩
  · cases hr

theorem startsArrow_spec : Ensures startsArrow c s fun _ s' => s.Same s' := by
  refine .step kind_eq ?_
  split
  · refine .step here_eq (.step get_eq ?_)
    split
    · exact .pure (.refl s)
    · refine lookAhead_spec.bind fun isArrow s' h => ?_
      exact .step recordArrowHead_eq (.pure (h.trans ⟨rfl, rfl, rfl, rfl, rfl, rfl⟩))
  · exact lookAhead_spec
  · refine isIdentifier_spec.bind fun b s' h => .ite (fun _ => h.1 ▸ lookAhead_spec) fun _ => ?_
    exact .pure (h.1 ▸ .refl s)

/-! ## What tokens do not change -/

/-- Kept by passing a token and by looking ahead. -/
structure Stable (I : Track → Prop) : Prop where
  advance {s : Track} (h : I s) (hk : s.kind ≠ .endOfFile) : I s.advance
  same {s s' : Track} (h : I s) (hs : s.Same s') : I s'

section Stable

variable {I : Track → Prop} (hI : Stable I) (hs : I s)
include hI hs

theorem Stable.accept {k : Kind} (hne : k ≠ .endOfFile) :
    Ensures (accept k) c s fun _ s' => I s' := by
  refine accept_spec.mono fun b s' h => ?_
  rcases h with ⟨-, hk, rfl⟩ | ⟨-, rfl⟩
  · exact hI.advance hs (hk ▸ hne)
  · exact hs

theorem Stable.acceptPunct {p : Punctuator} : Ensures (acceptPunct p) c s fun _ s' => I s' :=
  hI.accept hs nofun

theorem Stable.acceptWord {k : Keyword} : Ensures (acceptWord k) c s fun _ s' => I s' :=
  hI.accept hs nofun

theorem Stable.expect {k : Kind} (hne : k ≠ .endOfFile) :
    Ensures (expect k) c s fun _ s' => I s' :=
  expect_spec.mono fun _ _ h => h.2 ▸ hI.advance hs (h.1 ▸ hne)

theorem Stable.expectPunct {p : Punctuator} : Ensures (expectPunct p) c s fun _ s' => I s' :=
  hI.expect hs nofun

theorem Stable.expectWord {k : Keyword} :
    Ensures (Grammar.expect (.word k)) c s fun _ s' => I s' :=
  hI.expect hs nofun

theorem Stable.semicolon : Ensures semicolon c s fun _ s' => I s' := by
  refine (hI.acceptPunct hs).bind fun b s' hs' => .ite (fun _ => ?_) fun _ => .pure hs'
  exact canEndStatement_spec.bind fun b t ht =>
    .ite (fun _ => .fail) fun _ => .pure (ht ▸ hs')

end Stable

/-! ## Repetition -/

/-- A step that ends a repetition leaves the state as `Q` says. -/
theorem iterate_until {step : σ → Parse (Option σ)} {I : σ → Track → Prop} {Q : Track → Prop}
    (hstep : ∀ x s, I x s → Ensures (step x) c s fun o s' => I (o.getD x) s' ∧ (o = none → Q s'))
    (k : Nat) {x : σ} (hx : I x s) : Ensures (iterate step k x) c s fun x s' => I x s' ∧ Q s' := by
  induction k generalizing x s with
  | zero => exact .fail
  | succ k ih =>
    refine (hstep x s hx).bind fun o s' h => ?_
    cases o with
    | none => exact .pure ⟨h.1, h.2 rfl⟩
    | some y => exact ih h.1

theorem repeating_spec {step : σ → Parse (Option σ)} {I : σ → Track → Prop}
    (hstep : ∀ x s, I x s → Ensures (step x) c s fun o s' => I (o.getD x) s') {x : σ}
    (hx : I x s) : Ensures (repeating step x) c s I :=
  .step read_eq <| (iterate_until (Q := fun _ => True) (fun x s h => (hstep x s h).mono
    fun _ _ h => ⟨h, fun _ => trivial⟩) _ hx).mono fun _ _ h => h.1

theorem collect_until {item : Parse (Option α)} {I : List α → Track → Prop} {Q : Track → Prop}
    (hitem : ∀ as s, I as s → Ensures item c s fun o s' =>
      I (as ++ o.toList) s' ∧ (o = none → Q s')) (hs : I [] s) :
    Ensures (collect item) c s fun as s' => I as s' ∧ Q s' := by
  refine .bind (.step read_eq (iterate_until (I := fun as s => I as.reverse s) ?_ _ hs))
    fun as s' h => .pure h
  intro as s h
  refine (hitem _ s h).bind fun o s' h => .pure ?_
  cases o with
  | none => simpa using h
  | some a => simpa using h

theorem collect_spec {item : Parse (Option α)} {I : List α → Track → Prop}
    (hitem : ∀ as s, I as s → Ensures item c s fun o s' => I (as ++ o.toList) s') (hs : I [] s) :
    Ensures (collect item) c s I :=
  (collect_until (Q := fun _ => True) (fun as s h => (hitem as s h).mono
    fun _ _ h => ⟨h, fun _ => trivial⟩) hs).mono fun _ _ h => h.1

theorem commaList_spec {close : Punctuator} {item : Parse α} {I : List α → Track → Prop}
    (hI : ∀ as, Stable (I as))
    (hitem : ∀ as s, I as s → Ensures item c s fun a s' => I (as ++ [a]) s') (hs : I [] s) :
    Ensures (commaList close item) c s I := by
  refine (collect_until (I := I) (Q := fun s' => s'.kind = .punct close) (fun as s h => ?_) hs).bind
    fun as s' h => ?_
  · refine .step isPunct_eq (.ite (fun hclose => ?_) fun _ => ?_)
    · exact .pure ⟨by simpa using h, fun _ => of_decide_eq_true hclose⟩
    · refine (hitem as s h).bind fun a s' h => .step isPunct_eq (.ite (fun _ => ?_) fun _ => ?_)
      · exact ((hI _).expectPunct h).bind fun _ s' h => .pure ⟨h, nofun⟩
      · exact .pure ⟨h, nofun⟩
  · exact .step next_eq (.pure ((hI as).advance h.1 (by simp [h.2])))

theorem arrayElements_spec {item : Parse Tree} {I : List Tree → Track → Prop}
    (hI : ∀ ts, Stable (I ts))
    (hitem : ∀ ts s, I ts s → Ensures item c s fun t s' => I (ts ++ [t]) s') (hs : I [] s) :
    Ensures (arrayElements item) c s fun elements s' => I (elements.filterMap id) s' := by
  refine (collect_until (I := fun es s => I (es.filterMap id) s)
    (Q := fun s' => s'.kind = .punct .closeBracket) ?_ hs).bind fun es s' h =>
      .step next_eq (.pure ((hI _).advance h.1 (by simp [h.2])))
  intro es s h
  refine .step isPunct_eq (.ite (fun hclose => ?_) fun _ => ?_)
  · exact .pure ⟨by simpa using h, fun _ => of_decide_eq_true hclose⟩
  refine ((hI _).acceptPunct h).bind fun b s' h =>
    .ite (fun _ => .pure ⟨by simpa using h, nofun⟩) fun _ => ?_
  refine (hitem _ s' h).bind fun t s' h => .step isPunct_eq (.ite (fun _ => ?_) fun _ => ?_)
  · exact ((hI _).expectPunct h).bind fun _ s' h => .pure ⟨by simpa using h, nofun⟩
  · exact .pure ⟨by simpa using h, nofun⟩

end LoopClosure.Grammar
