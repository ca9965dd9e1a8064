import LoopClosure.Proofs.Grammar.Ahead
import LoopClosure.Proofs.Token.Stretches

/-!
# Readers that get on

A `Course` of a reader is how it went, step by step: what it did at each token, and where it looked
ahead. It comes to what lies behind a token by passing it, and no course passes the end of the text,
not even in a look-ahead. The tokens it passes for good are listed.

- `Course.sound`: a course is how the reader goes.
- `Course.ready`, `Course.length_le`: it stays at tokens, and each token that it passes is taken from
  what is left to read (`left`).
- `Paces e p c l Q`: with the token `l` in front, the reader `p` has a course, at the end of which `Q`
  holds unless it failed; if `e` holds it was not for lack of turns, and it aborted only behind a string
  that is not closed (`Outcome.Allows`). There is one rule for each way in which readers are put
  together, and one lemma for each reader of a token.
-/

namespace LoopClosure.Grammar

open Syntax Token

variable {α β σ : Type} {c : Context} {s s' : State} {p : Parse α} {f : α → Parse β}
  {ks ls : List Lexeme}

/-- What a reader sees of a state: the current token, and what was read before. -/
def State.view (s : State) : View where
  token := s.lexer.lexeme
  value := s.lexer.value
  text := s.lexer.text
  lineBreak := s.lexer.lineBreak
  prevStop := s.prevStop
  comments := s.lexer.comments.toList

/-- Behind the current token. -/
def State.advance (s : State) : State :=
  { s with prevStop := s.lexer.cursor.offset, lexer := s.lexer.scan }

/-- Where a reader ended. -/
def Outcome.state : EStateM.Result Stop State α → State
  | .ok _ s | .error _ s => s

/-- Back where the look-ahead began, unless it failed. -/
def Outcome.goBack (s : State) :
    EStateM.Result Stop State α → EStateM.Result Stop State α
  | .ok a s' => .ok a { s' with lexer := s'.lexer.restore s.lexer, prevStop := s.prevStop }
  | .error h s' => .error h s'

/-- How a reader goes, and the tokens that it passes. -/
inductive Course : {α : Type} → Parse α → Context → State → List Lexeme →
    EStateM.Result Stop State α → Prop where
  | done {α : Type} {c : Context} {s : State} (a : α) : Course (pure a) c s [] (.ok a s)
  | throw {α : Type} {c : Context} {s : State} (h : Stop) :
    Course (throw h : Parse α) c s [] (.error h s)
  /-- It looks first. -/
  | look {α : Type} {p : Parse α} {c : Context} {s : State} {ks : List Lexeme}
    {r : EStateM.Result Stop State α} (f : Context → View → Parse α)
    (hp : ∀ c s, p c s = f c s.view c s) (h : Course (f c s.view) c s ks r) : Course p c s ks r
  /-- It looks up what was found out about arrow heads. -/
  | lookUp {α : Type} {p : Parse α} {c : Context} {s : State} {ks : List Lexeme}
    {r : EStateM.Result Stop State α} (f : List (Nat × Bool) → Parse α)
    (hp : ∀ c s, p c s = f s.arrowHeads c s) (h : Course (f s.arrowHeads) c s ks r) :
    Course p c s ks r
  | record {c : Context} {s : State} (offset : Nat) (isArrow : Bool) :
    Course (recordArrowHead offset isArrow) c s []
      (.ok () { s with arrowHeads := (offset, isArrow) :: s.arrowHeads })
  /-- It passes a token, which is not the end of the text. -/
  | next {c : Context} {s : State} (hk : s.lexer.kind ≠ .endOfFile) :
    Course next c s [s.lexer.lexeme] (.ok () s.advance)
  | slash {c : Context} {s : State} :
    Course (rescan Lexer.rescanSlash) c s [] (.ok () { s with lexer := s.lexer.rescanSlash })
  | template {c : Context} {s : State} :
    Course (rescan Lexer.rescanTemplate) c s [] (.ok () { s with lexer := s.lexer.rescanTemplate })
  | bind {α β : Type} {p : Parse α} {f : α → Parse β} {c : Context} {s s' : State} {a : α}
    {ks ls : List Lexeme} {r : EStateM.Result Stop State β}
    (h : Course p c s ks (.ok a s')) (h' : Course (f a) c s' ls r) :
    Course (p >>= f) c s (ks ++ ls) r
  | stop {α β : Type} {p : Parse α} {f : α → Parse β} {c : Context} {s s' : State}
    {stop : Stop} {ks : List Lexeme} (h : Course p c s ks (.error stop s')) :
    Course (p >>= f) c s ks (.error stop s')
  /-- It reads in another place of the program. -/
  | within {α : Type} {p : Parse α} {c : Context} {s : State} {ks : List Lexeme}
    {r : EStateM.Result Stop State α} (g : Context → Context)
    (h : Course p (g c) s ks r) : Course (fun c => p (g c)) c s ks r
  /-- It looks ahead, and passes nothing for good. -/
  | lookAhead {α : Type} {p : Parse α} {c : Context} {s : State} {ks : List Lexeme}
    {r : EStateM.Result Stop State α} (h : Course p c s ks r) :
    Course (lookAhead p) c s [] (Outcome.goBack s r)

/-- What is left to read, from the current token on. -/
def left (l : Lexer) : Nat := l.start.rest.length

namespace Course

variable {r : EStateM.Result Stop State α}

/-- A course is how the reader goes. -/
theorem sound (h : Course p c s ks r) : p c s = r := by
  induction h with
  | done a => rfl
  | throw h => rfl
  | look f hp _ ih => rw [hp, ih]
  | lookUp f hp _ ih => rw [hp, ih]
  | record | next | slash | template => rfl
  | @bind _ _ p f c s s' a ks ls r _ _ ih ih' =>
    change EStateM.bind (p c) (fun a => f a c) s = r
    rw [EStateM.bind, ih]
    exact ih'
  | @stop _ _ p f c s s' h ks _ ih =>
    change EStateM.bind (p c) (fun a => f a c) s = .error h s'
    rw [EStateM.bind, ih]
  | within g _ ih => exact ih
  | @lookAhead _ p c s ks r _ ih =>
    change EStateM.bind (p c) _ s = Outcome.goBack s r
    rw [EStateM.bind, ih]
    cases r <;> rfl

/-- Nothing that was recorded gets lost, so that a look-ahead goes back to where it began. -/
theorem appends (h : Course p c s ks r) : s.lexer.Appends (Outcome.state r).lexer := by
  induction h with
  | done | throw | record => exact .refl _
  | look _ _ _ ih | lookUp _ _ _ ih | within _ _ ih | stop _ ih => exact ih
  | next => exact Lexer.scan_appends _
  | slash => exact Lexer.rescanSlash_appends _
  | template => exact Lexer.rescanTemplate_appends _
  | bind _ _ ih ih' => exact ih.trans ih'
  | @lookAhead _ p c s ks r _ ih =>
    cases r with
    | ok a s' =>
      have hback : s'.lexer.restore s.lexer = s.lexer := Lexer.restore_eq ih
      change s.lexer.Appends (s'.lexer.restore s.lexer)
      rw [hback]
      exact .refl _
    | error d s' => exact ih

/-- At a token a course comes to a token, behind as many as it passes. -/
theorem ready_length_le (h : Course p c s ks r) (hs : s.lexer.Ready) :
    (Outcome.state r).lexer.Ready ∧ left (Outcome.state r).lexer + ks.length ≤ left s.lexer := by
  induction h with
  | done | throw | record => exact ⟨hs, Nat.le_refl _⟩
  | look _ _ _ ih | lookUp _ _ _ ih | within _ _ ih | stop _ ih => exact ih hs
  | next hk => exact ⟨(Lexer.scan_ready _).1, length_scan_lt hs hk⟩
  | slash =>
    obtain ⟨hready, hstart⟩ := Lexer.rescanSlash_ready hs
    exact ⟨hready, Nat.le_of_eq (congrArg (fun start => start.rest.length) hstart)⟩
  | template =>
    obtain ⟨hready, hstart⟩ := Lexer.rescanTemplate_ready hs
    exact ⟨hready, Nat.le_of_eq (congrArg (fun start => start.rest.length) hstart)⟩
  | bind _ _ ih ih' =>
    obtain ⟨hready, hle⟩ := ih hs
    obtain ⟨hready', hle'⟩ := ih' hready
    refine ⟨hready', ?_⟩
    rw [List.length_append, Nat.add_left_comm]
    exact Nat.le_trans (Nat.add_le_add_left hle' _) (Nat.add_comm _ _ ▸ hle)
  | @lookAhead _ p c s ks r h ih =>
    obtain ⟨hready, hle⟩ := ih hs
    cases r with
    | ok a s' =>
      have hback : s'.lexer.restore s.lexer = s.lexer := Lexer.restore_eq h.appends
      change (s'.lexer.restore s.lexer).Ready ∧ left (s'.lexer.restore s.lexer) + 0 ≤ _
      rw [hback]
      exact ⟨hs, Nat.le_refl _⟩
    | error d s' => exact ⟨hready, Nat.le_trans (Nat.le_add_right _ _) hle⟩

theorem ready (h : Course p c s ks r) (hs : s.lexer.Ready) : (Outcome.state r).lexer.Ready :=
  (h.ready_length_le hs).1

theorem length_le (h : Course p c s ks r) (hs : s.lexer.Ready) :
    left (Outcome.state r).lexer + ks.length ≤ left s.lexer :=
  (h.ready_length_le hs).2

end Course

/-! ## Further on -/

variable {e : Prop} {k m limit : Nat} {o l l' : Lexer}

/-- At or behind the token. -/
structure Near (o l : Lexer) : Prop where
  ready : l.Ready
  le : left l ≤ left o
  told : o.Told → l.Told

/-- Behind the token. -/
structure Far (o l : Lexer) : Prop where
  ready : l.Ready
  lt : left l < left o
  told : o.Told → l.Told

theorem Near.refl (h : l.Ready) : Near l l := ⟨h, Nat.le_refl _, id⟩

theorem Far.near (h : Far o l) : Near o l := ⟨h.ready, Nat.le_of_lt h.lt, h.told⟩

theorem Near.trans (h : Near o l) (h' : Near l l') : Near o l' :=
  ⟨h'.ready, Nat.le_trans h'.le h.le, h'.told ∘ h.told⟩

theorem Near.far (h : Near o l) (h' : Far l l') : Far o l' :=
  ⟨h'.ready, Nat.lt_of_lt_of_le h'.lt h.le, h'.told ∘ h.told⟩

theorem Far.trans (h : Far o l) (h' : Near l l') : Far o l' :=
  ⟨h'.ready, Nat.lt_of_le_of_lt h'.le h.lt, h'.told ∘ h.told⟩

theorem far_scan (h : l.Ready) (hk : l.kind ≠ .endOfFile) : Far l l.scan :=
  ⟨(Lexer.scan_ready l).1, length_scan_lt h hk, fun _ => l.scan_told⟩

theorem near_slash (h : l.Ready) : Near l l.rescanSlash := by
  obtain ⟨hready, hstart⟩ := Lexer.rescanSlash_ready h
  exact ⟨hready, Nat.le_of_eq (congrArg (fun start => start.rest.length) hstart),
    Lexer.rescanSlash_told⟩

theorem near_template (h : l.Ready) : Near l l.rescanTemplate := by
  obtain ⟨hready, hstart⟩ := Lexer.rescanTemplate_ready h
  exact ⟨hready, Nat.le_of_eq (congrArg (fun start => start.rest.length) hstart),
    Lexer.rescanTemplate_told⟩

/-- At a token in front of which, if `e` holds, more turns of a repetition and, but for `k`, more
levels of rules are left than what is left to read can use up, and what is wrong with a string has been
reported. -/
structure Fed (e : Prop) (m k limit : Nat) (l : Lexer) : Prop where
  ready : l.Ready
  told : e → l.Told
  turns : e → left l < limit
  levels : e → 2 * left l + k ≤ m

namespace Fed

theorem mono {k' : Nat} (h : Fed e m k limit l) (hle : k' ≤ k) : Fed e m k' limit l where
  ready := h.ready
  told := h.told
  turns := h.turns
  levels he := Nat.le_trans (Nat.add_le_add_left hle _) (h.levels he)

theorem near (h : Fed e m k limit l) (h' : Near l l') : Fed e m k limit l' where
  ready := h'.ready
  told he := h'.told (h.told he)
  turns he := Nat.lt_of_le_of_lt h'.le (h.turns he)
  levels he := by
    have hle := h'.le
    have hlevels := h.levels he
    omega

/-- Each token is worth two levels. -/
theorem far (h : Fed e m k limit l) (h' : Far l l') : Fed e m 2 limit l' where
  ready := h'.ready
  told he := h'.told (h.told he)
  turns he := Nat.lt_trans h'.lt (h.turns he)
  levels he := by
    have hlt := h'.lt
    have hlevels := h.levels he
    omega

end Fed

/-! ## Rules -/

/-- What may stop a reader: a fault, but no lack of turns; and nothing aborts unless a string that is
not closed has been reported. -/
def Outcome.Allows (l : Lexer) : Stop → Prop
  | .fault d => d.error ≠ .unfinished
  | .abort => l.MissesQuote

/-- What an outcome has to be like. -/
def Outcome.Meets (e : Prop) (Q : α → Lexer → Prop) : EStateM.Result Stop State α → Prop
  | .ok a s => Q a s.lexer
  | .error stop s => e → Allows s.lexer stop

/-- The reader has a course from the token on, at the end of which `Q` holds unless it failed. -/
def Paces (e : Prop) (p : Parse α) (c : Context) (l : Lexer) (Q : α → Lexer → Prop) : Prop :=
  ∀ s : State, s.lexer = l → ∃ ks r, Course p c s ks r ∧ Outcome.Meets e Q r

/-- The reader finds the value without a step. -/
def Sees (p : Parse α) (c : Context) (l : Lexer) (a : α) : Prop :=
  ∀ s : State, s.lexer = l → Course p c s [] (.ok a s)

namespace Paces

variable {P : α → Lexer → Prop} {Q : β → Lexer → Prop}

theorem mono {P' : α → Lexer → Prop} (hp : Paces e p c l P) (h : ∀ a l', P a l' → P' a l') :
    Paces e p c l P' := by
  intro s hs
  obtain ⟨ks, r, hcourse, hmeets⟩ := hp s hs
  refine ⟨ks, r, hcourse, ?_⟩
  cases r with
  | ok a s' => exact h a _ hmeets
  | error stop s' => exact hmeets

theorem pure {a : α} (h : P a l) : Paces e (Pure.pure a) c l P := fun s hs =>
  ⟨[], .ok a s, .done a, show P a s.lexer from hs ▸ h⟩

theorem throw {d : SyntaxDiagnostic} (h : e → d.error ≠ .unfinished) :
    Paces e (MonadExcept.throw (.fault d)) c l P := fun s _ => ⟨[], .error _ s, .throw _, h⟩

theorem abort (h : e → l.MissesQuote) : Paces e Grammar.abort c l P := fun s hs =>
  ⟨[], .error .abort s, .throw _, fun he => hs ▸ h he⟩

theorem bind (hp : Paces e p c l P)
    (hf : ∀ a l', P a l' → Paces e (f a) c l' Q) :
    Paces e (p >>= f) c l Q := by
  intro s hs
  obtain ⟨ks, r, hcourse, hmeets⟩ := hp s hs
  cases r with
  | ok a s' =>
    obtain ⟨ls, r, hcourse', hmeets'⟩ := hf a s'.lexer hmeets s' rfl
    exact ⟨ks ++ ls, r, hcourse.bind hcourse', hmeets'⟩
  | error stop s' => exact ⟨ks, .error stop s', hcourse.stop, hmeets⟩

/-- A reader that only looks comes first. -/
theorem step {a : α} (hp : Sees p c l a) (hf : Paces e (f a) c l Q) : Paces e (p >>= f) c l Q :=
  bind (P := fun b l' => b = a ∧ l' = l)
    (fun s hs => ⟨[], .ok a s, hp s hs, rfl, hs⟩) fun _ _ ⟨ha, hl⟩ => ha ▸ hl ▸ hf

/-- The current token is passed. -/
theorem next {f : Unit → Parse β} (hk : l.kind ≠ .endOfFile) (hf : Paces e (f ()) c l.scan Q) :
    Paces e (Grammar.next >>= f) c l Q :=
  bind (P := fun _ l' => l' = l.scan)
    (fun _ hs => ⟨_, _, .next (hs ▸ hk), congrArg Lexer.scan hs⟩) fun _ _ h => h ▸ hf

theorem slash {f : Unit → Parse β} (hf : Paces e (f ()) c l.rescanSlash Q) :
    Paces e (rescan Lexer.rescanSlash >>= f) c l Q :=
  bind (P := fun _ l' => l' = l.rescanSlash)
    (fun _ hs => ⟨_, _, .slash, congrArg Lexer.rescanSlash hs⟩) fun _ _ h => h ▸ hf

theorem template {f : Unit → Parse β} (hf : Paces e (f ()) c l.rescanTemplate Q) :
    Paces e (rescan Lexer.rescanTemplate >>= f) c l Q :=
  bind (P := fun _ l' => l' = l.rescanTemplate)
    (fun _ hs => ⟨_, _, .template, congrArg Lexer.rescanTemplate hs⟩) fun _ _ h => h ▸ hf

theorem look (g : Context → View → Parse α) (hp : ∀ c s, p c s = g c s.view c s)
    (h : ∀ s : State, s.lexer = l → Paces e (g c s.view) c l P) : Paces e p c l P := by
  intro s hs
  obtain ⟨ks, r, hcourse, hmeets⟩ := h s hs s hs
  exact ⟨ks, r, .look g hp hcourse, hmeets⟩

/-- What was found out about arrow heads is looked up. -/
theorem lookUp {f : State → Parse α} (hf : ∀ s s' : State, s.arrowHeads = s'.arrowHeads → f s = f s')
    (h : ∀ s, Paces e (f s) c l P) : Paces e (get >>= f) c l P := by
  intro s hs
  let blank (heads : List (Nat × Bool)) : State := { lexer := .ofText [], arrowHeads := heads }
  have hblank : f s = f (blank s.arrowHeads) := hf s (blank s.arrowHeads) rfl
  obtain ⟨ks, r, hcourse, hmeets⟩ := h (blank s.arrowHeads) s hs
  refine ⟨ks, r, .lookUp (fun heads => f (blank heads)) (fun c t => ?_) hcourse, hmeets⟩
  exact congrFun (congrFun (hf t (blank t.arrowHeads) rfl) c) t

theorem record {offset : Nat} {isArrow : Bool} :
    Paces e (recordArrowHead offset isArrow) c l fun _ l' => l' = l := fun _ hs =>
  ⟨_, _, .record offset isArrow, hs⟩

theorem within (g : Context → Context) (hp : Paces e p (g c) l P) :
    Paces e (fun c => p (g c)) c l P := by
  intro s hs
  obtain ⟨ks, r, hcourse, hmeets⟩ := hp s hs
  exact ⟨ks, r, .within g hcourse, hmeets⟩

/-- Looking ahead goes back. -/
theorem lookAhead {P : α → Lexer → Prop} (hp : Paces e p c l P) :
    Paces e (lookAhead p) c l fun _ l' => l' = l := by
  intro s hs
  obtain ⟨ks, r, hcourse, hmeets⟩ := hp s hs
  refine ⟨[], _, hcourse.lookAhead, ?_⟩
  cases r with
  | ok a s' => exact (Lexer.restore_eq hcourse.appends).trans hs
  | error stop s' => exact hmeets

theorem map {g : α → β} (hp : Paces e p c l fun a l' => Q (g a) l') : Paces e (g <$> p) c l Q := by
  rw [← bind_pure_comp]
  exact hp.bind fun _ _ h => .pure h

theorem ite {b : Prop} [Decidable b] {q : Parse α} (hp : b → Paces e p c l P)
    (hq : ¬b → Paces e q c l P) : Paces e (if b then p else q) c l P := by
  split
  · exact hp ‹_›
  · exact hq ‹_›

/-- Two ways that lead to one continuation. -/
theorem branch {b : Prop} [Decidable b] {q : Parse α} (hp : b → Paces e p c l P)
    (hq : ¬b → Paces e q c l P) (hf : ∀ a l', P a l' → Paces e (f a) c l' Q) :
    Paces e (if b then p >>= f else q >>= f) c l Q :=
  .ite (fun h => (hp h).bind hf) fun h => (hq h).bind hf

/-- A detour. -/
theorem detour {b : Prop} [Decidable b] {p : Parse Unit} {f : Unit → Parse β} {R : Lexer → Prop}
    (hp : b → Paces e p c l fun _ => R) (hl : ¬b → R l)
    (hf : ∀ u l', R l' → Paces e (f u) c l' Q) : Paces e (if b then p >>= f else f ()) c l Q :=
  .ite (fun h => (hp h).bind hf) fun h => hf () l (hl h)

/-- An item that a test announces. -/
theorem optional {b : Bool} {g : Option α → Parse β} {R : Lexer → Prop}
    (hp : b = true → Paces e p c l fun _ => R) (hl : ¬b = true → R l)
    (hg : ∀ o l', R l' → Paces e (g o) c l' Q) :
    Paces e (if b = true then (some <$> p) >>= g else Pure.pure none >>= g) c l Q :=
  .branch (P := fun _ => R) (fun h => .map (hp h)) (fun h => .pure (hl h)) hg

theorem withIn (hp : Paces e p { c with noIn := false } l P) : Paces e (withIn p) c l P :=
  .within (fun c => { c with noIn := false }) hp

theorem withoutIn (hp : Paces e p { c with noIn := true } l P) : Paces e (withoutIn p) c l P :=
  .within (fun c => { c with noIn := true }) hp

theorem inFunction {traits : FunctionTraits}
    (hp : Paces e p { c with async := traits.isAsync, generator := traits.isGenerator } l P) :
    Paces e (inFunction traits p) c l P :=
  .within (fun c => { c with async := traits.isAsync, generator := traits.isGenerator }) hp

theorem fail {x : SyntaxError} (hx : e → x ≠ .unfinished) : Paces e (Grammar.fail x) c l P :=
  .look (fun _ v => MonadExcept.throw (.fault ⟨v.token.start, v.token.stop - v.token.start, x⟩))
    (fun _ _ => rfl) fun _ _ => .throw hx

theorem unexpected : Paces e Grammar.unexpected c l P :=
  .look (fun _ v => if v.token.kind = .endOfFile then Grammar.fail .unexpectedEnd
      else Grammar.fail (.unexpectedToken v.text)) (fun _ _ => rfl) fun _ _ =>
    .ite (fun _ => .fail nofun) fun _ => .fail nofun

theorem nested (hp : Paces e p { c with nesting := c.nesting + 1 } l P) :
    Paces e (nested p) c l P := by
  refine .look (fun c _ => if c.nesting < maxNesting then
      fun c => p { c with nesting := c.nesting + 1 } else Grammar.fail .nestingTooDeep) ?_ fun _ _ =>
    .ite (fun _ => .within (fun c => { c with nesting := c.nesting + 1 }) hp) fun _ => .fail nofun
  intro c s
  unfold Grammar.nested
  by_cases h : c.nesting < maxNesting
  · rw [if_pos h, if_pos h]
  · rw [if_neg h, if_neg h]

end Paces

/-- What leads behind the token leads behind those in front of it. -/
theorem Near.paces (hl : Near o l) (hp : Paces e p c l fun _ => Far l) :
    Paces e p c l fun _ => Far o :=
  hp.mono fun _ _ h => hl.far h

theorem Far.paces (hl : Far o l) (hp : Paces e p c l fun _ => Far l) :
    Paces e p c l fun _ => Far o :=
  hl.near.paces hp

theorem Far.stays (hl : Far o l) (hp : Paces e p c l fun _ => Near l) :
    Paces e p c l fun _ => Far o :=
  hp.mono fun _ _ h => hl.trans h

/-! ## The current token -/

section Token

theorem kind_sees : Sees kind c l l.kind := by
  rintro s rfl
  exact .look (fun _ v => pure v.token.kind) (fun _ _ => rfl) (.done _)

theorem here_sees : Sees here c l l.start.offset := by
  rintro s rfl
  exact .look (fun _ v => pure v.token.start) (fun _ _ => rfl) (.done _)

theorem afterLineBreak_sees : Sees afterLineBreak c l l.lineBreak := by
  rintro s rfl
  exact .look (fun _ v => pure v.lineBreak) (fun _ _ => rfl) (.done _)

theorem read_sees : Sees (read : Parse Context) c l c := fun _ _ =>
  .look (fun c _ => pure c) (fun _ _ => rfl) (.done _)

theorem isPunct_sees {p : Punctuator} : Sees (isPunct p) c l (decide (l.kind = .punct p)) := by
  rintro s rfl
  exact .look (fun _ v => pure (decide (v.token.kind = .punct p))) (fun _ _ => rfl) (.done _)

theorem isWord_sees {k : Keyword} : Sees (isWord k) c l (decide (l.kind = .word k)) := by
  rintro s rfl
  exact .look (fun _ v => pure (decide (v.token.kind = .word k))) (fun _ _ => rfl) (.done _)

theorem isEnd_sees : Sees isEnd c l (decide (l.kind = .endOfFile)) := by
  rintro s rfl
  exact .look (fun _ v => pure (decide (v.token.kind = .endOfFile))) (fun _ _ => rfl) (.done _)

theorem finish_form {start : Nat} {form : Form Tree} {R : Lexer → Prop} (h : R l) :
    Paces e (finish start form) c l fun t l' => R l' ∧ t.form = form.number :=
  .look (fun _ v => pure (.ofForm start (max v.prevStop start) form)) (fun _ _ => rfl) fun _ _ =>
    .pure ⟨h, rfl⟩

theorem finish_paces {start : Nat} {form : Form Tree} {R : Lexer → Prop} (h : R l) :
    Paces e (finish start form) c l fun _ => R :=
  (finish_form h).mono fun _ _ h => h.1

theorem isIdentifier_paces : Paces e isIdentifier c l fun b l' =>
    l' = l ∧ (b = true → l.kind.isName = true) := by
  refine .step kind_sees ?_
  generalize l.kind = k
  split
  · exact .pure ⟨rfl, fun _ => rfl⟩
  · exact .step read_sees (.pure ⟨rfl, fun _ => rfl⟩)
  · exact .step read_sees (.pure ⟨rfl, fun _ => rfl⟩)
  · refine .pure ⟨rfl, fun h => ?_⟩
    cases k with
    | word => rfl
    | _ => cases h

theorem canEndStatement_paces : Paces e canEndStatement c l fun _ l' => l' = l := by
  refine .step kind_sees ?_
  split
  · exact .pure rfl
  · exact .pure rfl
  · exact .pure rfl
  · exact fun s hs => ⟨[], _, afterLineBreak_sees s hs, hs⟩

/-- The end of the text is no name. -/
theorem ne_end_of_isName {k : Kind} (h : k.isName = true) : k ≠ .endOfFile := by
  rintro rfl
  cases h

variable (hl : l.Ready)
include hl

/-- A token that is passed if it is the one. -/
theorem accept_paces {k : Kind} (hk : k ≠ .endOfFile) : Paces e (accept k) c l fun b l' =>
    b = true ∧ Far l l' ∨ b = false ∧ l' = l := by
  refine .step kind_sees (.ite (fun heq => ?_) fun _ => .pure (.inr ⟨rfl, rfl⟩))
  exact .next (heq ▸ hk) (.pure (.inl ⟨rfl, far_scan hl (heq ▸ hk)⟩))

theorem acceptPunct_paces {p : Punctuator} : Paces e (acceptPunct p) c l fun b l' =>
    b = true ∧ Far l l' ∨ b = false ∧ l' = l :=
  accept_paces hl nofun

theorem acceptWord_paces {k : Keyword} : Paces e (acceptWord k) c l fun b l' =>
    b = true ∧ Far l l' ∨ b = false ∧ l' = l :=
  accept_paces hl nofun

theorem acceptPunct_near {p : Punctuator} : Paces e (acceptPunct p) c l fun _ => Near l := by
  refine (acceptPunct_paces hl).mono fun _ l' h => ?_
  rcases h with ⟨-, hfar⟩ | ⟨-, rfl⟩
  · exact hfar.near
  · exact .refl hl

theorem acceptWord_near {k : Keyword} : Paces e (acceptWord k) c l fun _ => Near l := by
  refine (acceptWord_paces hl).mono fun _ l' h => ?_
  rcases h with ⟨-, hfar⟩ | ⟨-, rfl⟩
  · exact hfar.near
  · exact .refl hl

omit hl in
theorem Far.acceptPunct {p : Punctuator} (h : Far o l) :
    Paces e (Grammar.acceptPunct p) c l fun _ => Far o :=
  h.stays (acceptPunct_near h.ready)

omit hl in
theorem Far.acceptWord {k : Keyword} (h : Far o l) :
    Paces e (Grammar.acceptWord k) c l fun _ => Far o :=
  h.stays (acceptWord_near h.ready)

theorem expect_paces {k : Kind} (hk : k ≠ .endOfFile) :
    Paces e (expect k) c l fun _ => Far l := by
  refine (accept_paces hl hk).bind fun b l' h => ?_
  rcases h with ⟨rfl, hfar⟩ | ⟨rfl, -⟩
  · exact .pure hfar
  · exact .fail nofun

theorem expectPunct_paces {p : Punctuator} : Paces e (expectPunct p) c l fun _ => Far l :=
  expect_paces hl nofun

theorem expectWord_paces {k : Keyword} : Paces e (expect (.word k)) c l fun _ => Far l :=
  expect_paces hl nofun

theorem semicolon_paces : Paces e semicolon c l fun _ => Near l := by
  refine (acceptPunct_paces hl).bind fun b l' h => ?_
  rcases h with ⟨rfl, hfar⟩ | ⟨rfl, rfl⟩
  · exact .pure hfar.near
  · refine canEndStatement_paces.bind ?_
    rintro b _ rfl
    exact .ite (fun _ => .fail nofun) fun _ => .pure (.refl hl)

/-- A name has the value of its token. -/
theorem identifierName_form : Paces e identifierName c l fun t l' =>
    Far l l' ∧ t.form = .identifier l.value := by
  refine .step kind_sees (.ite (fun _ => .bind (P := fun _ _ => False) (.fail nofun)
    fun _ _ h => h.elim) fun hname => ?_)
  rw [Bool.not_eq_true', Bool.not_eq_false] at hname
  have hk := ne_end_of_isName hname
  refine .step here_sees (.look (fun _ v => do
    next
    finish l.start.offset (.identifier v.value)) (fun _ _ => rfl) fun s hs => .next hk ?_)
  exact (finish_form (far_scan hl hk)).mono fun _ _ h => ⟨h.1, h.2.trans (hs ▸ rfl)⟩

theorem identifierName_paces : Paces e identifierName c l fun _ => Far l :=
  (identifierName_form hl).mono fun _ _ h => h.1

theorem identifier_paces : Paces e identifier c l fun _ => Far l := by
  refine isIdentifier_paces.bind ?_
  rintro b _ ⟨rfl, -⟩
  exact .ite (fun _ => .bind (P := fun _ _ => False) (.fail nofun) fun _ _ h => h.elim) fun _ =>
    identifierName_paces hl

omit hl in
/-- A literal has the text of its token. -/
theorem literal_form {kind : LiteralKind} (hk : l.kind ≠ .endOfFile) :
    Paces e (literal kind) c l fun t l' => l' = l.scan ∧ t.form = .literal kind l.text := by
  refine .step here_sees (.look (fun _ v => do
    next
    finish l.start.offset (.literal kind v.text)) (fun _ _ => rfl) fun s hs => .next hk ?_)
  exact (finish_form (R := (· = l.scan)) rfl).mono fun _ _ h => ⟨h.1, h.2.trans (hs ▸ rfl)⟩

theorem literal_paces {kind : LiteralKind} (hk : l.kind ≠ .endOfFile) :
    Paces e (literal kind) c l fun _ => Far l :=
  (literal_form hk).mono fun _ _ h => h.1 ▸ far_scan hl hk

end Token

/-! ## Repetition -/

/-- A turn leaves fewer turns and the invariant as it was, or it is the last one. -/
def Shortens (turns : σ → Lexer → Nat) (I : σ → Lexer → Prop) (Q : Lexer → Prop) (x : σ) (l : Lexer) :
    Option σ → Lexer → Prop
  | some y, l' => I y l' ∧ turns y l' < turns x l
  | none, l' => Q l'

/-- A repetition ends whose turns become fewer. -/
theorem iterate_paces {step : σ → Parse (Option σ)} {t : σ → Lexer → Nat}
    {I : σ → Lexer → Prop} {Q : Lexer → Prop}
    (hstep : ∀ x l, I x l → Paces e (step x) c l (Shortens t I Q x l)) {n : Nat} {x : σ}
    (hn : e → t x l < n) (hx : I x l) : Paces e (iterate step n x) c l fun _ => Q := by
  induction n generalizing x l with
  | zero => exact .fail fun he => absurd (hn he) (Nat.not_lt_zero _)
  | succ n ih =>
    refine (hstep x l hx).bind fun y l' h => ?_
    cases y with
    | none => exact .pure h
    | some y => exact ih (fun he => by have := hn he; have := h.2; omega) h.1

/-- A turn of a list goes on behind the current token, or the list ends in front of it. -/
def Goes (l : Lexer) (Q : Lexer → Prop) : Option α → Lexer → Prop
  | some _, l' => Far l l'
  | none, l' => l' = l ∧ Q l

theorem collect_paces {item : Parse (Option α)} {Q : Lexer → Prop} (h : Fed e m k c.limit o)
    (hitem : ∀ l, Near o l → Paces e item c l (Goes l Q)) :
    Paces e (collect item) c o fun _ l' => Near o l' ∧ Q l' := by
  refine .bind (.step read_sees (iterate_paces (t := fun _ => left) (I := fun _ => Near o)
    (Q := fun l' => Near o l' ∧ Q l') ?_ h.turns (.refl h.ready))) fun _ _ h => .pure h
  intro as l hl
  refine (hitem l hl).bind fun a l' h => .pure ?_
  cases a with
  | none =>
    obtain ⟨rfl, hQ⟩ := h
    exact ⟨hl, hQ⟩
  | some a => exact ⟨(hl.far h).near, h.lt⟩

/-- The token that closes a list is passed. -/
theorem Paces.close {close : Punctuator} {f : Unit → Parse β} {Q : β → Lexer → Prop}
    (hl : Near o l ∧ l.kind = .punct close) (hf : Far o l.scan → Paces e (f ()) c l.scan Q) :
    Paces e (Grammar.next >>= f) c l Q := by
  obtain ⟨hl, hclose⟩ := hl
  have hk : l.kind ≠ .endOfFile := by simp [hclose]
  exact .next hk (hf (hl.far (far_scan hl.ready hk)))

theorem commaItem_paces {close : Punctuator} {item : Parse α} (hitem : Paces e item c l fun _ => Far l) :
    Paces e (commaItem close item) c l (Goes l fun l => l.kind = .punct close) := by
  refine .step isPunct_sees (.ite (fun hclose => .pure ⟨rfl, of_decide_eq_true hclose⟩) fun _ => ?_)
  refine hitem.bind fun a l' h => .step isPunct_sees <| .detour (R := Far l) (fun _ => ?_)
    (fun _ => h) fun _ _ h => .pure h
  exact (expectPunct_paces h.ready).mono fun _ _ h' => h.trans h'.near

theorem arrayItem_paces {item : Parse Tree} (hl : l.Ready) (hitem : Paces e item c l fun _ => Far l) :
    Paces e (arrayItem item) c l (Goes l fun l => l.kind = .punct .closeBracket) := by
  refine .step isPunct_sees (.ite (fun hclose => .pure ⟨rfl, of_decide_eq_true hclose⟩) fun _ => ?_)
  refine (acceptPunct_paces hl).bind fun b l' h => ?_
  rcases h with ⟨rfl, hfar⟩ | ⟨rfl, rfl⟩
  · exact .pure hfar
  refine hitem.bind fun a _ h => .step isPunct_sees <| .detour (R := Far l') (fun _ => ?_)
    (fun _ => h) fun _ _ h => .pure h
  exact (expectPunct_paces h.ready).mono fun _ _ h' => h.trans h'.near

theorem commaList_paces {close : Punctuator} {item : Parse α} (h : Fed e m k c.limit o)
    (hitem : ∀ l, Near o l → Paces e item c l fun _ => Far l) :
    Paces e (commaList close item) c o fun _ => Far o :=
  .bind (collect_paces h fun l hl => commaItem_paces (hitem l hl)) fun _ _ hl =>
    .close hl fun hfar => .pure hfar

theorem arrayElements_paces {item : Parse Tree} (h : Fed e m k c.limit o)
    (hitem : ∀ l, Near o l → Paces e item c l fun _ => Far l) :
    Paces e (arrayElements item) c o fun _ => Far o :=
  .bind (collect_paces h fun l hl => arrayItem_paces hl.ready (hitem l hl)) fun _ _ hl =>
    .close hl fun hfar => .pure hfar

theorem behindComma_paces {p : Parse α} (hl : l.Ready)
    (hp : ∀ l', Far l l' → Paces e p c l' fun _ => Far l') :
    Paces e (behindComma p) c l (Goes l fun _ => True) := by
  refine (acceptPunct_paces hl).bind fun b l' h => ?_
  rcases h with ⟨rfl, hfar⟩ | ⟨rfl, rfl⟩
  · exact (hp l' hfar).bind fun _ _ h => .pure (hfar.trans h.near)
  · exact .pure ⟨rfl, trivial⟩

end LoopClosure.Grammar
