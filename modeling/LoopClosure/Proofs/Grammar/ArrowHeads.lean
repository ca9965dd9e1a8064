import LoopClosure.Proofs.Grammar.Skips
import LoopClosure.Proofs.Grammar.Untraced

/-!
# Arrow heads are remembered right

Whether a parenthesis opens the parameters of an arrow function is found out once and remembered.
What is remembered of a parenthesis is what a skip from it gives where nothing is remembered
(`SkipGives`); so the grammar reads as if it forgot all that it found out (`forgetting`).

- `Both p c s t Q`: the reader ends from `s` and from `t` with one value.
- `question_both`: what the grammar asks has one answer, whatever was found before.
- `run_minded`: a walk remembers what is right at every moment, and it is the walk that remembers
  nothing.
-/

namespace LoopClosure.Grammar

open Syntax Token
open Text (Cursor size)
open Text.Cursor

variable {α β σ : Type} {cs : List Char} {c : Context} {limit : Nat}

/-! ## Skips that remember nothing -/

/-- The lexer stands at the parenthesis that opens at `offset`. -/
structure OpensAt (cs : List Char) (offset : Nat) (l : Lexer) : Prop where
  within : l.Within cs
  ready : l.Ready
  kind : l.kind = .punct .openParen
  start : l.start.offset = offset

/-- A parenthesis opens at `offset`, and to pass over it where nothing is remembered gives `b`. -/
structure SkipGives (cs : List Char) (offset : Nat) (b : Bool) : Prop where
  opens : ∃ l, OpensAt cs offset l
  gives : ∀ (c : Context) (s : State), cs.length + 2 ≤ c.limit → OpensAt cs offset s.lexer →
    s.arrowHeads = [] → ∃ s', passArrowHead c s = .ok b s'

theorem exists_opensAt {start : Cursor} (hreach : Reach (.ofText cs) start)
    (hpeek : start.peek? = some '(') : ∃ l, OpensAt cs start.offset l := by
  obtain ⟨rest, hrest⟩ : ∃ rest, start.rest = '(' :: rest := List.head?_eq_some_iff.1 hpeek
  have hne : start.rest ≠ [] := hrest ▸ List.cons_ne_nil _ _
  have hnext : start.next = ⟨start.offset + 1, rest⟩ := by
    rw [Text.Cursor.next, hrest]
    rfl
  have htext : start.upTo start.next.offset = ['('] := by
    obtain ⟨hpassed, -⟩ := (reach_next start).rest_eq
    rw [hrest, show start.next.rest = rest by rw [hnext]] at hpassed
    exact (List.append_cancel_right (show ['('] ++ rest = _ from hpassed)).symm
  refine ⟨⟨start.next, .punct .openParen, start, "(", false, #[], #[]⟩, ?_, ?_, rfl, rfl⟩
  · exact ⟨hreach, reach_next _, fun _ => ⟨rest, hrest⟩⟩
  · refine ⟨reach_next _, fun _ => offset_lt_next hne, fun _ => hne, fun _ => ?_, fun _ => ?_⟩
    · rw [Lexer.text, htext]
    · exact ⟨rest, hrest, by rw [hnext]; rfl⟩

theorem HeadAnswer.skipGives {offset : Nat} {b : Bool} (h : HeadAnswer cs offset b) :
    SkipGives cs offset b := by
  constructor
  case opens =>
    obtain ⟨-, ⟨start, hreach, rfl, hpeek, -⟩, -⟩ := h
    exact exists_opensAt hreach hpeek
  case gives =>
    intro c s hlimit hopens hempty
    have hsound : HeadsSound cs s.arrowHeads := hempty ▸ headsSound_nil cs
    obtain ⟨b', s', hrun, hanswer, -⟩ :=
      passArrowHead_answers hopens.within hopens.ready hopens.kind hlimit hsound
    rw [hopens.start] at hanswer
    exact ⟨s', h.unique hanswer ▸ hrun⟩

/-! ## One value from two states -/

/-- The reader ends from both states, with one value. -/
def Both (p : Parse α) (c : Context) (s t : State) (Q : α → State → State → Prop) : Prop :=
  ∃ a s' t', p c s = .ok a s' ∧ p c t = .ok a t' ∧ Q a s' t'

namespace Both

variable {p q : Parse α} {f : α → Parse β} {s t : State} {P : α → State → State → Prop}
  {Q : β → State → State → Prop}

theorem pure {a : α} (h : P a s t) : Both (Pure.pure a) c s t P := ⟨a, s, t, rfl, rfl, h⟩

theorem bind (hp : Both p c s t P) (hf : ∀ a s' t', P a s' t' → Both (f a) c s' t' Q) :
    Both (p >>= f) c s t Q := by
  obtain ⟨a, s', t', hs, ht, ha⟩ := hp
  obtain ⟨b, s₂, t₂, hs₂, ht₂, hb⟩ := hf a s' t' ha
  refine ⟨b, s₂, t₂, ?_, ?_, hb⟩
  · change EStateM.bind (p c) (fun a => f a c) s = _
    rw [EStateM.bind, hs]
    exact hs₂
  · change EStateM.bind (p c) (fun a => f a c) t = _
    rw [EStateM.bind, ht]
    exact ht₂

/-- A reader whose outcomes are known comes first. -/
theorem step {a : α} {s' t' : State} (hs : p c s = .ok a s') (ht : p c t = .ok a t')
    (hf : Both (f a) c s' t' Q) : Both (p >>= f) c s t Q := by
  refine bind (P := fun b s₂ t₂ => b = a ∧ s₂ = s' ∧ t₂ = t') ⟨a, s', t', hs, ht, rfl, rfl, rfl⟩ ?_
  rintro _ _ _ ⟨rfl, rfl, rfl⟩
  exact hf

theorem ite {b : Prop} [Decidable b] (hp : b → Both p c s t P) (hq : ¬b → Both q c s t P) :
    Both (if b then p else q) c s t P := by
  split
  · exact hp ‹_›
  · exact hq ‹_›

/-- Two runs whose values have to be equal. -/
theorem of_ends {S T : α → State → Prop} (hs : Ends p c s S) (ht : Ends p c t T)
    (h : ∀ a b s' t', S a s' → T b t' → a = b ∧ P a s' t') : Both p c s t P := by
  obtain ⟨a, s', hs, ha⟩ := hs
  obtain ⟨b, t', ht, hb⟩ := ht
  obtain ⟨rfl, hP⟩ := h a b s' t' ha hb
  exact ⟨a, s', t', hs, ht, hP⟩

end Both

/-! ## Questions -/

variable {s t s' t' : State}

/-- A lexer in front of the first token, or at a token of the text. -/
structure Stands (cs : List Char) (l : Lexer) : Prop where
  within : l.Within cs
  ready : l.kind ≠ .unknown → l.Ready

/-- A state in which all that is remembered is right. -/
structure Minded (cs : List Char) (s : State) : Prop where
  stands : Stands cs s.lexer
  sound : HeadsSound cs s.arrowHeads

/-- Both runs end as `R` says, and what they found out is right. -/
structure BothSound (cs : List Char) (R : Bool → State → Prop) (b : Bool) (s' t' : State) :
    Prop where
  left : R b s'
  right : R b t'
  leftSound : HeadsSound cs s'.arrowHeads
  rightSound : HeadsSound cs t'.arrowHeads

variable {heads : List (Nat × Bool)}

theorem lookAhead_eq {p : Parse α} {a : α} (h : p c s = .ok a s') (hahead : Ahead s a s') :
    lookAhead p c s = .ok a { s with arrowHeads := s'.arrowHeads } := by
  have hends : Ends (lookAhead p) c s fun b t =>
      b = a ∧ t = { s with arrowHeads := s'.arrowHeads } := by
    refine .step (a := s) rfl (.step h (.step rfl (.pure ⟨rfl, ?_⟩)))
    dsimp only
    rw [Lexer.restore_eq hahead]
  obtain ⟨b, t, hrun, rfl, rfl⟩ := hends
  exact hrun

theorem lookAhead_both {p : Parse Bool}
    (hp : Both p c s { s with arrowHeads := heads } (BothSound cs (Ahead s))) :
    Both (lookAhead p) c s { s with arrowHeads := heads } (BothSound cs (Back s)) := by
  obtain ⟨b, s', t', hs, ht, h⟩ := hp
  have ht := lookAhead_eq (s := { s with arrowHeads := heads }) ht h.right
  exact ⟨b, _, _, lookAhead_eq hs h.left, ht, ⟨rfl, rfl⟩, ⟨rfl, rfl⟩, h.leftSound, h.rightSound⟩

/-- At a parenthesis the answer is that of a skip, found out now or before. -/
theorem startsArrow_paren (hs : Minded cs s) (hkind : s.lexer.kind = .punct .openParen)
    (hlimit : cs.length + 2 ≤ c.limit) : Ends startsArrow c s fun b s' =>
      HeadAnswer cs s.lexer.start.offset b ∧ Back s b s' ∧ HeadsSound cs s'.arrowHeads := by
  have hready : s.lexer.Ready := hs.stands.ready (hkind ▸ nofun)
  have hread : kind c s = .ok (.punct .openParen) s := congrArg (EStateM.Result.ok · s) hkind
  refine .step hread ?_
  refine .step rfl (.step rfl ?_)
  split
  · next known hknown =>
    obtain ⟨before, after, hheads, -⟩ := List.lookup_eq_some_iff.1 hknown
    have hmem : (s.lexer.start.offset, known) ∈ s.arrowHeads :=
      hheads ▸ List.mem_append_right _ List.mem_cons_self
    exact .pure ⟨hs.sound _ hmem, ⟨rfl, rfl⟩, hs.sound⟩
  · obtain ⟨b, s', hrun, hanswer, hsound, hahead⟩ :=
      passArrowHead_answers hs.stands.within hready hkind hlimit hs.sound
    refine .step (lookAhead_eq hrun hahead) (.step rfl (.pure ⟨hanswer, ⟨rfl, rfl⟩, ?_⟩))
    exact headsSound_cons.2 ⟨hanswer, hsound⟩

theorem isIdentifier_both : Both isIdentifier c s { s with arrowHeads := heads } fun _ s' t' =>
    s' = s ∧ t' = { s with arrowHeads := heads } := by
  refine .step (a := s.lexer.kind) rfl rfl ?_
  split <;> exact ⟨_, _, _, rfl, rfl, rfl, rfl⟩

section Both

variable (hs : Minded cs s) (hheads : HeadsSound cs heads)
include hs hheads

/-- A look-ahead that finds nothing out. -/
theorem lookAhead_both_of {p : Parse Bool} {b : Bool} {l : Lexer} {stop : Nat}
    (hs' : p c s = .ok b { s with lexer := l, prevStop := stop })
    (ht' : p c { s with arrowHeads := heads } =
      .ok b { s with lexer := l, prevStop := stop, arrowHeads := heads })
    (hahead : s.lexer.Appends l) :
    Both (lookAhead p) c s { s with arrowHeads := heads } (BothSound cs (Back s)) :=
  lookAhead_both ⟨b, _, _, hs', ht', hahead, hahead, hs.sound, hheads⟩

theorem startsArrow_both (hlimit : cs.length + 2 ≤ c.limit) :
    Both startsArrow c s { s with arrowHeads := heads } (BothSound cs (Back s)) := by
  by_cases hkind : s.lexer.kind = .punct .openParen
  · refine .of_ends (startsArrow_paren hs hkind hlimit)
      (startsArrow_paren (s := { s with arrowHeads := heads }) ⟨hs.stands, hheads⟩ hkind hlimit) ?_
    rintro a b s' t' ⟨ha, hback, hsound⟩ ⟨hb, hback', hsound'⟩
    exact ⟨ha.unique hb, hback, hback', hsound, hsound'⟩
  refine .step (a := s.lexer.kind) rfl rfl ?_
  split
  · next hparen => exact absurd hparen hkind
  · -- Behind `async` there may be a parenthesis to pass over.
    let s₁ : State := { s with lexer := s.lexer.scan, prevStop := s.lexer.cursor.offset }
    have hnext : s.lexer.Appends s₁.lexer := ahead_next s
    have hwithin : s₁.lexer.Within cs := Lexer.scan_within hs.stands.within
    have hready : s₁.lexer.Ready := s.lexer.scan_ready.1
    have here (b : Bool) :
        Both (Pure.pure b) c s₁ { s₁ with arrowHeads := heads } (BothSound cs (Ahead s)) :=
      .pure ⟨hnext, hnext, hs.sound, hheads⟩
    have hstep : next c s = .ok () s₁ := rfl
    refine lookAhead_both (.step hstep rfl ?_)
    refine .step (a := s₁.lexer.lineBreak) rfl rfl (.ite (fun _ => here _) fun _ => ?_)
    refine .step (a := decide (s₁.lexer.kind = .punct .arrow)) rfl rfl
      (.ite (fun _ => here _) fun _ => ?_)
    refine .step (a := decide (s₁.lexer.kind = .punct .openParen)) rfl rfl
      (.ite (fun hparen => ?_) fun _ => ?_)
    · have hparen : s₁.lexer.kind = .punct .openParen := of_decide_eq_true hparen
      refine .of_ends (passArrowHead_answers hwithin hready hparen hlimit hs.sound)
        (passArrowHead_answers (s := { s₁ with arrowHeads := heads }) hwithin hready hparen hlimit
          hheads) ?_
      rintro a b s' t' ⟨ha, hsound, hahead⟩ ⟨hb, hsound', hahead'⟩
      exact ⟨ha.unique hb, hnext.trans hahead, hnext.trans hahead', hsound, hsound'⟩
    · refine isIdentifier_both.bind ?_
      rintro b _ _ ⟨rfl, rfl⟩
      refine .ite (fun _ => ⟨_, _, _, rfl, rfl, ?_⟩) fun _ => here _
      have hthen : s.lexer.Appends s₁.lexer.scan := hnext.trans (Lexer.scan_appends _)
      exact ⟨hthen, hthen, hs.sound, hheads⟩
  · refine isIdentifier_both.bind ?_
    rintro b _ _ ⟨rfl, rfl⟩
    refine .ite (fun _ => lookAhead_both_of hs hheads rfl rfl (ahead_next _)) fun _ => ?_
    exact .pure ⟨⟨rfl, rfl⟩, ⟨rfl, rfl⟩, hs.sound, hheads⟩

theorem question_both (hlimit : cs.length + 2 ≤ c.limit) (q : Question) :
    Both q.reader c s { s with arrowHeads := heads } (BothSound cs (Back s)) := by
  cases q with
  | arrow => exact startsArrow_both hs hheads hlimit
  | asyncFunction => exact lookAhead_both_of hs hheads rfl rfl (ahead_next s)
  | asyncArrow => exact lookAhead_both_of hs hheads rfl rfl (ahead_next s)
  | modifier enders => exact lookAhead_both_of hs hheads rfl rfl (ahead_next s)
  | letDeclaration =>
    refine lookAhead_both (.step rfl rfl ((isIdentifier_both (s := _)).bind ?_))
    rintro b _ _ ⟨rfl, rfl⟩
    exact ⟨_, _, _, rfl, rfl, ahead_next s, ahead_next s, hs.sound, hheads⟩
  | label => exact lookAhead_both_of hs hheads rfl rfl (ahead_next s)

end Both

/-! ## Readings -/

/-- The places that a walk comes to, in order. A look-ahead only adds to what is remembered, so all
that is remembered on the way through it is remembered behind it. -/
def Plan.moments (answer : Answers σ) : Plan α → Walk σ → List (Walk σ)
  | .done _, w | .stop _, w => [w]
  | .look k, w => (k w.view).moments answer w
  | .next k, w => w :: k.moments answer w.next
  | .slash k, w => w :: k.moments answer (w.reread Lexer.rescanSlash)
  | .template k, w => w :: k.moments answer (w.reread Lexer.rescanTemplate)
  | .ask c q k, w =>
    w :: match answer c q w with
      | .ok b w => (k b).moments answer w
      | .error _ w => [w]

theorem Plan.last_mem_moments (answer : Answers σ) (plan : Plan α) (w : Walk σ) :
    Walk.last (plan.run answer w) ∈ plan.moments answer w := by
  induction plan generalizing w with
  | done | stop => exact List.mem_singleton_self w
  | look k ih => exact ih _ w
  | next k ih | slash k ih | template k ih => exact List.mem_cons_of_mem _ (ih _)
  | ask c q k ih =>
    rw [moments, run]
    refine List.mem_cons_of_mem _ ?_
    cases answer c q w with
    | ok b w => exact ih b w
    | error d w => exact List.mem_singleton_self w

/-- The grammar looks ahead, and forgets at once what it found out. -/
def forgetting (limit : Nat) : Answers Unit := fun c q w =>
  match q.reader { c with limit } ⟨w.lexer, w.prevStop, []⟩ with
  | .ok b s => .ok b { w with lexer := s.lexer, prevStop := s.prevStop }
  | .error d s => .error d { w with lexer := s.lexer, prevStop := s.prevStop }

/-- What is remembered at a place is right, and makes no difference. -/
structure Remembers (cs : List Char) (w : Walk (List (Nat × Bool))) : Prop where
  sound : ∀ e ∈ w.side, SkipGives cs e.1 e.2
  indifferent : ∀ (c : Context) (q : Question), cs.length + 2 ≤ c.limit → ∃ b s s',
    q.reader c w.state = .ok b s ∧ q.reader c { w.state with arrowHeads := [] } = .ok b s'

theorem Minded.remembers {w : Walk (List (Nat × Bool))} (hw : Minded cs w.state) :
    Remembers cs w := by
  refine ⟨fun e he => (hw.sound e he).skipGives, fun c q hlimit => ?_⟩
  obtain ⟨b, s, s', hs, hs', -⟩ := question_both hw (headsSound_nil cs) hlimit q
  exact ⟨b, s, s', hs, hs'⟩

namespace Stands

variable {l : Lexer}

theorem scan (h : Stands cs l) : Stands cs l.scan :=
  ⟨Lexer.scan_within h.within, fun _ => l.scan_ready.1⟩

/-- Before the first token there is nothing to read in another way. -/
theorem reread {f : Lexer → Lexer} (h : Stands cs l) (hidle : l.kind = .unknown → f l = l)
    (hwithin : (f l).Within cs) (hready : l.Ready → (f l).Ready) : Stands cs (f l) := by
  refine ⟨hwithin, fun hkind => hready (h.ready fun hunknown => ?_)⟩
  rw [hidle hunknown] at hkind
  exact hkind hunknown

theorem rescanSlash (h : Stands cs l) : Stands cs l.rescanSlash :=
  h.reread (fun hunknown => if_neg (by simp [hunknown])) (Lexer.rescanSlash_within h.within)
    fun hready => (Lexer.rescanSlash_ready hready).1

theorem rescanTemplate (h : Stands cs l) : Stands cs l.rescanTemplate :=
  h.reread (fun hunknown => if_neg (by simp [hunknown])) (Lexer.rescanTemplate_within h.within)
    fun hready => (Lexer.rescanTemplate_ready hready).1

end Stands

/-- An answer is the same if all is forgotten, and what it adds is right. -/
theorem answer_minded (hlimit : cs.length + 2 ≤ limit) {w : Walk (List (Nat × Bool))}
    (hw : Minded cs w.state) (c : Context) (q : Question) : ∃ b heads, HeadsSound cs heads ∧
      performing limit c q w = .ok b { w with side := heads } ∧
      forgetting limit c q (w.withSide ()) = .ok b (w.withSide ()) := by
  obtain ⟨b, s, t, hs, ht, hback⟩ :=
    question_both (c := { c with limit }) hw (headsSound_nil cs) hlimit q
  have ht : q.reader { c with limit } ⟨(w.withSide ()).lexer, (w.withSide ()).prevStop, []⟩ =
      .ok b t := ht
  refine ⟨b, s.arrowHeads, hback.leftSound, ?_, ?_⟩
  · rw [performing, hs]
    dsimp only
    rw [hback.left.1, hback.left.2]
    rfl
  · rw [forgetting, ht]
    dsimp only
    rw [hback.right.1, hback.right.2]
    rfl

/-- A walk remembers what is right at every moment, and is the walk that remembers nothing. -/
theorem run_minded (hlimit : cs.length + 2 ≤ limit) (plan : Plan α)
    {w : Walk (List (Nat × Bool))} (hw : Minded cs w.state) :
    (∀ m ∈ plan.moments (performing limit) w, Minded cs m.state) ∧
      SameWalk (plan.run (performing limit) w) (plan.run (forgetting limit) (w.withSide ())) := by
  induction plan generalizing w with
  | done | stop => exact ⟨List.forall_mem_singleton.2 hw, ⟨rfl, rfl, rfl, rfl⟩⟩
  | look k ih => exact ih _ hw
  | next k ih =>
    obtain ⟨hmoments, hsame⟩ := ih (w := w.next) ⟨hw.stands.scan, hw.sound⟩
    exact ⟨List.forall_mem_cons.2 ⟨hw, hmoments⟩, hsame⟩
  | slash k ih =>
    obtain ⟨hmoments, hsame⟩ :=
      ih (w := w.reread Lexer.rescanSlash) ⟨hw.stands.rescanSlash, hw.sound⟩
    exact ⟨List.forall_mem_cons.2 ⟨hw, hmoments⟩, hsame⟩
  | template k ih =>
    obtain ⟨hmoments, hsame⟩ :=
      ih (w := w.reread Lexer.rescanTemplate) ⟨hw.stands.rescanTemplate, hw.sound⟩
    exact ⟨List.forall_mem_cons.2 ⟨hw, hmoments⟩, hsame⟩
  | ask c q k ih =>
    obtain ⟨b, heads, hsound, hperform, hforget⟩ := answer_minded hlimit hw c q
    obtain ⟨hmoments, hsame⟩ := ih b (w := { w with side := heads }) ⟨hw.stands, hsound⟩
    rw [Plan.moments, Plan.run, Plan.run, hperform, hforget]
    exact ⟨List.forall_mem_cons.2 ⟨hw, hmoments⟩, hsame⟩

/-- What is remembered of arrow heads is right at every moment of a reading, up to its end, and the
reading is the one that remembers nothing. -/
theorem arrowHeads_sound : ∃ plan : Nat → Nat → Context → Plan Tree,
    (∀ stop depth c, (plan stop depth c).Performs c.limit (program stop depth c)) ∧
    ∀ cs, let reading := plan (size cs) (2 * cs.length + 4) { limit := cs.length + 2 }
      let remembering := reading.run (performing (cs.length + 2)) (.first cs [])
      let forgetful := reading.run (forgetting (cs.length + 2)) (.first cs ())
      (∀ w ∈ reading.moments (performing (cs.length + 2)) (.first cs []), Remembers cs w) ∧
      Remembers cs (Walk.last remembering) ∧ SameWalk remembering forgetful ∧
      readProgram cs = Reading.ofOutcome (Walk.last forgetful).lexer (Walk.found forgetful) := by
  choose plan hplan using program_planned
  refine ⟨plan, hplan, fun cs => ?_⟩
  have hperforms := hplan (size cs) (2 * cs.length + 4) { limit := cs.length + 2 } (.first cs [])
  intro reading remembering forgetful
  have hkind : (Walk.first cs ([] : List (Nat × Bool))).lexer.kind = .unknown := by
    unfold Walk.first Lexer.skipShebang
    split <;> rfl
  have hfirst : Minded cs (Walk.first cs []).state :=
    ⟨⟨Lexer.skipShebang_within (Lexer.ofText_within cs), fun hne => absurd hkind hne⟩,
      headsSound_nil cs⟩
  obtain ⟨hmoments, hsame⟩ := run_minded (Nat.le_refl _) reading hfirst
  have hsame : SameWalk remembering forgetful := hsame
  refine ⟨fun w hw => (hmoments w hw).remembers,
    (hmoments _ (reading.last_mem_moments _ _)).remembers, hsame, ?_⟩
  rw [hsame.found, hsame.lexer]
  exact readProgram_eq hperforms.symm

end LoopClosure.Grammar
