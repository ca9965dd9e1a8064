import LoopClosure.Proofs.Grammar.Plan
import LoopClosure.Proofs.Token.Sessions

/-!
# Looking ahead goes back

`Ends p c s Q`: from `s` the reader ends without an error, and `Q` holds of its value and of the
state behind it. Whatever a look-ahead does, it ends, and what the lexer recorded before is still in
its place (`Ahead`); so going back restores the state, but for the arrow heads that were found
(`lookAhead_ends`). The one look-ahead without a bound of its own passes over an arrow head; it ends
since every turn but the last two passes a token (`passArrowHead_ends`).
-/

namespace LoopClosure.Grammar

open Syntax Token
open Text.Cursor

variable {α β σ : Type} {c : Context} {s s' : State} {p : Parse α} {f : α → Parse β}

/-- The reader ends without an error. -/
def Ends (p : Parse α) (c : Context) (s : State) (Q : α → State → Prop) : Prop :=
  ∃ a s', p c s = .ok a s' ∧ Q a s'

namespace Ends

variable {P : α → State → Prop} {Q : β → State → Prop}

theorem mono {P' : α → State → Prop} (h : Ends p c s P) (hP : ∀ a s', P a s' → P' a s') :
    Ends p c s P' := by
  obtain ⟨a, s', hp, ha⟩ := h
  exact ⟨a, s', hp, hP a s' ha⟩

theorem pure {a : α} (h : P a s) : Ends (Pure.pure a) c s P := ⟨a, s, rfl, h⟩

theorem bind (hp : Ends p c s P) (hf : ∀ a s', P a s' → Ends (f a) c s' Q) :
    Ends (p >>= f) c s Q := by
  obtain ⟨a, s', hp, ha⟩ := hp
  obtain ⟨b, t, hf, hb⟩ := hf a s' ha
  refine ⟨b, t, ?_, hb⟩
  change EStateM.bind (p c) (fun a => f a c) s = .ok b t
  rw [EStateM.bind, hp]
  exact hf

/-- A reader whose outcome is known comes first. -/
theorem step {a : α} (hp : p c s = .ok a s') (hf : Ends (f a) c s' Q) : Ends (p >>= f) c s Q := by
  refine bind (P := fun b t => b = a ∧ t = s') ⟨a, s', hp, rfl, rfl⟩ ?_
  rintro _ _ ⟨rfl, rfl⟩
  exact hf

theorem ite {b : Prop} [Decidable b] {q : Parse α} (hp : b → Ends p c s P)
    (hq : ¬b → Ends q c s P) : Ends (if b then p else q) c s P := by
  split
  · exact hp ‹_›
  · exact hq ‹_›

end Ends

/-! ## Going back -/

/-- What was recorded is still in its place. -/
def Ahead (s : State) (_ : α) (s' : State) : Prop := s.lexer.Appends s'.lexer

theorem ahead_next (s : State) : s.lexer.Appends s.lexer.scan := Lexer.scan_appends _

/-- All that is left of looking ahead is what was found out about arrow heads. -/
def Back (s : State) (_ : α) (s' : State) : Prop :=
  s'.lexer = s.lexer ∧ s'.prevStop = s.prevStop

theorem lookAhead_ends (hp : Ends p c s (Ahead s)) : Ends (lookAhead p) c s (Back s) := by
  refine .step (a := s) rfl (hp.bind fun a s' hahead => .step rfl (.pure ⟨?_, rfl⟩))
  exact Lexer.restore_eq hahead

theorem isIdentifier_ends : Ends isIdentifier c s fun _ s' => s' = s := by
  refine .step (a := s.lexer.kind) rfl ?_
  split <;> exact ⟨_, s, rfl, rfl⟩

/-! ## Arrow heads -/

theorem length_le_of_reach {a b : Text.Cursor} (h : Reach a b) :
    b.rest.length ≤ a.rest.length ∧ (a.offset < b.offset → b.rest.length < a.rest.length) := by
  obtain ⟨hrest, hoffset⟩ := h.rest_eq
  generalize a.upTo b.offset = word at hrest hoffset
  rw [hrest, List.length_append]
  refine ⟨Nat.le_add_left _ _, fun hlt => ?_⟩
  have hword : word ≠ [] := by
    rintro rfl
    rw [hoffset] at hlt
    exact absurd hlt (Nat.lt_irrefl _)
  have hpos := List.length_pos_iff.2 hword
  omega

/-- What is left to read behind a token. -/
theorem length_scan_lt {l : Lexer} (h : l.Ready) (hk : l.kind ≠ .endOfFile) :
    l.scan.start.rest.length < l.start.rest.length :=
  Nat.lt_of_le_of_lt (length_le_of_reach l.scan_ready.2).1 ((length_le_of_reach h.reach).2 (h.lt hk))

/-- A repetition whose turns become fewer. -/
theorem iterate_ends {step : σ → Parse (Option σ)} (turns : σ → State → Nat) {I : State → Prop}
    (hstep : ∀ x s, I s → Ends (step x) c s fun o s' =>
      s.lexer.Appends s'.lexer ∧ I s' ∧ ∀ y ∈ o, turns y s' < turns x s)
    {n : Nat} {x : σ} (hn : turns x s < n) (hs : I s) : Ends (iterate step n x) c s (Ahead s) := by
  induction n generalizing x s with
  | zero => exact absurd hn (Nat.not_lt_zero _)
  | succ n ih =>
    refine (hstep x s hs).bind fun o s' h => ?_
    obtain ⟨hahead, hs', hturns⟩ := h
    cases o with
    | none => exact .pure hahead
    | some y =>
      have hlt := hturns y rfl
      exact (ih (by omega) hs').mono fun _ _ h => hahead.trans h

/-- The current token is the one it was, though it may be read in another way. It is not the end of
the text if something was made of it. -/
structure Stays (s : State) (o : Option α) (s' : State) : Prop where
  appends : s.lexer.Appends s'.lexer
  ready : s'.lexer.Ready
  start : s'.lexer.start = s.lexer.start
  kind : o ≠ none → s'.lexer.kind ≠ .endOfFile

theorem headToken_ends {top : Bracket} {stack below : List (Bracket × Nat)} {prev : Kind}
    (hready : s.lexer.Ready) : Ends (headToken top stack below prev) c s (Stays s) := by
  have keep : ∀ o, (o ≠ none → s.lexer.kind ≠ .endOfFile) →
      Ends (Pure.pure o : Parse (Option (List (Bracket × Nat) × Option Nat))) c s (Stays s) :=
    fun _ ho => .pure ⟨.refl _, hready, rfl, ho⟩
  have slash : s.lexer.kind ≠ .endOfFile → Ends (headSlash stack prev) c s (Stays s) := by
    intro hk
    obtain ⟨hslash, hstart⟩ := Lexer.rescanSlash_ready hready
    refine .ite (fun _ => .step rfl (.pure ?_)) fun _ => keep _ fun _ => hk
    exact ⟨Lexer.rescanSlash_appends _, hslash, hstart, fun _ => Lexer.rescanSlash_kind hk⟩
  refine .step (a := s.lexer.start.offset) rfl (.step (a := s.lexer.kind) rfl ?_)
  generalize hkind : s.lexer.kind = k at slash keep
  split
  · exact keep _ fun hne => absurd rfl hne
  · exact keep _ fun _ => nofun
  · exact keep _ fun _ => nofun
  · exact keep _ fun _ => nofun
  · exact keep _ fun _ => nofun
  · exact .ite (fun _ => keep _ fun _ => nofun) fun _ => keep _ fun _ => nofun
  · exact .ite (fun _ => keep _ fun _ => nofun) fun _ => keep _ fun _ => nofun
  · split
    · exact keep _ fun _ => nofun
    · obtain ⟨htemplate, hstart⟩ := Lexer.rescanTemplate_ready hready
      have hk := Lexer.rescanTemplate_kind (l := s.lexer) (hkind ▸ nofun)
      refine .step rfl (.step rfl (.ite (fun _ => .pure ?_) fun _ => .pure ?_))
      all_goals exact ⟨Lexer.rescanTemplate_appends _, htemplate, hstart, fun _ => hk⟩
    · exact keep _ fun _ => nofun
  · exact slash nofun
  · exact slash nofun
  · next hend _ _ _ _ _ _ _ _ _ => exact keep _ fun _ => hend

/-- Turns that are left before the last one. -/
def turns (h : HeadScan) (s : State) : Nat :=
  if h.refused then 0 else s.lexer.start.rest.length + 1

theorem headStep_ends {h : HeadScan} (hready : s.lexer.Ready) : Ends (headStep h) c s fun o s' =>
    s.lexer.Appends s'.lexer ∧ s'.lexer.Ready ∧ ∀ h' ∈ o, turns h' s' < turns h s := by
  refine .ite (fun _ => .pure ⟨.refl _, hready, nofun⟩) fun hrefused => ?_
  split
  · exact .pure ⟨.refl _, hready, nofun⟩
  · extract_lets rest
    have hturns : turns h s = s.lexer.start.rest.length + 1 := if_neg hrefused
    have hrest : ∀ heads, Ends (rest ()) c { s with arrowHeads := heads } fun o s' =>
        s.lexer.Appends s'.lexer ∧ s'.lexer.Ready ∧ ∀ h' ∈ o, turns h' s' < turns h s := by
      have refuse : ∀ s' : State, turns { h with refused := true } s' < turns h s := fun _ =>
        hturns ▸ Nat.succ_pos _
      intro heads
      refine .ite (fun _ => .pure ⟨.refl _, hready, ?_⟩) fun _ => ?_
      · rintro _ ⟨⟩
        exact refuse _
      refine .bind (headToken_ends hready) fun o s' h => ?_
      obtain ⟨hahead, hready', hstart, hkind⟩ := h
      cases o with
      | none =>
        refine .pure ⟨hahead, hready', ?_⟩
        rintro _ ⟨⟩
        exact refuse _
      | some found =>
        -- The token is passed.
        refine .step rfl (.step rfl (.pure ⟨hahead.trans (ahead_next s'), s'.lexer.scan_ready.1, ?_⟩))
        rintro _ ⟨⟩
        have hlt := length_scan_lt hready' (hkind nofun)
        rw [hturns, ← hstart]
        exact Nat.succ_lt_succ hlt
    clear_value rest
    split
    · exact .step rfl (.step rfl (hrest _))
    · exact hrest s.arrowHeads

variable {cs : List Char}

theorem passArrowHead_ends (hwithin : s.lexer.Within cs) (hlimit : cs.length + 2 ≤ c.limit) :
    Ends passArrowHead c s (Ahead s) := by
  have hready := s.lexer.scan_ready.1
  have hlength : s.lexer.scan.start.rest.length ≤ cs.length :=
    (length_le_of_reach (Lexer.scan_within hwithin).start).1
  have pass : ∀ h : HeadScan, h.refused = false → Ends (repeating headStep h) c
      { s with lexer := s.lexer.scan, prevStop := s.lexer.cursor.offset } fun _ s' =>
        s.lexer.scan.Appends s'.lexer := by
    intro h hrefused
    refine .step (a := c) rfl (iterate_ends turns (I := fun s => s.lexer.Ready)
      (fun _ _ h => headStep_ends h) ?_ hready)
    rw [turns, hrefused]
    exact Nat.lt_of_lt_of_le (Nat.succ_lt_succ (Nat.lt_succ_of_le hlength)) hlimit
  refine .step rfl (.step rfl (.step rfl ((pass _ rfl).bind fun h s' hahead => ?_)))
  exact .ite (fun _ => .pure ((ahead_next s).trans hahead)) fun _ =>
    ⟨_, _, rfl, (ahead_next s).trans hahead⟩

theorem startsArrow_ends (hwithin : s.lexer.Within cs) (hlimit : cs.length + 2 ≤ c.limit) :
    Ends startsArrow c s (Back s) := by
  refine .step (a := s.lexer.kind) rfl ?_
  split
  · refine .step rfl (.step rfl ?_)
    split
    · exact .pure ⟨rfl, rfl⟩
    · exact (lookAhead_ends (passArrowHead_ends hwithin hlimit)).bind fun _ _ h =>
        .step rfl (.pure h)
  · refine lookAhead_ends (.step rfl (.step rfl (.ite (fun _ => .pure (ahead_next s)) fun _ => ?_)))
    refine .step rfl (.ite (fun _ => .pure (ahead_next s)) fun _ => ?_)
    refine .step rfl (.ite (fun _ => ?_) fun _ => ?_)
    · have hscan := Lexer.scan_within hwithin
      refine .mono (passArrowHead_ends hscan hlimit) fun _ _ hahead => ?_
      exact Lexer.Appends.trans (ahead_next s) hahead
    · refine isIdentifier_ends.bind ?_
      rintro b _ rfl
      refine .ite (fun _ => .step rfl ⟨_, _, rfl, ?_⟩) fun _ => .pure (ahead_next s)
      exact (ahead_next s).trans (Lexer.scan_appends _)
  · refine isIdentifier_ends.bind ?_
    rintro b _ rfl
    exact .ite (fun _ => lookAhead_ends ⟨_, _, rfl, ahead_next _⟩) fun _ => .pure ⟨rfl, rfl⟩

/-- Every look-ahead ends, and goes back. -/
theorem question_ends (hwithin : s.lexer.Within cs) (hlimit : cs.length + 2 ≤ c.limit)
    (q : Question) : Ends q.reader c s (Back s) := by
  cases q with
  | arrow => exact startsArrow_ends hwithin hlimit
  | asyncFunction => exact lookAhead_ends ⟨_, _, rfl, ahead_next s⟩
  | asyncArrow => exact lookAhead_ends ⟨_, _, rfl, ahead_next s⟩
  | modifier enders => exact lookAhead_ends ⟨_, _, rfl, ahead_next s⟩
  | letDeclaration =>
    refine lookAhead_ends (.step rfl (isIdentifier_ends.bind ?_))
    rintro _ _ rfl
    exact ⟨_, _, rfl, ahead_next s⟩
  | label => exact lookAhead_ends ⟨_, _, rfl, ahead_next s⟩

end LoopClosure.Grammar
