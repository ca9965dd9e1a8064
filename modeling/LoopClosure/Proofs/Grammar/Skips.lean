import LoopClosure.Proofs.Grammar.Ahead
import Mathlib.Logic.Relation

/-!
# Skips

To tell whether a parenthesis opens the parameters of an arrow function, the grammar skips what it
encloses, and notes the answers for the parentheses inside on the way. Each of these answers is the
one that a skip from the inner parenthesis alone gives.

- `HeadScan.turn`: what one turn makes of the open brackets and of the lexer; `headStep_turn` says
  that it is a turn of the grammar. What the lexer recorded is of no account to it (`turn_bare`).
- `turn_framed`: a turn that goes on does not look at the brackets around those that it works on.
- `Tracked`: a skip from any parenthesis that is open comes to the same place, with the brackets
  inside of it. A turn keeps that (`Tracked.turn`), and so the answers that it notes are those of
  skips (`Tracked.answers`).
- `passArrowHead_answers`: a parenthesis is passed over with the answer of a skip, and all that is
  noted on the way is right, whatever was noted before.
-/

namespace LoopClosure

theorem Text.Cursor.Reach.unique {a b c : Text.Cursor} (hb : Reach a b) (hc : Reach a c)
    (h : b.offset = c.offset) : b = c := by
  obtain ⟨hrest, -⟩ := hb.rest_eq
  obtain ⟨hrest', -⟩ := hc.rest_eq
  rw [hrest', h] at hrest
  have hrests : c.rest = b.rest := List.append_cancel_left hrest
  cases b
  cases c
  cases h
  cases hrests
  rfl

namespace Token.Lexer

variable {l l' : Lexer}

/-- An opening parenthesis is one character. -/
theorem Ready.openParen (h : l.Ready) (hkind : l.kind = .punct .openParen) :
    l.start.peek? = some '(' ∧ l.cursor = l.start.next := by
  obtain ⟨rest, hrest, hoffset⟩ := h.spelled (hkind ▸ rfl)
  rw [hkind] at hrest hoffset
  have hstart : l.start.rest = '(' :: rest := hrest
  refine ⟨by rw [Text.Cursor.peek?, hstart, List.head?_cons], ?_⟩
  refine h.reach.unique (Text.Cursor.reach_next _) ?_
  rw [hoffset, Text.Cursor.next, hstart]
  rfl

/-! ## Lexers without what they recorded -/

/-- A lexer without what it recorded. -/
def bare (l : Lexer) : Lexer := { l with comments := #[], errors := #[] }

@[simp] theorem bare_cursor (l : Lexer) : l.bare.cursor = l.cursor := rfl

@[simp] theorem bare_kind (l : Lexer) : l.bare.kind = l.kind := rfl

@[simp] theorem bare_bare (l : Lexer) : l.bare.bare = l.bare := rfl

theorem kind_of_bare (h : l.bare = l'.bare) : l.kind = l'.kind := by
  rw [← bare_kind, h, bare_kind]

theorem cursor_of_bare (h : l.bare = l'.bare) : l.cursor = l'.cursor := by
  rw [← bare_cursor, h, bare_cursor]

theorem finishTemplate_bare (l : Lexer) (opening : Bool) (first : Text.Cursor) :
    (l.finishTemplate opening first).bare = (l.bare.finishTemplate opening first).bare := by
  unfold finishTemplate
  dsimp only
  split <;> rfl

theorem token_bare (l : Lexer) (c : Char) : (l.token c).bare = (l.bare.token c).bare := by
  unfold token
  dsimp only [bare_cursor]
  repeat' split
  all_goals first | rfl | exact finishTemplate_bare ..

theorem token_same (h : l.bare = l'.bare) (c : Char) : (l.token c).bare = (l'.token c).bare := by
  rw [token_bare, h, ← token_bare]

/-- What is read next depends on the place alone. -/
theorem scan_same (h : l.cursor = l'.cursor) : l.scan.bare = l'.scan.bare := by
  unfold scan
  rw [h]
  dsimp only
  split
  · rfl
  · exact token_same (by rfl) _

theorem rescanSlash_bare (l : Lexer) : l.rescanSlash.bare = l.bare.rescanSlash.bare := by
  by_cases h : (l.kind = .punct .slash || l.kind = .punct .slashEquals) = true
  · rw [rescanSlash, if_pos h, rescanSlash, if_pos (by exact h)]
    dsimp only
    rw [apply_ite bare, apply_ite bare]
    rfl
  · rw [rescanSlash, if_neg h, rescanSlash, if_neg (by exact h), bare_bare]

theorem rescanTemplate_bare (l : Lexer) : l.rescanTemplate.bare = l.bare.rescanTemplate.bare := by
  by_cases h : l.kind = .punct .closeBrace
  · rw [rescanTemplate, if_pos h, rescanTemplate, if_pos (by exact h)]
    exact finishTemplate_bare ..
  · rw [rescanTemplate, if_neg h, rescanTemplate, if_neg (by exact h), bare_bare]

end Token.Lexer

/-- Behind a cursor, whatever was recorded before. -/
def Token.Lexer.behind (c : Text.Cursor) : Token.Lexer :=
  Token.Lexer.scan { Token.Lexer.ofText [] with cursor := c }

namespace Grammar

open Syntax Token
open Text (Cursor)
open Text.Cursor
open Relation (ReflTransGen)

variable {cs : List Char} {c : Context} {s s' : State} {h h' : HeadScan} {l : Lexer}
  {top : Bracket} {stack below frame : List (Bracket × Nat)} {prev : Kind}

/-! ## Turns -/

/-- Whether the current token is an arrow on the line of the token before. -/
def isArrow (l : Lexer) : Bool := l.kind = .punct .arrow && !l.lineBreak

namespace HeadScan

/-- The current token as it is read on the way: a slash that does not divide begins a regular
expression, and a brace may continue a template. -/
def reread (top : Bracket) (prev : Kind) (l : Lexer) : Lexer :=
  match l.kind with
  | .punct .closeBrace => if top = .template then l.rescanTemplate else l
  | .punct .slash | .punct .slashEquals => if !endsOperand prev then l.rescanSlash else l
  | _ => l

/-- What the token does to the open brackets, and the parenthesis that it closes. -/
def brackets? (top : Bracket) (stack below : List (Bracket × Nat)) (l : Lexer) :
    Option (List (Bracket × Nat) × Option Nat) :=
  match l.kind with
  | .endOfFile => none
  | .punct .openParen => some ((.paren, l.start.offset) :: stack, none)
  | .punct .openBracket => some ((.bracket, l.start.offset) :: stack, none)
  | .punct .openBrace => some ((.brace, l.start.offset) :: stack, none)
  | .template .head => some ((.template, l.start.offset) :: stack, none)
  | .punct .closeParen => if top = .paren then some (below, stack.head?.map (·.2)) else none
  | .punct .closeBracket => if top = .bracket then some (below, none) else none
  | .punct .closeBrace =>
    match top with
    | .brace => some (below, none)
    | .template =>
      if l.rescanTemplate.kind = .template .middle then
        some ((.template, l.start.offset) :: below, none)
      else some (below, none)
    | _ => none
  | _ => some (stack, none)

/-- What one turn makes of the brackets and of the lexer. -/
def turn (h : HeadScan) (l : Lexer) : HeadScan × Lexer :=
  match h.stack with
  | [] => (h, l)
  | (top, _) :: below =>
    if h.stack.length > maxNesting then ({ h with refused := true }, l)
    else
      match brackets? top h.stack below l with
      | none => ({ h with refused := true }, reread top h.prev l)
      | some (stack, closed) =>
        ({ stack, closed, prev := (reread top h.prev l).kind }, (reread top h.prev l).scan)

/-- No turn is left. -/
def Stopped (h : HeadScan) : Prop := h.refused = true ∨ h.stack = []

/-- The answer for a parenthesis that the token before closed. -/
def answers (h : HeadScan) (l : Lexer) : List (Nat × Bool) :=
  h.closed.toList.map fun opened => (opened, isArrow l)

end HeadScan

open HeadScan (reread brackets?)

theorem headToken_eq (top : Bracket) (stack below : List (Bracket × Nat)) (prev : Kind)
    (c : Context) (s : State) : headToken top stack below prev c s =
      .ok (brackets? top stack below s.lexer) { s with lexer := reread top prev s.lexer } := by
  have hends : Ends (headToken top stack below prev) c s fun o s' =>
      o = brackets? top stack below s.lexer ∧
        s' = { s with lexer := reread top prev s.lexer } := by
    refine .step (a := s.lexer.start.offset) rfl (.step (a := s.lexer.kind) rfl ?_)
    unfold brackets? reread
    generalize s.lexer.kind = k
    split
    · exact .pure ⟨rfl, rfl⟩
    · exact .pure ⟨rfl, rfl⟩
    · exact .pure ⟨rfl, rfl⟩
    · exact .pure ⟨rfl, rfl⟩
    · exact .pure ⟨rfl, rfl⟩
    · exact .ite (fun h => .pure ⟨(if_pos h).symm, rfl⟩) fun h => .pure ⟨(if_neg h).symm, rfl⟩
    · exact .ite (fun h => .pure ⟨(if_pos h).symm, rfl⟩) fun h => .pure ⟨(if_neg h).symm, rfl⟩
    · cases top with
      | template =>
        refine .step rfl (.step rfl (.ite (fun h => .pure ⟨(if_pos h).symm, rfl⟩) fun h =>
          .pure ⟨(if_neg h).symm, rfl⟩))
      | _ => exact .pure ⟨rfl, rfl⟩
    · exact .ite (fun h => .step rfl (.pure ⟨rfl, by rw [if_pos h]⟩)) fun h =>
        .pure ⟨rfl, by rw [if_neg h]⟩
    · exact .ite (fun h => .step rfl (.pure ⟨rfl, by rw [if_pos h]⟩)) fun h =>
        .pure ⟨rfl, by rw [if_neg h]⟩
    · refine .pure ⟨?_, ?_⟩
      · split <;> first | rfl | contradiction
      · split <;> first | rfl | contradiction
  obtain ⟨o, s', hrun, rfl, rfl⟩ := hends
  exact hrun

namespace HeadScan

section Turn

variable {x : Bracket × Nat} {closed : Option Nat} (hcons : h.stack = x :: below)
include hcons

theorem turn_deep (l : Lexer) (hdeep : h.stack.length > maxNesting) :
    h.turn l = ({ h with refused := true }, l) := by
  unfold turn
  split
  · exact absurd ‹_› (hcons ▸ List.cons_ne_nil _ _)
  · exact if_pos hdeep

theorem turn_none (hdeep : ¬h.stack.length > maxNesting)
    (hnone : brackets? x.1 h.stack below l = none) :
    h.turn l = ({ h with refused := true }, reread x.1 h.prev l) := by
  unfold turn
  split
  · exact absurd ‹_› (hcons ▸ List.cons_ne_nil _ _)
  · next h' =>
    cases hcons.symm.trans h'
    rw [if_neg hdeep, hnone]

theorem turn_some (hdeep : ¬h.stack.length > maxNesting)
    (hsome : brackets? x.1 h.stack below l = some (stack, closed)) :
    h.turn l =
      ({ stack, closed, prev := (reread x.1 h.prev l).kind }, (reread x.1 h.prev l).scan) := by
  unfold turn
  split
  · exact absurd ‹_› (hcons ▸ List.cons_ne_nil _ _)
  · next h' =>
    cases hcons.symm.trans h'
    rw [if_neg hdeep, hsome]

/-- What a turn that goes on has met. -/
theorem turn_ok (hok : (h.turn l).1.refused = false) : ¬h.stack.length > maxNesting ∧
    ∃ stack closed, brackets? x.1 h.stack below l = some (stack, closed) := by
  have hdeep : ¬h.stack.length > maxNesting := by
    intro hdeep
    rw [turn_deep hcons l hdeep] at hok
    cases hok
  refine ⟨hdeep, ?_⟩
  cases hfound : brackets? x.1 h.stack below l with
  | none =>
    rw [turn_none hcons hdeep hfound] at hok
    cases hok
  | some found => exact ⟨found.1, found.2, rfl⟩

end Turn

end HeadScan

theorem headStep_stopped (hstop : h.Stopped) (c : Context) (s : State) :
    headStep h c s = .ok none s := by
  unfold headStep
  split
  · rfl
  · next hrefused =>
    rw [hstop.resolve_left hrefused]
    rfl

theorem headStep_turn (hstop : ¬h.Stopped) (c : Context) (s : State) :
    Ends (headStep h) c s fun o s' => o = some (h.turn s.lexer).1 ∧
      s'.lexer = (h.turn s.lexer).2 ∧ s'.arrowHeads = h.answers s.lexer ++ s.arrowHeads := by
  obtain ⟨hrefused, hstack⟩ := not_or.1 hstop
  refine .ite (fun h => absurd h hrefused) fun _ => ?_
  split
  · next hnil => exact absurd hnil hstack
  · next top pos below hcons =>
    extract_lets rest
    -- An answer is noted first, which the rest does not look at.
    have hrest : ∀ heads, Ends (rest ()) c { s with arrowHeads := heads } fun o s' =>
        o = some (h.turn s.lexer).1 ∧ s'.lexer = (h.turn s.lexer).2 ∧ s'.arrowHeads = heads := by
      intro heads
      refine .ite (fun hdeep => .pure ?_) fun hdeep => .step (headToken_eq ..) ?_
      · rw [HeadScan.turn_deep hcons _ hdeep]
        exact ⟨rfl, rfl, rfl⟩
      · dsimp only
        split
        · next hnone =>
          rw [HeadScan.turn_none hcons hdeep hnone]
          exact .pure ⟨rfl, rfl, rfl⟩
        · next stack closed hsome =>
          rw [HeadScan.turn_some hcons hdeep hsome]
          exact .step rfl (.step rfl (.pure ⟨rfl, rfl, rfl⟩))
    clear_value rest
    split
    · next opened hopened =>
      rw [HeadScan.answers, hopened]
      exact .step rfl (.step rfl (hrest _))
    · next hclosed =>
      rw [HeadScan.answers, Option.eq_none_iff_forall_ne_some.2 fun o ho => hclosed o ho]
      exact hrest s.arrowHeads

/-! ## Skips -/

namespace HeadScan

theorem brackets?_bare (top : Bracket) (stack below : List (Bracket × Nat)) (l : Lexer) :
    brackets? top stack below l.bare = brackets? top stack below l := by
  have hkind : l.bare.rescanTemplate.kind = l.rescanTemplate.kind :=
    (Lexer.kind_of_bare (Lexer.rescanTemplate_bare l)).symm
  unfold brackets?
  rw [hkind]
  rfl

theorem reread_bare (top : Bracket) (prev : Kind) (l : Lexer) :
    (reread top prev l.bare).bare = (reread top prev l).bare := by
  unfold reread
  rw [Lexer.bare_kind]
  split
  · rw [apply_ite Lexer.bare, apply_ite Lexer.bare, Lexer.bare_bare, ← Lexer.rescanTemplate_bare]
  · rw [apply_ite Lexer.bare, apply_ite Lexer.bare, Lexer.bare_bare, ← Lexer.rescanSlash_bare]
  · rw [apply_ite Lexer.bare, apply_ite Lexer.bare, Lexer.bare_bare, ← Lexer.rescanSlash_bare]
  · exact Lexer.bare_bare l

/-- What the lexer recorded is of no account. -/
theorem turn_bare (h : HeadScan) (l : Lexer) :
    (h.turn l.bare).1 = (h.turn l).1 ∧ (h.turn l.bare).2.bare = (h.turn l).2.bare := by
  have hreread (top : Bracket) := reread_bare top h.prev l
  unfold turn
  split
  · exact ⟨rfl, Lexer.bare_bare l⟩
  · next top pos below _ =>
    split
    · exact ⟨rfl, Lexer.bare_bare l⟩
    · rw [brackets?_bare]
      split
      · exact ⟨rfl, hreread top⟩
      · rw [Lexer.kind_of_bare (hreread top)]
        exact ⟨rfl, Lexer.scan_same (Lexer.cursor_of_bare (hreread top))⟩

end HeadScan

/-- One turn leads from one place on the way to another. -/
def Turns (x y : HeadScan × Lexer) : Prop :=
  ¬x.1.Stopped ∧ y = ((x.1.turn x.2).1, (x.1.turn x.2).2.bare)

theorem turns_bare (hstop : ¬h.Stopped) (l : Lexer) :
    Turns (h, l.bare) ((h.turn l).1, (h.turn l).2.bare) := by
  obtain ⟨hhead, hlexer⟩ := h.turn_bare l
  exact ⟨hstop, Prod.ext hhead.symm hlexer.symm⟩

theorem turns_unique : Relator.RightUnique Turns := by
  rintro x _ _ ⟨-, rfl⟩ ⟨-, rfl⟩
  rfl

/-- Behind a parenthesis, with nothing else open. -/
def behindParen (start : Cursor) : HeadScan × Lexer :=
  ({ stack := [(.paren, start.offset)], closed := none, prev := .punct .openParen },
    (Lexer.behind start.next).bare)

theorem behindParen_eq (hready : l.Ready) (hkind : l.kind = .punct .openParen) :
    behindParen l.start =
      ({ stack := [(.paren, l.start.offset)], closed := none, prev := l.kind }, l.scan.bare) := by
  rw [behindParen, hkind, Lexer.behind, Lexer.scan_same (hready.openParen hkind).2.symm]

/-- A skip from the parenthesis at `offset` comes to the place. -/
def SkipsTo (cs : List Char) (offset : Nat) (x : HeadScan × Lexer) : Prop :=
  ∃ start : Cursor, Reach (.ofText cs) start ∧ start.offset = offset ∧
    start.peek? = some '(' ∧ ReflTransGen Turns (behindParen start) x

theorem SkipsTo.turn {offset : Nat} (hskip : SkipsTo cs offset (h, l.bare)) (hstop : ¬h.Stopped) :
    SkipsTo cs offset ((h.turn l).1, (h.turn l).2.bare) := by
  obtain ⟨start, hreach, hoffset, hpeek, hturns⟩ := hskip
  exact ⟨start, hreach, hoffset, hpeek, hturns.tail (turns_bare hstop l)⟩

/-! ## Brackets around -/

namespace HeadScan

/-- More brackets are open, around those that a skip opened. -/
def framed (h : HeadScan) (frame : List (Bracket × Nat)) : HeadScan :=
  { h with stack := h.stack ++ frame }

theorem brackets?_framed {x : Bracket × Nat} (frame : List (Bracket × Nat)) :
    brackets? top (x :: below ++ frame) (below ++ frame) l =
      (brackets? top (x :: below) below l).map fun found => (found.1 ++ frame, found.2) := by
  unfold brackets?
  split
  all_goals first | rfl | skip
  all_goals split <;> first | rfl | skip
  all_goals split <;> rfl

/-- A turn does not look at the brackets around. -/
theorem turn_framed (hstack : h.stack ≠ []) (hok : ((h.framed frame).turn l).1.refused = false) :
    ((h.framed frame).turn l).1 = (h.turn l).1.framed frame ∧
      ((h.framed frame).turn l).2 = (h.turn l).2 := by
  obtain ⟨x, below, hcons⟩ := List.exists_cons_of_ne_nil hstack
  have hframed : (h.framed frame).stack = x :: (below ++ frame) := congrArg (· ++ frame) hcons
  obtain ⟨hdeep, stack, closed, hsome⟩ := turn_ok hframed hok
  have hdeep' : ¬h.stack.length > maxNesting := by
    rw [framed, List.length_append] at hdeep
    omega
  have hbrackets := hsome
  rw [hframed, ← List.cons_append, brackets?_framed, ← hcons] at hbrackets
  obtain ⟨⟨inner, closed'⟩, hinner, hfound⟩ := Option.map_eq_some_iff.1 hbrackets
  rw [turn_some hframed hdeep hsome, turn_some hcons hdeep' hinner]
  cases hfound
  exact ⟨rfl, rfl⟩

/-- What a token can do to the open brackets, `x` being the innermost. -/
inductive Change (l : Lexer) (x : Bracket × Nat) (below : List (Bracket × Nat)) :
    List (Bracket × Nat) → Option Nat → Prop where
  | keeps : Change l x below (x :: below) none
  | closes : Change l x below below none
  | closesParen (hparen : x.1 = .paren) : Change l x below below (some x.2)
  /-- A template goes on. -/
  | renews : Change l x below ((.template, l.start.offset) :: below) none
  | opens (b : Bracket) (hb : b ≠ .paren) :
    Change l x below ((b, l.start.offset) :: x :: below) none
  | opensParen (hkind : l.kind = .punct .openParen) :
    Change l x below ((.paren, l.start.offset) :: x :: below) none

theorem brackets?_change {x : Bracket × Nat} {closed : Option Nat}
    (hsome : brackets? x.1 (x :: below) below l = some (stack, closed)) :
    Change l x below stack closed := by
  unfold brackets? at hsome
  split at hsome
  · cases hsome
  · next hkind =>
    cases hsome
    exact .opensParen hkind
  · cases hsome
    exact .opens _ nofun
  · cases hsome
    exact .opens _ nofun
  · cases hsome
    exact .opens _ nofun
  · obtain ⟨hparen, hsome⟩ := Option.ite_none_right_eq_some.1 hsome
    cases hsome
    exact .closesParen hparen
  · obtain ⟨-, hsome⟩ := Option.ite_none_right_eq_some.1 hsome
    cases hsome
    exact .closes
  · split at hsome
    · cases hsome
      exact .closes
    · split at hsome
      · cases hsome
        exact .renews
      · cases hsome
        exact .closes
    · cases hsome
  · cases hsome
    exact .keeps

end HeadScan

/-- Every parenthesis on the way can be skipped alone: such a skip comes to the same place, with the
brackets inside of it. -/
structure Tracked (cs : List Char) (h : HeadScan) (l : Lexer) : Prop where
  opened : ∀ upper offset frame, h.stack = upper ++ (.paren, offset) :: frame →
    SkipsTo cs offset ({ h with stack := upper ++ [(.paren, offset)] }, l.bare)
  closed : ∀ offset, h.closed = some offset → SkipsTo cs offset ({ h with stack := [] }, l.bare)

namespace Tracked

open HeadScan

/-- A turn leads a skip on, whatever it skips. -/
theorem turn_inner (ht : Tracked cs h l) (hrefused : h.refused = false)
    (hok : (h.turn l).1.refused = false)
    {upper frame : List (Bracket × Nat)} {offset : Nat}
    (hstack : h.stack = upper ++ (.paren, offset) :: frame) :
    ∃ k : HeadScan, (h.turn l).1 = k.framed frame ∧
      SkipsTo cs offset (k, (h.turn l).2.bare) := by
  let inner : HeadScan := { h with stack := upper ++ [(.paren, offset)] }
  have hinner : h = inner.framed frame := by
    rw [framed, List.append_assoc, List.singleton_append, ← hstack]
  have hne : inner.stack ≠ [] := by simp [inner]
  rw [hinner] at hok
  obtain ⟨hhead, hlexer⟩ := turn_framed hne hok
  rw [← hinner] at hhead hlexer
  refine ⟨(inner.turn l).1, hhead, ?_⟩
  rw [hlexer]
  refine (ht.opened upper offset frame hstack).turn fun hstop => ?_
  rcases hstop with hstop | hstop
  · exact Bool.false_ne_true (hrefused.symm.trans hstop)
  · exact hne hstop

theorem turn (ht : Tracked cs h l) (hstop : ¬h.Stopped) (hwithin : l.Within cs)
    (hready : l.Ready) (hok : (h.turn l).1.refused = false) :
    Tracked cs (h.turn l).1 (h.turn l).2 := by
  obtain ⟨hrefused, hne⟩ := not_or.1 hstop
  have hrefused : h.refused = false := by simpa using hrefused
  obtain ⟨x, below, hcons⟩ := List.exists_cons_of_ne_nil hne
  obtain ⟨hdeep, stack, closed, hsome⟩ := turn_ok hcons hok
  have hturn := turn_some hcons hdeep hsome
  have hchange : Change l x below stack closed := brackets?_change (hcons ▸ hsome)
  have hstack : (h.turn l).1.stack = stack := by rw [hturn]
  have hclosed : (h.turn l).1.closed = closed := by rw [hturn]
  constructor
  case opened =>
    intro upper offset frame hupper
    -- A parenthesis that was open before the turn: the skip from it makes the turn too.
    have old (upper' : List (Bracket × Nat))
        (h' : h.stack = upper' ++ (.paren, offset) :: frame) :
        SkipsTo cs offset ({ (h.turn l).1 with stack := upper ++ [(.paren, offset)] },
          (h.turn l).2.bare) := by
      obtain ⟨k, hk, hskip⟩ := ht.turn_inner hrefused hok h'
      have hkstack : k.stack ++ frame = upper ++ [(.paren, offset)] ++ frame := by
        rw [List.append_assoc, List.singleton_append, ← hupper, hk]
        rfl
      rw [← List.append_cancel_right hkstack, hk]
      exact hskip
    rw [hstack] at hupper
    cases hchange with
    | keeps => exact old upper (hcons.trans hupper)
    | closes | closesParen => exact old (x :: upper) (by rw [hcons, hupper, List.cons_append])
    | renews =>
      cases upper with
      | nil => cases hupper
      | cons u us =>
        rw [List.cons_append, List.cons.injEq] at hupper
        exact old (x :: us) (by rw [hcons, hupper.2, List.cons_append])
    | opens b hb =>
      cases upper with
      | nil =>
        rw [List.nil_append, List.cons.injEq, Prod.mk.injEq] at hupper
        exact absurd hupper.1.1 hb
      | cons u us =>
        rw [List.cons_append, List.cons.injEq] at hupper
        exact old us (hcons.trans hupper.2)
    | opensParen hkind =>
      cases upper with
      | nil =>
        -- The parenthesis was opened by this turn: the skip from it begins here.
        rw [List.nil_append, List.cons.injEq, Prod.mk.injEq] at hupper
        obtain ⟨⟨-, rfl⟩, rfl⟩ := hupper
        refine ⟨l.start, hwithin.start, rfl, (hready.openParen hkind).1, ?_⟩
        have hreread : reread x.1 h.prev l = l := by rw [reread, hkind]
        rw [hturn, hreread, List.nil_append, behindParen_eq hready hkind]
      | cons u us =>
        rw [List.cons_append, List.cons.injEq] at hupper
        exact old us (hcons.trans hupper.2)
  case closed =>
    intro offset hoffset
    rw [hclosed] at hoffset
    cases hchange with
    | closesParen hparen =>
      cases hoffset
      have hparens : h.stack = [] ++ (.paren, x.2) :: below := by
        rw [hcons, ← hparen, List.nil_append]
      obtain ⟨k, hk, hskip⟩ := ht.turn_inner hrefused hok hparens
      have hkstack : k.stack ++ below = [] ++ below :=
        (congrArg HeadScan.stack hk).symm.trans hstack
      rw [← List.append_cancel_right hkstack, hk]
      exact hskip
    | _ => cases hoffset

end Tracked

/-! ## Arrow heads that were found -/

/-- The answer that a skip from the parenthesis at the offset gives. -/
def HeadAnswer (cs : List Char) (offset : Nat) (b : Bool) : Prop :=
  ∃ x, SkipsTo cs offset x ∧ x.1.Stopped ∧ b = (!x.1.refused && isArrow x.2)

theorem HeadAnswer.unique {offset : Nat} {b b' : Bool} (h : HeadAnswer cs offset b)
    (h' : HeadAnswer cs offset b') : b = b' := by
  obtain ⟨x, ⟨start, hreach, rfl, -, hx⟩, hstop, rfl⟩ := h
  obtain ⟨y, ⟨start', hreach', hoffset, -, hy⟩, hstop', rfl⟩ := h'
  rw [hreach'.unique hreach hoffset] at hy
  have stays {u v : HeadScan × Lexer} (hu : u.1.Stopped) (huv : ReflTransGen Turns u v) :
      u = v := by
    obtain rfl | ⟨w, hw, -⟩ := huv.cases_head
    · rfl
    · exact absurd hu hw.1
  obtain hxy | hyx := hx.total_of_right_unique turns_unique hy
  · rw [stays hstop hxy]
  · rw [stays hstop' hyx]

/-- Every answer found is the one that a skip gives. -/
def HeadsSound (cs : List Char) (heads : List (Nat × Bool)) : Prop :=
  ∀ e ∈ heads, HeadAnswer cs e.1 e.2

theorem headsSound_nil (cs : List Char) : HeadsSound cs [] :=
  fun _ he => absurd he List.not_mem_nil

theorem headsSound_cons {offset : Nat} {b : Bool} {heads : List (Nat × Bool)} :
    HeadsSound cs ((offset, b) :: heads) ↔ HeadAnswer cs offset b ∧ HeadsSound cs heads :=
  List.forall_mem_cons

/-- What one turn finds out is sound. -/
theorem Tracked.answers (ht : Tracked cs h l) (hrefused : h.refused = false) :
    HeadsSound cs (h.answers l) := by
  intro e he
  obtain ⟨offset, hoffset, rfl⟩ := List.mem_map.1 he
  rw [Option.mem_toList] at hoffset
  refine ⟨_, ht.closed offset hoffset, .inr rfl, ?_⟩
  rw [hrefused]
  rfl

/-- On the way over an arrow head. -/
structure Underway (cs : List Char) (h : HeadScan) (s : State) : Prop where
  within : s.lexer.Within cs
  ready : s.lexer.Ready
  tracked : h.refused = false → Tracked cs h s.lexer
  sound : HeadsSound cs s.arrowHeads

theorem reread_stands (hwithin : l.Within cs) (hready : l.Ready) :
    (reread top prev l).Within cs ∧ (reread top prev l).Ready := by
  unfold reread
  split
  · split
    · exact ⟨Lexer.rescanTemplate_within hwithin, (Lexer.rescanTemplate_ready hready).1⟩
    · exact ⟨hwithin, hready⟩
  · split
    · exact ⟨Lexer.rescanSlash_within hwithin, (Lexer.rescanSlash_ready hready).1⟩
    · exact ⟨hwithin, hready⟩
  · split
    · exact ⟨Lexer.rescanSlash_within hwithin, (Lexer.rescanSlash_ready hready).1⟩
    · exact ⟨hwithin, hready⟩
  · exact ⟨hwithin, hready⟩

theorem turn_stands (h : HeadScan) (hwithin : l.Within cs) (hready : l.Ready) :
    (h.turn l).2.Within cs ∧ (h.turn l).2.Ready := by
  have hreread (top : Bracket) : (reread top h.prev l).Within cs ∧ (reread top h.prev l).Ready :=
    reread_stands hwithin hready
  unfold HeadScan.turn
  split
  · exact ⟨hwithin, hready⟩
  · next top pos below _ =>
    split
    · exact ⟨hwithin, hready⟩
    · split
      · exact hreread top
      · exact ⟨Lexer.scan_within (hreread top).1, (Lexer.scan_ready _).1⟩

theorem Underway.turn (hway : Underway cs h s) (hstop : ¬h.Stopped)
    (hlexer : s'.lexer = (h.turn s.lexer).2)
    (hheads : s'.arrowHeads = h.answers s.lexer ++ s.arrowHeads) :
    Underway cs (h.turn s.lexer).1 s' := by
  have hrefused : h.refused = false := by simpa using (not_or.1 hstop).1
  have ht := hway.tracked hrefused
  obtain ⟨hwithin, hready⟩ := turn_stands h hway.within hway.ready
  refine ⟨hlexer ▸ hwithin, hlexer ▸ hready, fun hok => ?_, ?_⟩
  · rw [hlexer]
    exact ht.turn hstop hway.within hway.ready hok
  · rw [hheads]
    exact List.forall_mem_append.2 ⟨ht.answers hrefused, hway.sound⟩

/-- A run of turns comes to where no turn is left, and what it finds out on the way is sound. -/
theorem iterate_turns {n : Nat} (hway : Underway cs h s)
    (hrun : iterate headStep n h c s = .ok h' s') :
    ReflTransGen Turns (h, s.lexer.bare) (h', s'.lexer.bare) ∧ h'.Stopped ∧
      HeadsSound cs s'.arrowHeads := by
  induction n generalizing h s with
  | zero => cases hrun
  | succ n ih =>
    change EStateM.bind (headStep h c) _ s = _ at hrun
    rw [EStateM.bind] at hrun
    by_cases hstop : h.Stopped
    · rw [headStep_stopped hstop] at hrun
      cases hrun
      exact ⟨.refl, hstop, hway.sound⟩
    · -- The turn that the grammar makes, then those that are left.
      obtain ⟨o, t, hstep, rfl, hlexer, hheads⟩ := headStep_turn hstop c s
      rw [hstep] at hrun
      obtain ⟨hturns, hstop', hsound⟩ := ih (hway.turn hstop hlexer hheads) hrun
      refine ⟨.head (turns_bare hstop s.lexer) ?_, hstop', hsound⟩
      rwa [← hlexer]

theorem underway_first (hwithin : s.lexer.Within cs) (hready : s.lexer.Ready)
    (hkind : s.lexer.kind = .punct .openParen) (hsound : HeadsSound cs s.arrowHeads) :
    Underway cs
      { stack := [(.paren, s.lexer.start.offset)], closed := none, prev := s.lexer.kind }
      { s with lexer := s.lexer.scan, prevStop := s.lexer.cursor.offset } := by
  refine ⟨Lexer.scan_within hwithin, s.lexer.scan_ready.1, fun _ => ⟨?_, nofun⟩, hsound⟩
  intro upper offset frame hstack
  obtain ⟨rfl, hparen⟩ : upper = [] ∧ (.paren, s.lexer.start.offset) = (Bracket.paren, offset) := by
    cases upper with
    | nil => exact ⟨rfl, (List.cons.inj hstack).1⟩
    | cons u us => exact absurd (List.cons.inj hstack).2 (by simp)
  cases hparen
  exact ⟨s.lexer.start, hwithin.start, rfl, (hready.openParen hkind).1,
    behindParen_eq hready hkind ▸ .refl⟩

/-- A parenthesis is passed over with the answer of a skip from it, whatever was found before. -/
theorem passArrowHead_answers (hwithin : s.lexer.Within cs) (hready : s.lexer.Ready)
    (hkind : s.lexer.kind = .punct .openParen) (hlimit : cs.length + 2 ≤ c.limit)
    (hsound : HeadsSound cs s.arrowHeads) : Ends passArrowHead c s fun b s' =>
      HeadAnswer cs s.lexer.start.offset b ∧ HeadsSound cs s'.arrowHeads ∧ Ahead s b s' := by
  obtain ⟨b, s', hrun, hahead⟩ := passArrowHead_ends hwithin hlimit
  refine ⟨b, s', hrun, ?_⟩
  change EStateM.bind (iterate headStep c.limit
      { stack := [(.paren, s.lexer.start.offset)], closed := none, prev := s.lexer.kind } c)
    (fun last => (if last.refused then Pure.pure false else isArrowHere : Parse Bool) c)
    { s with lexer := s.lexer.scan, prevStop := s.lexer.cursor.offset } = .ok b s' at hrun
  rw [EStateM.bind] at hrun
  split at hrun
  · next last t hturns =>
    obtain ⟨hsteps, hstop, hsound'⟩ :=
      iterate_turns (underway_first hwithin hready hkind hsound) hturns
    have hlast : b = (!last.refused && isArrow t.lexer) ∧ s' = t := by
      split at hrun
      · next hrefused =>
        cases hrun
        rw [hrefused]
        exact ⟨rfl, rfl⟩
      · next hrefused =>
        cases hrun
        rw [eq_false_of_ne_true hrefused]
        exact ⟨rfl, rfl⟩
    obtain ⟨hb, rfl⟩ := hlast
    have hskip : SkipsTo cs s.lexer.start.offset (last, s'.lexer.bare) := by
      refine ⟨s.lexer.start, hwithin.start, rfl, (hready.openParen hkind).1, ?_⟩
      rwa [behindParen_eq hready hkind]
    exact ⟨⟨_, hskip, hstop, hb⟩, hsound', hahead⟩
  · cases hrun

end Grammar

end LoopClosure
