import LoopClosure.Grammar.Program
import LoopClosure.Proofs.Grammar.Statement

/-!
# Programs read well-formed trees

The unrolled grammar keeps the promise of each of its nonterminals, by induction on its depth, so
the tree of every text that the grammar accepts is well formed, and below the program it is read
from the tokens of the text (`ProgramOf`, `parse_spec`).
-/

namespace LoopClosure.Grammar

open Syntax Token

variable {cs source : List Char} {c : Context} {s : Track} {rules : Rules} {t : Tree}

/-- One level of nesting makes room for the nodes of one statement. -/
theorem levels_nested (h : c.nesting < maxNesting) :
    levels { c with nesting := c.nesting + 1 } + 3 ≤ levels c := by
  unfold levels
  dsimp only
  omega

/-- One round of the grammar. -/
theorem rule_sound (hr : Sound cs rules) : Sound cs (rule rules) where
  statement _ := .nested fun hlt => (statement_reads hr).deepen (levels_nested hlt)
  assignment _ := .nested fun _ => assignment_reads hr
  unary _ := unary_reads hr
  binary _ _ := binary_reads hr
  leftHandSide _ := leftHandSide_reads hr
  new _ := newExpression_reads hr
  bindingTarget _ := bindingTarget_reads hr
  bare := bindingTarget_bare hr.bare
  declares _ := .nested fun _ => statement_declares

theorem rules_sound (cs : List Char) (depth : Nat) : Sound cs (Grammar.rules depth) := by
  induction depth with
  | zero =>
    constructor
    case bare => exact .fail
    case declares => exact fun _ _ _ => .fail
    all_goals
      intros
      exact fun _ _ => .fail
  | succ depth ih => exact rule_sound ih

/-- The track in front of the first token of a text. -/
def firstTrack (cs : List Char) : Track where
  lexer := (Lexer.ofText cs).skipShebang.scan
  prevStop := (opening cs).offset
  past := []

theorem firstTrack_ready (cs : List Char) : (firstTrack cs).Ready cs where
  lexed := .first rfl
  prevStop := (Lexer.scan_ready _).2.le
  edge := (reach_opening cs).isBoundary
  ends := .inl rfl
  settled _ hk := absurd hk List.not_mem_nil

theorem kind_firstTrack {rest : List Char}
    (h : Text.dropBytes? 0 cs = some ('v' :: 'a' :: 'r' :: ' ' :: rest)) :
    (firstTrack cs).kind = .word .kVar := by
  rw [Text.dropBytes?, Option.some.injEq] at h
  rw [h]
  rfl

/-- What the grammar reads from a text: well-formed trees, under a node for the whole text, whose
nodes are those of one way to take the text apart into tokens. A text that begins with `var` begins
with a declaration. -/
structure ProgramOf (cs : List Char) (t : Tree) : Prop where
  wellFormed : t.WellFormed
  whole : t.start = 0 ∧ t.stop = Text.size cs
  isProgram : ∃ statements comments, t.form = .program statements comments
  read : ∃ ks, Tokens cs ks ∧ ∀ u ∈ t.children, u.Read cs ks
  declared : Tree.DeclaredAt cs 0 t.children

/-- Statements up to the end of the text. -/
theorem statements_spec {depth : Nat} :
    Ensures (collect (programItem (Grammar.rules depth))) c (firstTrack cs) fun ts s' =>
        (Row cs (levels c) ⟨firstTrack cs, 0⟩ s' ts ∧ Opened (firstTrack cs) ts s') ∧
          s'.kind = .endOfFile := by
  have row : Row cs (levels c) ⟨firstTrack cs, 0⟩ (firstTrack cs) [] :=
    ⟨firstTrack_ready cs, .refl _, Nat.zero_le _, fun _ ht => absurd ht List.not_mem_nil,
      fun _ ht => absurd ht List.not_mem_nil, Nat.zero_le _⟩
  refine collect_until
    (I := fun ts s' => Row cs (levels c) ⟨firstTrack cs, 0⟩ s' ts ∧ Opened (firstTrack cs) ts s')
    (Q := fun s' => s'.kind = .endOfFile) ?_ ⟨row, .first⟩
  rintro ts s ⟨row, hopened⟩
  have hr := rules_sound cs depth
  refine .step isEnd_eq (.ite (fun hend => ?_) fun _ => ?_)
  · exact .pure ⟨by simpa using ⟨row, hopened⟩, fun _ => of_decide_eq_true hend⟩
  · exact (row.readOpened hopened (hr.statement c) (hr.declares c)).bind fun t s' row =>
      .pure ⟨row, nofun⟩

/-- A program begins at the first byte of its text and ends at the last. -/
theorem program_spec {depth : Nat} {s : State}
    (h : program (Text.size cs) depth c { lexer := (Lexer.ofText cs).skipShebang } = .ok t s) :
    ProgramOf cs t := by
  have hspec : Ensures (programBody (Grammar.rules depth) (Text.size cs)) c (firstTrack cs)
      fun t _ => ProgramOf cs t := by
    refine statements_spec.bind fun ts s' ⟨⟨row, hopened⟩, hend⟩ => .step lexer_eq (.pure ?_)
    have hspread := Spread.mono row.spread row.ready.prevStop_le
    refine ⟨?_, ⟨rfl, rfl⟩, ⟨_, _, rfl⟩, ⟨s'.past, ⟨s'.lexer, row.ready.lexed, hend⟩, row.reads⟩,
      fun rest hrest => hopened.closed (by simp [hend]) (kind_firstTrack hrest)⟩
    have hnest : Nests (levels c) (levels c + 1) (.program ts s'.lexer.comments.toList) :=
      .deeper nofun rfl rfl nofun nofun (parts_of_not_isBinder rfl) (Nat.lt_succ_self _)
        (by have := levels_le c; omega)
    exact hnest.wellFormed (.spread rfl hspread) row.kids row.depth
  -- The first step of the reader leads to the first token.
  obtain ⟨-, -, hprogram⟩ := hspec t s h
  exact hprogram

/-- The tree of an accepted text is what the grammar reads from it. -/
theorem program_of_parse (h : parse source = .ok t) : ∃ s,
    program (Text.size source) (2 * source.length + 4) { limit := source.length + 2 }
      { lexer := (Lexer.ofText source).skipShebang } = .ok t s := by
  have hread := parse_eq_ok_iff.1 h
  unfold readProgram at hread
  dsimp only at hread
  split at hread
  · next t s hprogram =>
    cases (Reading.mk.inj (Option.some.inj hread)).1
    exact ⟨s, hprogram⟩
  · cases hread
  · cases hread

/-- The grammar accepts programs only. -/
theorem parse_spec (h : parse source = .ok t) : ProgramOf source t := by
  obtain ⟨s, hprogram⟩ := program_of_parse h
  exact program_spec hprogram

theorem parse_wellFormed (h : parse source = .ok t) : t.WellFormed := (parse_spec h).wellFormed

theorem parse_edged (h : parse source = .ok t) : t.Edged source := by
  obtain ⟨-, ⟨hstart, hstop⟩, ⟨statements, comments, hform⟩, ⟨ks, -, hread⟩, -⟩ := parse_spec h
  cases t with
  | node start stop form ts =>
    cases hform
    cases hstart
    cases hstop
    exact .node (.of_plain Text.isBoundary_zero Text.isBoundary_size rfl rfl) fun u hu =>
      (hread u hu).edged

end LoopClosure.Grammar
