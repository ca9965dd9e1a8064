import LoopClosure.Proofs.Grammar.Depth
import LoopClosure.Proofs.Grammar.Program
import LoopClosure.Proofs.Success

/-!
# Texts that nest too deep

The grammar without a limit on nesting (`freeRules`) begins each of its rules at the outermost level.
The grammar reads every text as it does, or refuses the text; what it accepts has no more than
`maxNesting` charged ways in a row (`parse_within`), and a text with more of them is refused for that
or for a fault in front (`parse_tooDeep`). The ways into binding patterns, behind `**` and behind
`extends` are not charged.
-/

namespace LoopClosure.Grammar

open Syntax Token

variable {text : List Char} {t : Tree}

/-- The grammar, unrolled to a depth and without a limit on nesting. -/
def freeRules : Nat → Rules
  | 0 => fun _ => fail .unfinished
  | n + 1 => fun symbol c => rule (freeRules n) symbol { c with nesting := 0 }

theorem rules_counted (depth : Nat) : Counted (Grammar.rules depth) (freeRules depth) := by
  induction depth with
  | zero =>
    constructor
    all_goals
      intros
      exact .fail
  | succ depth ih => exact rule_counted ih

theorem programBy_counted {rules free : Rules} (hr : Counted rules free) {stop : Nat} {c : Context} :
    Limits (programBy rules stop) (programBy free stop) c (·.Within (room c) .inline) := by
  refine .step .next fun _ => .bind (.collect (P := (·.Within (room c) .value)) ?_) fun ts hts =>
    .step .lexer fun l => .pure ?_
  · refine .step .isEnd fun _ => .ite (fun _ => .pure nofun) fun _ => (hr.statement c).bind
      fun t ht => .pure ?_
    rintro _ ⟨⟩
    exact ht
  · rw [Tree.within_inline_ofForm]
    exact Tree.allWithin_const (fun _ _ => rfl) fun t ht => Tree.within_statement.2 (hts t ht)

/-- The tree of a text, if the grammar without a limit on nesting reads it. -/
def readFreely (text : List Char) : Option Tree :=
  let context : Context := { limit := text.length + 2 }
  let state : State := { lexer := (Lexer.ofText text).skipShebang }
  match programBy (freeRules (2 * text.length + 4)) (Text.size text) context state with
  | .ok t _ => some t
  | .error _ _ => none

/-- The outcome for a text, against that of the grammar without the limit. -/
theorem program_checked (text : List Char) :
    Checked (·.Within maxNesting .inline)
      (program (Text.size text) (2 * text.length + 4) { limit := text.length + 2 }
        { lexer := (Lexer.ofText text).skipShebang })
      (programBy (freeRules (2 * text.length + 4)) (Text.size text) { limit := text.length + 2 }
        { lexer := (Lexer.ofText text).skipShebang }) :=
  programBy_counted (rules_counted _) (c := ⟨false, false, false, 0, text.length + 2⟩) 0
    (Nat.le_refl 0) _

/-- What the grammar accepts fits into the limit. -/
theorem parse_within (h : parse text = .ok t) : t.Within maxNesting .inline := by
  obtain ⟨s, hprogram⟩ := program_of_parse h
  have hchecked := program_checked text
  rw [hprogram] at hchecked
  generalize programBy _ _ _ _ = r at hchecked
  cases hchecked with
  | ok hwithin => exact hwithin

/-- The first fault stands in front of all others. -/
theorem parse_first {reading : Reading} {d : SyntaxDiagnostic}
    (hread : readProgram text = some reading) (hd : d ∈ reading.diagnostics) :
    ∃ first, parse text = .error (.fault first) ∧ first.start ≤ d.start := by
  have hsorted : reading.diagnostics.Pairwise fun a b => a.start ≤ b.start := by
    have hsort (ds : List SyntaxDiagnostic) :
        (SyntaxDiagnostic.sort ds).Pairwise fun a b => a.start ≤ b.start := by
      refine (pairwise_sortBy ?_ ?_ ds).imp fun h => of_decide_eq_true h
      · intro a b c
        simp only [decide_eq_true_eq]
        exact Nat.le_trans
      · intro a b
        simpa using Nat.le_total a.start b.start
    unfold readProgram at hread
    dsimp only at hread
    split at hread
    · cases hread
      exact hsort _
    · cases hread
      exact hsort _
    · cases hread
  unfold parse
  rw [hread]
  obtain ⟨tree?, diagnostics⟩ := reading
  cases diagnostics with
  | nil => cases hd
  | cons first others =>
    refine ⟨first, rfl, ?_⟩
    rcases List.mem_cons.1 hd with rfl | hd
    · exact Nat.le_refl _
    · exact (List.pairwise_cons.1 hsorted).1 d hd

/-- **Charged nesting.** A text in which constructs for which the grammar counts levels, all or some
kinds of them, nest deeper than the limit is refused because of that, or for a fault in front. -/
theorem parse_tooDeep {k : Way → Bool} (hk : ∀ w, k w = true → w.isCharged = true)
    (hread : readFreely text = some t) (hdeep : maxNesting < t.nesting k .inline) :
    ∃ reading first deep, readProgram text = some reading ∧ deep ∈ reading.diagnostics ∧
      deep.error = .nestingTooDeep ∧ parse text = .error (.fault first) ∧
      first.start ≤ deep.start := by
  have hdeep : maxNesting < t.nesting Way.isCharged .inline :=
    Nat.lt_of_lt_of_le hdeep (Tree.nesting_mono hk .inline t)
  have hnot : ¬t.Within maxNesting .inline := fun hwithin => by
    have hlevels : 0 + t.nesting Way.isCharged .inline ≤ maxNesting := hwithin.levels
    omega
  obtain ⟨reading, hreading, deep, hmem, herror⟩ : ∃ reading, readProgram text = some reading ∧
      ∃ deep ∈ reading.diagnostics, deep.error = .nestingTooDeep := by
    have hchecked := program_checked text
    unfold readFreely at hread
    dsimp only at hread
    split at hread
    · next hfree =>
      cases hread
      rw [hfree] at hchecked
      unfold readProgram
      dsimp only
      generalize program _ _ _ _ = r at hchecked ⊢
      cases hchecked with
      | ok hwithin => exact absurd hwithin hnot
      | tooDeep herror => exact ⟨_, rfl, _, mem_sortBy.2 (by simp), herror⟩
    · cases hread
  obtain ⟨first, hparse, hle⟩ := parse_first hreading hmem
  exact ⟨reading, first, deep, hreading, hmem, herror, hparse, hle⟩

/-- An operand behind signs. -/
def signs (n : Nat) : List Char := List.replicate n '!' ++ "0;".toList

theorem parse_tooDeep_signs : ∃ t, readFreely (signs 1001) = some t ∧
    maxNesting < t.nesting Way.isCharged .inline ∧
    ∃ reading first deep, readProgram (signs 1001) = some reading ∧ deep ∈ reading.diagnostics ∧
      deep.error = .nestingTooDeep ∧ parse (signs 1001) = .error (.fault first) ∧
      first.start ≤ deep.start := by
  have hrun : (readFreely (signs 1001)).any (fun t =>
      decide (maxNesting < t.nesting Way.isCharged .inline)) = true := by
    decide +kernel
  obtain ⟨t, hread, hdeep⟩ := (Option.any_eq_true _ _).1 hrun
  have hdeep := of_decide_eq_true hdeep
  exact ⟨t, hread, hdeep, parse_tooDeep (fun _ hw => hw) hread hdeep⟩

/-- A name in array patterns, one inside the other. -/
def brackets (n : Nat) : List Char :=
  "let ".toList ++ List.replicate n '[' ++ 'a' :: List.replicate n ']' ++ " = 0;".toList

set_option maxRecDepth 20000 in
/-- No level is counted for the patterns of a declaration. -/
theorem parse_brackets : ∃ t, parse (brackets 1001) = .ok t ∧
    maxNesting < t.nesting (fun w => decide (w = .pattern)) .inline := by
  have hrun : okAnd (parse (brackets 1001)) (fun t =>
      decide (maxNesting < t.nesting (fun w => decide (w = .pattern)) .inline)) = true := by
    decide +kernel
  obtain ⟨t, hparse, hdeep⟩ := okAnd_iff.1 hrun
  exact ⟨t, hparse, of_decide_eq_true hdeep⟩

end LoopClosure.Grammar
