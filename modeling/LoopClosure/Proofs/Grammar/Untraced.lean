import LoopClosure.Proofs.Grammar.Ahead
import LoopClosure.Proofs.Grammar.Ensures
import LoopClosure.Proofs.Grammar.Pace.Progress
import LoopClosure.Proofs.Grammar.Planned
import LoopClosure.Proofs.Token.Stretches

/-!
# Looking ahead leaves no trace

The grammar follows a plan (`program_planned`), and each of its look-aheads goes back to where it began
(`question_ends`). So the same walk is made if the answers are only supplied and nothing is scanned
ahead (`exists_answers`): the same tokens are reached, and the lexer ends in the same state. On such a
walk the lexer moves along the text, one stretch after the other (`run_along`); what it recorded are
the comments of the gaps and the defects of the stretches, each of them once. They are told as the
comments and the diagnostics of a reading, unless the walk aborts: then there is no reading
(`readProgram_openKey`).
-/

namespace LoopClosure.Grammar

open Syntax Token
open Text (Cursor size)

variable {α σ τ : Type} {cs : List Char} {c : Context} {limit : Nat}

/-! ## The same walk -/

namespace Walk

/-- In front of the first token of a text. -/
def first (cs : List Char) (side : σ) : Walk σ := ⟨(Lexer.ofText cs).skipShebang, 0, [], side⟩

/-- The same place with other answers at hand. -/
def withSide (w : Walk σ) (side : τ) : Walk τ := ⟨w.lexer, w.prevStop, w.reached, side⟩

/-- What was found at the end of a walk, -/
def found : EStateM.Result Stop (Walk σ) α → Except Stop α
  | .ok a _ => .ok a
  | .error h _ => .error h

/-- and where that is. -/
def last : EStateM.Result Stop (Walk σ) α → Walk σ
  | .ok _ w => w
  | .error _ w => w

end Walk

/-- The walks end at one place, with the same found. -/
structure SameWalk (r : EStateM.Result Stop (Walk σ) α)
    (r' : EStateM.Result Stop (Walk τ) α) : Prop where
  found : Walk.found r' = Walk.found r
  lexer : (Walk.last r').lexer = (Walk.last r).lexer
  prevStop : (Walk.last r').prevStop = (Walk.last r).prevStop
  reached : (Walk.last r').reached = (Walk.last r).reached

/-- There are answers with which the walk that looks ahead is made without. -/
theorem exists_answers (hlimit : cs.length + 2 ≤ limit) (plan : Plan α)
    {w : Walk (List (Nat × Bool))} (hw : w.lexer.Within cs) : ∃ answers : List Bool,
      SameWalk (plan.run (performing limit) w) (plan.run supplied (w.withSide answers)) ∧
        (Walk.last (plan.run supplied (w.withSide answers))).side = [] := by
  induction plan generalizing w with
  | done | stop => exact ⟨[], ⟨rfl, rfl, rfl, rfl⟩, rfl⟩
  | look k ih => exact ih _ hw
  | next k ih => exact ih (w := w.next) (Lexer.scan_within hw)
  | slash k ih => exact ih (w := w.reread Lexer.rescanSlash) (Lexer.rescanSlash_within hw)
  | template k ih => exact ih (w := w.reread Lexer.rescanTemplate) (Lexer.rescanTemplate_within hw)
  | ask c q k ih =>
    obtain ⟨b, s, hread, hlexer, hprev⟩ := question_ends (c := { c with limit }) (s := w.state) hw
      hlimit q
    have hperform : performing limit c q w = .ok b { w with side := s.arrowHeads } := by
      have hlexer : s.lexer = w.lexer := hlexer
      have hprev : s.prevStop = w.prevStop := hprev
      rw [performing, hread]
      dsimp only
      rw [hlexer, hprev]
    obtain ⟨answers, hsame, hside⟩ := ih b (w := { w with side := s.arrowHeads }) hw
    refine ⟨b :: answers, ?_⟩
    rw [Plan.run, hperform]
    exact ⟨hsame, hside⟩

/-! ## Along the text -/

/-- The walk came along stretches of the text, and their tokens are those reached. -/
def Walk.Along (start : Cursor) (w : Walk σ) (ss : List Stretch) : Prop :=
  w.lexer.Along start ss ∧ w.reached = ss.map (·.lexeme)

namespace Walk.Along

variable {start : Cursor} {w : Walk σ} {ss : List Stretch}

theorem next (h : w.Along start ss) : ∃ ss, w.next.Along start ss := by
  obtain ⟨s, hs⟩ := h.1.scan
  refine ⟨s :: ss, hs, ?_⟩
  rw [List.map_cons, ← h.2, ← (hs.current s rfl).lexeme]
  rfl

/-- Before the first token there is nothing to read in another way. -/
theorem reread {f : Lexer → Lexer} (h : w.Along start ss)
    (hidle : w.lexer.kind = .unknown → f w.lexer = w.lexer)
    (hf : ∀ s, w.lexer.Stands s → ∃ s', w.lexer.Rereads (f w.lexer) s s') :
    ∃ ss, (w.reread f).Along start ss := by
  obtain ⟨halong, hreached⟩ := h
  cases ss with
  | nil =>
    have hsame : (w.reread f).lexer = w.lexer := hidle (halong.idle rfl)
    refine ⟨[], hsame.symm ▸ halong, ?_⟩
    rw [Walk.reread, hreached]
    rfl
  | cons s ss =>
    obtain ⟨s', hs'⟩ := halong.reread (hf s (halong.current s rfl))
    have hlexeme : (f w.lexer).lexeme = s'.lexeme := (hs'.current s' rfl).lexeme
    refine ⟨s' :: ss, hs', ?_⟩
    rw [Walk.reread, hreached, List.map_cons, List.map_cons, hlexeme]

end Walk.Along

theorem supplied_eq (c : Context) (q : Question) (w : Walk (List Bool)) :
    ∃ b side, supplied c q w = .ok b { w with side } := by
  unfold supplied
  split
  · exact ⟨false, w.side, rfl⟩
  · exact ⟨_, _, rfl⟩

/-- A plan leads along the text. -/
theorem run_along {start : Cursor} (plan : Plan α) {w : Walk (List Bool)}
    (h : ∃ ss, w.Along start ss) : ∃ ss, (Walk.last (plan.run supplied w)).Along start ss := by
  induction plan generalizing w with
  | done | stop => exact h
  | look k ih => exact ih _ h
  | next k ih =>
    obtain ⟨ss, h⟩ := h
    exact ih h.next
  | slash k ih =>
    obtain ⟨ss, h⟩ := h
    refine ih (h.reread (fun hkind => ?_) fun s hs => Lexer.rescanSlash_rereads hs)
    exact if_neg (by simp [hkind])
  | template k ih =>
    obtain ⟨ss, h⟩ := h
    refine ih (h.reread (fun hkind => ?_) fun s hs => Lexer.rescanTemplate_rereads hs)
    exact if_neg (by simp [hkind])
  | ask c q k ih =>
    obtain ⟨b, side, hanswer⟩ := supplied_eq c q w
    rw [Plan.run, hanswer]
    exact ih b h

theorem first_along (cs : List Char) (answers : List Bool) :
    (Walk.first cs answers).Along (opening cs) [] := by
  have hskip : (Lexer.ofText cs).skipShebang = { Lexer.ofText cs with cursor := opening cs } := by
    unfold opening Lexer.skipShebang
    split <;> rfl
  have hlexer : (Walk.first cs answers).lexer = { Lexer.ofText cs with cursor := opening cs } := hskip
  refine ⟨?_, rfl⟩
  rw [hlexer]
  exact ⟨.nil, nofun, fun _ => rfl, rfl, rfl⟩

/-! ## Programs -/

/-- A reader of which nothing is told. -/
theorem Ensures.any {p : Parse α} {s : Track} : Ensures p c s fun _ _ => True := by
  intro a t _
  exact ⟨s.past ++ [s.lexer.lexeme], ⟨.inr ⟨s.lexer.lexeme, [], rfl, rfl⟩⟩, trivial⟩

/-- A program is read up to the end of its text, and has the comments that were recorded. -/
theorem program_ensures {stop depth : Nat} {s : Track} :
    Ensures (program stop depth) c s fun t s' => s'.kind = .endOfFile ∧
      ∃ statements, t = .ofForm 0 stop (.program statements s'.lexer.comments.toList) := by
  refine .step next_eq (.bind (collect_until (I := fun _ _ => True)
    (Q := fun s' => s'.kind = .endOfFile) (fun _ _ _ => ?_) trivial) fun ts s' h => ?_)
  · refine .step isEnd_eq (.ite (fun hend => ?_) fun _ => Ensures.any.bind fun _ _ _ => ?_)
    · exact .pure ⟨trivial, fun _ => of_decide_eq_true hend⟩
    · exact .pure ⟨trivial, nofun⟩
  · exact .step lexer_eq (.pure ⟨h.2, ts, rfl⟩)

/-- The reading that an outcome stands for. -/
def Reading.ofOutcome (l : Lexer) : Except Stop Tree → Option Reading
  | .ok t => some ⟨some t, SyntaxDiagnostic.sort (l.errors.toList.map lexical)⟩
  | .error (.fault d) => some ⟨none, SyntaxDiagnostic.sort (l.errors.toList.map lexical ++ [d])⟩
  | .error .abort => none

/-- What is recorded on a walk through the text, along the stretches `ss`, the latest first. -/
structure Recorded (cs : List Char) (ss : List Stretch) (w : Walk σ) : Prop where
  /-- The stretches lie one behind the other. -/
  laid : Laid (opening cs) ss w.lexer.cursor
  reached : w.reached = ss.map (·.lexeme)
  /-- The comments are those of the gaps, each of them once and in order, -/
  comments : w.lexer.comments.toList = ss.reverse.flatMap (·.comments)
  ordered : w.lexer.comments.toList.Pairwise fun c c' => c.stop ≤ c'.start
  /-- and no part of a token. -/
  apart : ∀ c ∈ w.lexer.comments.toList, c.start < c.stop ∧
    ∀ k ∈ w.reached, c.stop ≤ k.start ∨ k.stop ≤ c.start
  /-- What is reported is what is wrong with a token or with the gap in front of it, in order. -/
  errors : w.lexer.errors.toList = ss.reverse.flatMap (·.error?.toList)
  defects : ∀ d, d ∈ w.lexer.errors.toList ↔ ∃ s ∈ ss, s.Defect d

/-- What a walk with answers at hand has in common with one that looks ahead, and with the reading of
the text. -/
structure Untraced (cs : List Char)
    (looking : EStateM.Result Stop (Walk (List (Nat × Bool))) Tree)
    (told : EStateM.Result Stop (Walk (List Bool)) Tree) : Prop where
  same : SameWalk looking told
  /-- Every answer was asked for. -/
  asked : (Walk.last told).side = []
  reading : readProgram cs = Reading.ofOutcome (Walk.last told).lexer (Walk.found told)
  /-- A walk aborts only behind a string that is not closed, which it has recorded. -/
  aborted : Walk.found told = .error .abort → (Walk.last told).lexer.MissesQuote
  /-- A program has the comments that were recorded, up to the end of the text. -/
  program : ∀ t, Walk.found told = .ok t → (Walk.last told).lexer.cursor.rest = [] ∧
    ∃ statements, t = .ofForm 0 (size cs) (.program statements (Walk.last told).lexer.comments.toList)
  recorded : ∃ ss, Recorded cs ss (Walk.last told)

theorem Walk.Along.recorded {w : Walk σ} {ss : List Stretch} (h : w.Along (opening cs) ss) :
    Recorded cs ss w := by
  obtain ⟨⟨hlaid, -, -, hcomments, herrors⟩, hreached⟩ := h
  obtain ⟨hordered, hapart⟩ := hlaid.comments_ordered
  refine ⟨hlaid, hreached, hcomments, hcomments ▸ hordered, ?_, herrors, fun d => ?_⟩
  · rw [hcomments, hreached]
    refine fun c hc => ⟨(hapart c hc).1, fun k hk => ?_⟩
    obtain ⟨s, hs, rfl⟩ := List.mem_map.1 hk
    exact (hapart c hc).2.2 s hs
  · rw [herrors]
    exact hlaid.mem_errors_iff

/-- At the end of the text nothing is left. -/
theorem Walk.Along.rest_eq_nil {start : Cursor} {w : Walk σ} {ss : List Stretch}
    (h : w.Along start ss) (hkind : w.lexer.kind = .endOfFile) : w.lexer.cursor.rest = [] := by
  obtain ⟨halong, -⟩ := h
  cases ss with
  | nil => exact nomatch (halong.idle rfl).symm.trans hkind
  | cons s ss =>
    have hs := halong.current s rfl
    rw [hs.cursor]
    exact hs.sound.rest (hs.sound.kind.1 (hs.kind.trans hkind))

section Program

variable {plan : Plan Tree} {looking : EStateM.Result Stop (Walk (List (Nat × Bool))) Tree}

/-- The reading of a text by the outcome of a walk. -/
theorem readProgram_eq (h : program (size cs) (2 * cs.length + 4) { limit := cs.length + 2 }
      { lexer := (Lexer.ofText cs).skipShebang } = Walk.outcome looking) :
    readProgram cs = Reading.ofOutcome (Walk.last looking).lexer (Walk.found looking) := by
  unfold readProgram
  dsimp only
  rw [h]
  rcases looking with _ | ⟨_ | _, _⟩ <;> rfl

/-- What is behind a walk that aborts. -/
theorem program_aborted (h : program (size cs) (2 * cs.length + 4) { limit := cs.length + 2 }
      { lexer := (Lexer.ofText cs).skipShebang } = Walk.outcome looking)
    (habort : Walk.found looking = .error .abort) : (Walk.last looking).lexer.MissesQuote := by
  obtain ⟨tokens, r, hcourse, -, hmeets⟩ := program_course cs
  cases looking with
  | ok t w => cases habort
  | error e w =>
    cases habort
    cases hcourse.sound.symm.trans h
    exact hmeets trivial

/-- What is behind a walk that ends with a program. -/
theorem program_outcome {stop depth : Nat} {s : State} {t : Tree}
    (h : program stop depth c s = Walk.outcome looking) (ht : Walk.found looking = .ok t) :
    (Walk.last looking).lexer.kind = .endOfFile ∧ ∃ statements,
      t = .ofForm 0 stop (.program statements (Walk.last looking).lexer.comments.toList) := by
  cases looking with
  | error d w => cases ht
  | ok u w =>
    cases ht
    obtain ⟨past, -, hprogram⟩ := program_ensures (s := ⟨s, []⟩) _ _ h
    exact hprogram

end Program

/-- Looking ahead leaves no trace: there are plans that read as the grammar does, and for every text
and every plan that reads it so there are answers with which the walk along the plan is the same
without looking ahead (with offsets in 32 bits, for every text below `2 ^ 32` bytes). -/
theorem readProgram_untraced (cs : List Char) :
    (∀ stop depth, Planned (program stop depth)) ∧
    ∀ plan : Plan Tree, plan.Performs (cs.length + 2)
        (program (size cs) (2 * cs.length + 4) { limit := cs.length + 2 }) →
      ∃ answers, Untraced cs (plan.run (performing (cs.length + 2)) (.first cs []))
        (plan.run supplied (.first cs answers)) := by
  refine ⟨program_planned, fun plan hplan => ?_⟩
  have hperforms := hplan (.first cs [])
  have hwithin : (Walk.first cs ([] : List (Nat × Bool))).lexer.Within cs :=
    Lexer.skipShebang_within (Lexer.ofText_within cs)
  obtain ⟨answers, hsame, hasked⟩ := exists_answers (Nat.le_refl _) plan hwithin
  have hfirst : (Walk.first cs ([] : List (Nat × Bool))).withSide answers = .first cs answers := rfl
  rw [hfirst] at hsame hasked
  obtain ⟨ss, hss⟩ := run_along plan ⟨[], first_along cs answers⟩
  refine ⟨answers, hsame, hasked, ?_, fun habort => ?_, fun t ht => ?_, ss, hss.recorded⟩
  · rw [hsame.found, hsame.lexer]
    exact readProgram_eq hperforms.symm
  · exact hsame.lexer ▸ program_aborted hperforms.symm (hsame.found ▸ habort)
  · obtain ⟨hkind, hprogram⟩ := program_outcome hperforms.symm (hsame.found ▸ ht)
    rw [← hsame.lexer] at hkind
    exact ⟨hss.rest_eq_nil hkind, hsame.lexer ▸ hprogram⟩

-- The quote is passed on the way over an arrow head, and once more when it turns out to be none.
example : (readProgram "('\n)".toList).map (·.diagnostics) =
    some [⟨1, 1, .lexical .unterminatedString⟩] := by
  decide +kernel

/-- The string is recorded where reading aborts, and is not reported. -/
theorem readProgram_openKey : readProgram openKey = none ∧ ∃ s,
    program (size openKey) (2 * openKey.length + 4) { limit := openKey.length + 2 }
      { lexer := (Lexer.ofText openKey).skipShebang } = .error .abort s ∧
    s.lexer.errors.toList = [⟨10, 3, .unterminatedString⟩] := by
  have hrun : (match program (size openKey) (2 * openKey.length + 4)
      { limit := openKey.length + 2 } { lexer := (Lexer.ofText openKey).skipShebang } with
    | .error .abort s => s.lexer.errors.toList
    | _ => []) = [⟨10, 3, .unterminatedString⟩] := by
    decide +kernel
  split at hrun
  · next s h => exact ⟨(readProgram_eq_none_iff h).2 ⟨s, rfl⟩, s, h, hrun⟩
  · cases hrun

end LoopClosure.Grammar
