import LoopClosure.Proofs.Grammar.Pace.Rules
import LoopClosure.Proofs.Success

/-!
# Reading a text comes to its end

The readers of the grammar (`Reader`) end at a token further on than the one they began at, unless
they fail, and so does every turn after which a repetition goes on (`Turn`). A look-ahead (`LookAhead`)
passes no end of text. A whole text is therefore read without a lack of turns or levels, and of each
token that is passed for good a character is left behind (`parse_progresses`). Reading comes to a result
unless it aborts, which it does only where a string is not closed.
-/

namespace LoopClosure.Grammar

open Syntax Token
open Text.Cursor

variable {α σ : Type} {e : Prop} {m n : Nat} {c : Context} {s s' : State} {l : Lexer} {k : Kind}
  {p : Parse α} {ks : List Lexeme} {r : EStateM.Result Stop State α}

/-! ## What is passed -/

/-- No course passes the end of the text. -/
theorem Course.kind_ne (h : Course p c s ks r) : ∀ k ∈ ks, k.kind ≠ .endOfFile := by
  induction h with
  | done | throw | record | slash | template | lookAhead => simp
  | look _ _ _ ih | lookUp _ _ _ ih | within _ _ ih | stop _ ih => exact ih
  | next hk =>
    rintro _ (_ | ⟨_, ⟨⟩⟩)
    exact hk
  | bind _ _ ih ih' =>
    intro k hk
    exact (List.mem_append.1 hk).elim (ih k) (ih' k)

/-- A course leads on in the text. -/
theorem Course.reach (h : Course p c s ks r) (hs : s.lexer.Ready) :
    Reach s.lexer.start (Outcome.state r).lexer.start := by
  induction h with
  | done | throw | record => exact .refl _
  | look _ _ _ ih | lookUp _ _ _ ih | within _ _ ih | stop _ ih => exact ih hs
  | @next c s hk => exact hs.reach.trans (Lexer.scan_ready s.lexer).2
  | slash => exact (Lexer.rescanSlash_ready hs).2.symm ▸ .refl _
  | template => exact (Lexer.rescanTemplate_ready hs).2.symm ▸ .refl _
  | bind h _ ih ih' => exact (ih hs).trans (ih' (h.ready hs))
  | @lookAhead _ p c s ks r h ih =>
    cases r with
    | ok a s' =>
      have hback : s'.lexer.restore s.lexer = s.lexer := Lexer.restore_eq h.appends
      exact hback.symm ▸ .refl _
    | error stop s' => exact ih hs

theorem offset_lt_of_reach {a b : Text.Cursor} (h : Reach a b) (hlt : b.rest.length < a.rest.length) :
    a.offset < b.offset := by
  cases h with
  | refl => exact absurd hlt (Nat.lt_irrefl _)
  | @step n d _ _ h =>
    exact Nat.lt_of_lt_of_le (Nat.lt_add_of_pos_right (Char.utf8Size_pos d)) h.le

/-- A reader that leads behind the token leads on in the text. -/
theorem Paces.offset_lt {Q : α → Lexer → Prop} {a : α} (h : Paces e p c s.lexer Q)
    (hfar : Q a s'.lexer → Far s.lexer s'.lexer) (hs : s.lexer.Ready) (hp : p c s = .ok a s') :
    s.lexer.start.offset < s'.lexer.start.offset := by
  obtain ⟨ks, r, hcourse, hmeets⟩ := h s rfl
  obtain rfl : r = .ok a s' := hcourse.sound.symm.trans hp
  exact offset_lt_of_reach (hcourse.reach hs) (hfar hmeets).lt

/-! ## Readers -/

/-- The readers of statements and expressions and of what they are made of, at a token of kind `k`.
Those whose caller has seen the first token pass it without a look. -/
inductive Reader (rules : Rules) (k : Kind) : {α : Type} → Parse α → Prop where
  | nonterminal (X : Nonterminal) : Reader rules k (rules X)
  | statement : Reader rules k (statement rules)
  | plainStatement : Reader rules k (plainStatement rules)
  | expressionStatement : Reader rules k (expressionStatement rules)
  | labeledStatement : Reader rules k (labeledStatement rules)
  | block : Reader rules k (block rules)
  | declarator : Reader rules k (declarator rules)
  | declarators (keyword : VarKeyword) (hk : k ≠ .endOfFile) :
    Reader rules k (declarators rules keyword)
  | variableStatement (keyword : VarKeyword) (hk : k ≠ .endOfFile) :
    Reader rules k (variableStatement rules keyword)
  | condition : Reader rules k (condition rules)
  | ifStatement (hk : k ≠ .endOfFile) : Reader rules k (ifStatement rules)
  | whileStatement (hk : k ≠ .endOfFile) : Reader rules k (whileStatement rules)
  | doStatement (hk : k ≠ .endOfFile) : Reader rules k (doStatement rules)
  | forStatement (hk : k ≠ .endOfFile) : Reader rules k (forStatement rules)
  | returnStatement (hk : k ≠ .endOfFile) : Reader rules k (returnStatement rules)
  | jumpStatement (jump : JumpKind) (hk : k ≠ .endOfFile) : Reader rules k (jumpStatement jump)
  | throwStatement (hk : k ≠ .endOfFile) : Reader rules k (throwStatement rules)
  | tryStatement (hk : k ≠ .endOfFile) : Reader rules k (tryStatement rules)
  | catchClause (hk : k ≠ .endOfFile) : Reader rules k (catchClause rules)
  | switchStatement (hk : k ≠ .endOfFile) : Reader rules k (switchStatement rules)
  | switchCase : Reader rules k (switchCase rules)
  | caseTest : Reader rules k (caseTest rules)
  | withStatement (hk : k ≠ .endOfFile) : Reader rules k (withStatement rules)
  | function (place : FunctionPlace) : Reader rules k (function rules place)
  | methodFunction (traits : FunctionTraits) : Reader rules k (methodFunction rules traits)
  | arrowFunction : Reader rules k (arrowFunction rules)
  | parameterList : Reader rules k (parameterList rules)
  | parametersAndBody (traits : FunctionTraits) : Reader rules k (parametersAndBody rules traits)
  | classBody (place : ClassPlace) : Reader rules k (classBody rules place)
  | classMember : Reader rules k (classMember rules)
  | propertyName : Reader rules k (propertyName rules)
  | bindingTarget : Reader rules k (bindingTarget rules)
  | bindingElement : Reader rules k (bindingElement rules)
  | restElement : Reader rules k (restElement rules)
  | bindingOrRest : Reader rules k (bindingOrRest rules)
  | bindingProperty : Reader rules k (bindingProperty rules)
  | patternItem : Reader rules k (patternItem rules)
  | expression : Reader rules k (expression rules)
  | assignment : Reader rules k (assignment rules)
  | yieldExpression (hk : k ≠ .endOfFile) : Reader rules k (yieldExpression rules)
  | conditional : Reader rules k (conditional rules)
  | binary (above : Nat) : Reader rules k (binary rules above)
  | unary : Reader rules k (unary rules)
  | postfixed : Reader rules k (postfixed rules)
  | leftHandSide : Reader rules k (leftHandSide rules)
  | newExpression : Reader rules k (newExpression rules)
  | argumentList : Reader rules k (argumentList rules)
  | computedMember : Reader rules k (computedMember rules)
  | primary : Reader rules k (primary rules)
  | parenthesized : Reader rules k (parenthesized rules)
  | arrayLiteral : Reader rules k (arrayLiteral rules)
  | valueOrSpread : Reader rules k (valueOrSpread rules)
  | spreadElement : Reader rules k (spreadElement rules)
  | objectLiteral : Reader rules k (objectLiteral rules)
  | objectProperty : Reader rules k (objectProperty rules)
  | objectItem : Reader rules k (objectItem rules)
  | templateLiteral (hk : k ≠ .endOfFile) : Reader rules k (templateLiteral rules)
  | literal (kind : LiteralKind) (hk : k ≠ .endOfFile) : Reader rules k (literal kind)
  | identifier : Reader rules k identifier
  | identifierName : Reader rules k identifierName

/-- Every reader gets on. -/
theorem Reader.paces {rules : Rules} (hp : Reader rules l.kind p) (hr : Paced e m rules)
    (h : Fed e m 2 c.limit l) : Paces e p c l fun _ => Far l := by
  cases hp with
  | nonterminal X => exact hr.behind X h
  | statement => exact statement_paces hr h
  | plainStatement => exact plainStatement_paces hr h
  | expressionStatement => exact expressionStatement_paces hr h
  | labeledStatement => exact labeledStatement_paces hr h
  | block => exact block_paces hr h
  | declarator => exact declarator_paces hr h
  | declarators _ hk => exact declarators_paces hr h hk
  | variableStatement _ hk => exact variableStatement_paces hr h hk
  | condition => exact condition_paces hr h
  | ifStatement hk => exact ifStatement_paces hr h hk
  | whileStatement hk => exact whileStatement_paces hr h hk
  | doStatement hk => exact doStatement_paces hr h hk
  | forStatement hk => exact forStatement_paces hr h hk
  | returnStatement hk => exact returnStatement_paces hr h hk
  | jumpStatement _ hk => exact jumpStatement_paces h.ready hk
  | throwStatement hk => exact throwStatement_paces hr h hk
  | tryStatement hk => exact tryStatement_paces hr h hk
  | catchClause hk => exact catchClause_paces hr h hk
  | switchStatement hk => exact switchStatement_paces hr h hk
  | switchCase => exact switchCase_paces hr h
  | caseTest => exact caseTest_paces hr h
  | withStatement hk => exact withStatement_paces hr h hk
  | function => exact function_paces hr h
  | methodFunction => exact methodFunction_paces hr h
  | arrowFunction => exact arrowFunction_paces hr h
  | parameterList => exact parameterList_paces hr h
  | parametersAndBody => exact parametersAndBody_paces hr h
  | classBody => exact classBody_paces hr h
  | classMember => exact classMember_paces hr h
  | propertyName => exact (propertyName_paces hr h).mono fun _ _ h => h.1
  | bindingTarget => exact bindingTarget_paces hr h
  | bindingElement => exact bindingElement_paces hr h
  | restElement => exact restElement_paces hr h
  | bindingOrRest => exact bindingOrRest_paces hr h
  | bindingProperty => exact bindingProperty_paces hr h
  | patternItem => exact patternItem_paces hr h
  | expression => exact expression_paces hr h
  | assignment => exact assignment_paces hr h
  | yieldExpression hk => exact yieldExpression_paces hr h hk
  | conditional => exact conditional_paces hr h
  | binary => exact binary_paces hr h
  | unary => exact unary_paces hr h
  | postfixed => exact postfixed_paces hr h
  | leftHandSide => exact leftHandSide_paces hr h
  | newExpression => exact newExpression_paces hr h
  | argumentList => exact argumentList_paces hr h
  | computedMember => exact computedMember_paces hr h
  | primary => exact primary_paces hr h
  | parenthesized => exact parenthesized_paces hr h
  | arrayLiteral => exact arrayLiteral_paces hr h
  | valueOrSpread => exact valueOrSpread_paces hr h
  | spreadElement => exact spreadElement_paces hr h
  | objectLiteral => exact objectLiteral_paces hr h
  | objectProperty => exact objectProperty_paces hr h
  | objectItem => exact objectItem_paces hr h
  | templateLiteral hk => exact templateLiteral_paces hr h hk
  | literal _ hk => exact literal_paces h.ready hk
  | identifier => exact identifier_paces h.ready
  | identifierName => exact identifierName_paces h.ready

/-! ## Turns -/

/-- The turns of the repetitions of the grammar, at a token of kind `k`: what a list reads for one
more item, and what is read behind a tree that grows. -/
inductive Turn (rules : Rules) (k : Kind) : {σ : Type} → Parse (Option σ) → Prop where
  | program : Turn rules k (programItem rules)
  | block : Turn rules k (blockItem rules)
  | consequent : Turn rules k (consequentItem rules)
  | switch : Turn rules k (caseItem rules)
  | member : Turn rules k (classItem rules)
  | comma {α : Type} {item : Parse α} (close : Punctuator) (h : Reader rules k item) :
    Turn rules k (commaItem close item)
  | array {item : Parse Tree} (h : Reader rules k item) : Turn rules k (arrayItem item)
  | declarator : Turn rules k (behindComma (declarator rules))
  | expression : Turn rules k (behindComma (rules .assignment))
  | templatePart (x : List Tree × Bool) (hk : x.2 = true → k ≠ .endOfFile) :
    Turn rules k (templatePart rules x)
  | tail (start : Nat) (allowCalls : Bool) (base : Tree) :
    Turn rules k (tailStep rules start allowCalls base)
  | operator (above start : Nat) (operand : Tree) : Turn rules k (binaryStep rules above start operand)

/-- Unless it is the last one, a turn gets on. -/
def GoesOn (l : Lexer) (a : Option α) (l' : Lexer) : Prop := a ≠ none → Far l l'

theorem Goes.goesOn {Q : Lexer → Prop} {a : Option α} {l' : Lexer} (h : Goes l Q a l') :
    GoesOn l a l' := by
  cases a with
  | none => exact fun hne => absurd rfl hne
  | some a => exact fun _ => h

/-- Every turn gets on, if it is not the last one. -/
theorem Turn.paces {rules : Rules} {p : Parse (Option σ)} (hp : Turn rules l.kind p)
    (hr : Paced e m rules) (h : Fed e m 2 c.limit l) : Paces e p c l (GoesOn l) := by
  cases hp with
  | program => exact (programItem_paces hr h).mono fun _ _ => Goes.goesOn
  | block => exact (blockItem_paces hr h).mono fun _ _ => Goes.goesOn
  | consequent => exact (consequentItem_paces hr h).mono fun _ _ => Goes.goesOn
  | switch => exact (caseItem_paces hr h).mono fun _ _ => Goes.goesOn
  | member => exact (classItem_paces hr h).mono fun _ _ => Goes.goesOn
  | comma close hitem => exact (commaItem_paces (hitem.paces hr h)).mono fun _ _ => Goes.goesOn
  | array hitem => exact (arrayItem_paces h.ready (hitem.paces hr h)).mono fun _ _ => Goes.goesOn
  | declarator =>
    exact (behindComma_paces h.ready fun _ hl => declarator_paces hr (h.far hl)).mono
      fun _ _ => Goes.goesOn
  | expression =>
    exact (behindComma_paces h.ready fun _ hl => hr.assignment (h.far hl)).mono
      fun _ _ => Goes.goesOn
  | templatePart x hk =>
    refine (templatePart_paces hr h hk).mono fun a l' h' hne => ?_
    cases a with
    | none => exact absurd rfl hne
    | some y => exact ⟨h'.1.1.ready, h'.2, h'.1.1.told⟩
  | tail => exact (tailStep_paces hr h).mono fun _ _ => Goes.goesOn
  | operator => exact (binaryStep_paces hr h).mono fun _ _ => Goes.goesOn

/-! ## Whole texts -/

section Text

variable {text : List Char}

/-- The course of a whole text, which does not end for lack of turns or levels. -/
theorem program_course (text : List Char) : ∃ tokens r,
    Course (program (Text.size text) (2 * text.length + 4)) { limit := text.length + 2 }
      { lexer := (Lexer.ofText text).skipShebang } tokens r ∧
    tokens.length ≤ text.length + 1 ∧ Outcome.Meets True (fun _ _ => True) r := by
  have hk : (Lexer.ofText text).skipShebang.kind ≠ .endOfFile := by
    unfold Lexer.skipShebang
    split <;> nofun
  have hwithin := Lexer.scan_within (Lexer.skipShebang_within (Lexer.ofText_within text))
  have hready := (Lexer.scan_ready (Lexer.ofText text).skipShebang).1
  generalize hopening : (Lexer.ofText text).skipShebang = opening at hk hwithin hready
  have hleft : left opening.scan ≤ text.length := (length_le_of_reach hwithin.start).1
  have hfed : Fed True (2 * text.length + 4) 2 (text.length + 2) opening.scan :=
    ⟨hready, fun _ => opening.scan_told, fun _ => by omega, fun _ => by omega⟩
  let c : Context := { limit := text.length + 2 }
  have hbody : Paces True (programBody (rules (2 * text.length + 4)) (Text.size text)) c opening.scan
      fun _ _ => True := by
    refine .bind (collect_paces hfed fun l hl =>
      programItem_paces (rules_paced _) (hfed.near hl)) fun statements _ _ => ?_
    exact .look (fun _ v => pure (.ofForm 0 (Text.size text) (.program statements v.comments)))
      (fun _ _ => rfl) fun _ _ => .pure trivial
  obtain ⟨tokens, r, hcourse, hmeets⟩ := hbody (State.advance { lexer := opening }) rfl
  refine ⟨_, r, .bind (.next hk) hcourse, ?_, hmeets⟩
  have hlength := hcourse.length_le hready
  have hadvance : left (State.advance { lexer := opening }).lexer = left opening.scan := rfl
  rw [List.length_append, List.length_singleton]
  omega

/-- There is no reading exactly where the course of the text aborts. -/
theorem readProgram_eq_none_iff {r : EStateM.Result Stop State Tree}
    (h : program (Text.size text) (2 * text.length + 4) { limit := text.length + 2 }
      { lexer := (Lexer.ofText text).skipShebang } = r) :
    readProgram text = none ↔ ∃ s, r = .error .abort s := by
  unfold readProgram
  simp only [h]
  rcases r with ⟨t, s⟩ | ⟨d | _, s⟩ <;> simp

/-- Nothing is found wrong for lack of turns or levels. -/
theorem readProgram_finished {reading : Reading} {d : SyntaxDiagnostic}
    (hread : readProgram text = some reading) (hd : d ∈ reading.diagnostics) :
    d.error ≠ .unfinished := by
  obtain ⟨tokens, r, hcourse, -, hmeets⟩ := program_course text
  have hlexical (s : State) (hd : d ∈ s.lexer.errors.toList.map lexical) : d.error ≠ .unfinished := by
    obtain ⟨d, -, rfl⟩ := List.mem_map.1 hd
    nofun
  unfold readProgram at hread
  simp only [hcourse.sound] at hread
  rcases r with ⟨t, s⟩ | ⟨d' | _, s⟩
  · cases hread
    exact hlexical s (mem_sortBy.1 hd)
  · cases hread
    rcases List.mem_append.1 (mem_sortBy.1 hd) with hd | hd
    · exact hlexical s hd
    · exact List.mem_singleton.1 hd ▸ hmeets trivial
  · cases hread

/-- A reading without a tree has a fault. -/
theorem readProgram_ne_empty : readProgram text ≠ some ⟨none, []⟩ := by
  intro h
  unfold readProgram at h
  dsimp only at h
  split at h
  · cases h
  · next d s _ =>
    -- The fault that reading stopped at is listed.
    have hmem : d ∈ SyntaxDiagnostic.sort (s.lexer.errors.toList.map lexical ++ [d]) :=
      mem_sortBy.2 (by simp)
    have hnil : SyntaxDiagnostic.sort (s.lexer.errors.toList.map lexical ++ [d]) = [] :=
      congrArg Reading.diagnostics (Option.some.inj h)
    rw [hnil] at hmem
    cases hmem
  · cases h

/-- A text that is refused has a fault. -/
theorem mem_of_parse_error {d : SyntaxDiagnostic} (h : parse text = .error (.fault d)) :
    ∃ reading, readProgram text = some reading ∧ d ∈ reading.diagnostics := by
  unfold parse at h
  split at h
  · cases h
  · next hread =>
    cases h
    exact ⟨_, hread, List.mem_cons_self⟩
  · cases h
  · next hread => exact absurd hread readProgram_ne_empty

end Text

/-- How reading gets on, and comes to the end of a text. Behind the first `next` a token has been
scanned wherever a reader is called (`Course.ready`). -/
structure Progress (text : List Char) : Prop where
  /-- A reader ends at a token further on than the one that it began at, unless it fails. -/
  readers {n : Nat} {c : Context} {s s' : State} {α : Type} {p : Parse α} {a : α}
    (hs : s.lexer.Ready) (hp : Reader (rules n) s.lexer.kind p) (h : p c s = .ok a s') :
    s.lexer.start.offset < s'.lexer.start.offset
  /-- A turn ends at a token further on, unless it fails or is the last one. -/
  turns {n : Nat} {c : Context} {s s' : State} {σ : Type} {p : Parse (Option σ)} {x : σ}
    (hs : s.lexer.Ready) (hp : Turn (rules n) s.lexer.kind p) (h : p c s = .ok (some x) s') :
    s.lexer.start.offset < s'.lexer.start.offset
  /-- A look-ahead passes no end of text. -/
  lookAheads {c : Context} {s : State} {p : Parse Bool} (hs : s.lexer.Ready)
    (hk : s.lexer.kind ≠ .endOfFile) (hp : LookAhead p) :
    ∃ tokens r, Course p c s tokens r ∧ ∀ k ∈ tokens, k.kind ≠ .endOfFile
  /-- The text is read in a course: neither its readers nor their look-aheads pass its end. One token
  is reached by passing what stands in front of the text, and at most one for each character. There is a
  result, a tree or the faults, unless the course aborts, and that it does only behind a string that is
  not closed. -/
  course : ∃ tokens r, Course (program (Text.size text) (2 * text.length + 4))
    { limit := text.length + 2 } { lexer := (Lexer.ofText text).skipShebang } tokens r ∧
    tokens.length ≤ text.length + 1 ∧
    (readProgram text = none ↔ ∃ s, r = .error .abort s) ∧
    ∀ s, r = .error .abort s → s.lexer.MissesQuote
  /-- It is not given up for lack of turns or levels. -/
  finished : ∀ reading, readProgram text = some reading →
    ∀ d ∈ reading.diagnostics, d.error ≠ .unfinished
  /-- A text that is refused has a fault. -/
  refused : ∀ d, parse text = .error (.fault d) →
    ∃ reading, readProgram text = some reading ∧ d ∈ reading.diagnostics

/-- Reading always gets on, and every text (with offsets in 32 bits, every one below `2 ^ 32` bytes)
is read to its end or to a fault, unless the reading aborts. -/
theorem parse_progresses (text : List Char) : Progress text where
  readers {n c s _ _ _ _} hs hp h := by
    have hfed : Fed False n 2 c.limit s.lexer := ⟨hs, False.elim, False.elim, False.elim⟩
    exact (hp.paces (rules_paced n) hfed).offset_lt id hs h
  turns {n c s _ _ _ _} hs hp h := by
    have hfed : Fed False n 2 c.limit s.lexer := ⟨hs, False.elim, False.elim, False.elim⟩
    exact (hp.paces (rules_paced n) hfed).offset_lt (fun hgoes => hgoes (Option.some_ne_none _)) hs h
  lookAheads {c s _} hs hk hp := by
    have hfed : Fed False 0 0 c.limit s.lexer := ⟨hs, False.elim, False.elim, False.elim⟩
    obtain ⟨tokens, r, hcourse, -⟩ := hp.paces hfed hk s rfl
    exact ⟨tokens, r, hcourse, hcourse.kind_ne⟩
  course := by
    obtain ⟨tokens, r, hcourse, hlength, hmeets⟩ := program_course text
    refine ⟨tokens, r, hcourse, hlength, readProgram_eq_none_iff hcourse.sound, ?_⟩
    rintro s rfl
    exact hmeets trivial
  finished _ hread _ := readProgram_finished hread
  refused _ := mem_of_parse_error

theorem parse_progresses_call : ∃ (s s' : State) (t : Tree),
    statement (rules 14) { limit := 7 } s = .ok t s' ∧
      s.lexer.start.offset < s'.lexer.start.offset := by
  let s : State := { lexer := (Lexer.ofText "f(1);".toList).scan }
  have hready : s.lexer.Ready := (Lexer.scan_ready (Lexer.ofText "f(1);".toList)).1
  have hrun : (EStateM.run' (fun _ => statement (rules 14) { limit := 7 } s) s).isSome = true := by
    decide +kernel
  cases h : statement (rules 14) { limit := 7 } s with
  | ok t s' =>
    exact ⟨s, s', t, h, (parse_progresses "f(1);".toList).readers hready .statement h⟩
  | error d s' =>
    rw [h] at hrun
    cases hrun

/-- The key of the method cannot be cut between its first byte and its last, which belongs to `é`. -/
def openKey : List Char := "class A \x7b 'é\n() \x7b\x7d \x7d".toList

theorem parse_openKey : parse openKey = .error .abort := by
  have hread : (readProgram openKey).isNone = true := by decide +kernel
  exact parse_eq_abort_iff.2 (Option.isNone_iff_eq_none.1 hread)

end LoopClosure.Grammar
