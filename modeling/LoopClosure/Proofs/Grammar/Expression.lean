import LoopClosure.Grammar.Expression
import LoopClosure.Proofs.Grammar.Function
import LoopClosure.Proofs.Syntax.Pattern

/-!
# Expressions read well-formed trees

No statement lies in an expression, but for those inside functions.
-/

namespace LoopClosure.Grammar

open Syntax Token

variable {cs : List Char} {D : Nat} {a : Mark} {c : Context} {s s₀ : Track} {t : Tree}
  {ts : List Tree} {rules : Rules}

theorem target_spec : Ensures (target t) c s fun u s' => s' = s ∧ Tree.Recast t u := by
  unfold target
  split
  · next u hu => exact .pure ⟨rfl, Tree.recast_toPattern hu⟩
  · intro a s' hr
    cases hr

/-- The pattern that a literal stands for takes its place. -/
theorem Row.recast {u : Tree} (h : Row cs D a s [t]) (hu : Tree.Recast t u) : Row cs D a s [u] where
  ready := h.ready
  leads := h.leads
  spread := Tree.Recast.spread (.cons hu .nil) h.spread
  kids := Tree.Recast.kids (.cons hu .nil) h.kids
  reads := Tree.Recast.reads (.cons hu .nil) h.reads
  depth := Tree.Recast.statementDepths (.cons hu .nil) ▸ h.depth

theorem Track.Ready.rescan {g : Lexer → Lexer} (h : s.Ready cs) (hstart : (g s.lexer).start = s.lexer.start)
    (hg : Lexed cs s.past (g s.lexer)) : (s.rescan g).Ready cs where
  lexed := hg
  prevStop := by
    unfold Track.here Track.rescan
    rw [hstart]
    exact h.prevStop
  edge := h.edge
  ends := h.ends
  settled := h.settled

theorem Row.rescanTemplate (h : Row cs D a s ts) : Row cs D a (s.rescan Lexer.rescanTemplate) ts :=
  have hstart := (Lexer.rescanTemplate_ready h.ready.lexer).2
  { h with
    ready := h.ready.rescan hstart h.ready.lexed.template
    leads := h.leads.trans (Track.leads_rescan hstart) }

/-- A slash read again as a regular expression. -/
theorem regExp_spec (hs : s.Ready cs) (hk : s.kind ≠ .endOfFile) :
    Ensures (rescan Lexer.rescanSlash >>= fun _ => literal .regExp) c s (Spans cs 0 s) := by
  have hstart := (Lexer.rescanSlash_ready hs.lexer).2
  have hready := hs.rescan hstart hs.lexed.slash
  have hhere : (s.rescan Lexer.rescanSlash).here = s.here := congrArg Text.Cursor.offset hstart
  refine .step (rescan_eq hstart) ((literal_spec hready (Lexer.rescanSlash_kind hk)).mono fun t s' ht => ?_)
  exact { ht with
    leads := (Track.leads_rescan hstart).trans ht.leads
    start := ht.start.trans hhere
    lt := hhere ▸ ht.lt }

theorem startsExpression_spec : Ensures startsExpression c s fun _ s' => s' = s := by
  refine .step kind_eq ?_
  split
  · split
    all_goals exact .pure rfl
  all_goals exact .pure rfl

section Sound

variable (hr : Sound cs rules)
include hr

theorem templateLiteral_spec (hs : s.Ready cs) (hk : s.kind ≠ .endOfFile) :
    Ensures (templateLiteral rules) c s (Spans cs 0 s) := by
  refine .step here_eq (.step kind_eq ?_)
  have first : Row cs 0 (s.mark + 1) s.advance [] := Row.token (.of hs) hk
  extract_lets rest
  have hrest : ∀ es s', Row cs 0 (s.mark + 1) s'.advance es → Ensures (rest es) c s' (Spans cs 0 s) :=
    fun es s' row => .step next_eq (row.finish_token hs (.plain rfl))
  refine .ite (fun _ => ?_) fun _ => .step pure_eq (hrest [] s first)
  refine (repeating_spec (I := fun x s' => Row cs 0 (s.mark + 1) s'.advance x.1.reverse) ?_
    first).bind fun x s' row => .step pure_eq (hrest _ s' row)
  rintro ⟨es, more⟩ s' row
  refine .ite (fun _ => .pure row) fun _ => .step next_eq ?_
  refine (row.read (p := withIn (expression rules)) (expression_reads hr)).bind fun e s' row => ?_
  refine .step isPunct_eq (.ite (fun _ => .fail_bind) fun hclose => ?_)
  have hk : s'.kind ≠ .endOfFile := by
    have hbrace : s'.kind = .punct .closeBrace := by simpa using hclose
    simp [hbrace]
  have hstart := (Lexer.rescanTemplate_ready row.ready.lexer).2
  refine .step (rescan_eq hstart) (.step kind_eq (.pure ?_))
  simpa using Row.stable.advance row.rescanTemplate (Lexer.rescanTemplate_kind hk)

theorem parenthesized_reads : Reads cs 0 (parenthesized rules) c := by
  intro s hs
  refine .step here_eq (expect_spec.bind fun _ s' h => ?_)
  obtain ⟨hk, rfl⟩ := h
  have row : Row cs 0 (s.mark + 1) s.advance [] := Row.token (.of hs) (by simp [hk])
  refine (row.read (p := withIn (expression rules)) (expression_reads hr)).bind fun e s' row => ?_
  exact (Row.stable.expectPunct row).bind fun _ s' row => row.finish_token hs (.plain rfl)

theorem spreadElement_reads : Reads cs 0 (spreadElement rules) c := by
  intro s hs
  refine .step here_eq (expect_spec.bind fun _ s' h => ?_)
  obtain ⟨hk, rfl⟩ := h
  have row : Row cs 0 (s.mark + 1) s.advance [] := Row.token (.of hs) (by simp [hk])
  exact (row.read (hr.assignment c)).bind fun argument s' row => row.finish_token hs (.plain rfl)

theorem valueOrSpread_reads : Reads cs 0 (valueOrSpread rules) c := by
  intro s hs
  refine .step isPunct_eq (.ite (fun _ => ?_) fun _ => ?_)
  · exact spreadElement_reads hr s hs
  · exact hr.assignment c s hs

theorem arrayLiteral_reads : Reads cs 0 (arrayLiteral rules) c := by
  intro s hs
  refine .step here_eq (expect_spec.bind fun _ s' h => ?_)
  obtain ⟨hk, rfl⟩ := h
  have row : Row cs 0 (s.mark + 1) s.advance [] := Row.token (.of hs) (by simp [hk])
  refine (Ensures.withIn (row.arrayElements (valueOrSpread_reads hr))).bind fun es s' row => ?_
  exact row.finish_token hs (.plain rfl)

theorem objectProperty_reads : Reads cs 0 (objectProperty rules) c := by
  intro s hs
  have h : From cs s.mark s := .of hs
  refine .step here_eq (.step kind_eq ?_)
  extract_lets rest
  have hrest : ∀ modifier s', From cs s.mark s' → Ensures (rest modifier) c s' (Spans cs 0 s) := by
    intro modifier s' h
    dsimp only [rest]
    refine (From.stable.acceptPunct h).bind fun isGenerator s' h => ?_
    refine isIdentifier_spec.bind fun mayBeShort s'' hshort => ?_
    obtain ⟨rfl, hshort⟩ := hshort
    refine (propertyName_spec hr h).bind ?_
    rintro ⟨key, computed⟩ s' ⟨hkey, hname⟩
    refine .step isPunct_eq (.ite (fun _ => ?_) fun _ => ?_)
    · refine (hkey.read (methodFunction_reads hr)).bind fun value s' row => ?_
      exact row.finish_child hs (.plain rfl) rfl (by simp [Form.children])
    refine (Row.stable.acceptPunct hkey).bind fun b s' hkey => .ite (fun _ => ?_) fun _ => ?_
    · refine (hkey.read (hr.assignment c)).bind fun value s' row => ?_
      exact row.finish_child hs (.plain rfl) rfl (by simp [Form.children])
    refine .ite (fun _ => .fail) fun hplain => ?_
    have hname : key.IsName := by
      simp only [Bool.or_eq_true, Bool.not_eq_true', not_or, Bool.not_eq_false, Bool.not_eq_true]
        at hplain
      exact hname (hshort hplain.1) hplain.2
    refine (Row.stable.acceptPunct hkey).bind fun b s' hkey => .ite (fun _ => ?_) fun _ => ?_
    · refine (hkey.read (hr.assignment c)).bind fun value s' row => ?_
      exact Row.finish_default row hs rfl rfl rfl hname fun h _ _ => .assigned h
    · exact Row.finish_short hs hkey hkey hname .name
  clear_value rest
  split
  · next k hk =>
    refine .ite (fun _ => modifies_spec.bind fun b s' hsame => .ite (fun _ => ?_) fun _ => ?_)
      fun _ => .step pure_eq (hrest _ _ h)
    · have hk : s'.kind = .word k := hsame.kind.trans hk
      have h := From.stable.advance (From.stable.same h hsame) (by simp [hk])
      exact .step next_eq (.step pure_eq (hrest _ _ h))
    · exact .step pure_eq (hrest _ _ (From.stable.same h hsame))
  · exact .step pure_eq (hrest _ _ h)

theorem objectLiteral_reads : Reads cs 0 (objectLiteral rules) c := by
  intro s hs
  refine .step here_eq (expect_spec.bind fun _ s' h => ?_)
  obtain ⟨hk, rfl⟩ := h
  have row : Row cs 0 (s.mark + 1) s.advance [] := Row.token (.of hs) (by simp [hk])
  refine (Ensures.withIn (row.commaList fun s hs => ?_)).bind fun ts s' row => ?_
  · refine .step isPunct_eq (.ite (fun _ => ?_) fun _ => ?_)
    · exact spreadElement_reads hr s hs
    · exact objectProperty_reads hr s hs
  · exact row.finish_token hs (.plain rfl)

theorem primary_reads : Reads cs 0 (primary rules) c := by
  intro s hs
  refine .step here_eq (.step kind_eq ?_)
  have token : ∀ k, s.kind = k → k ≠ .endOfFile → Row cs 0 (s.mark + 1) s.advance [] :=
    fun k hk hne => Row.token (.of hs) (hk ▸ hne)
  split
  · next hk => exact .step next_eq ((token _ hk (by simp)).finish_token hs (.plain rfl))
  · next hk => exact .step next_eq ((token _ hk (by simp)).finish_token hs (.plain rfl))
  · next hk => exact literal_spec hs (by simp [hk])
  · next hk => exact literal_spec hs (by simp [hk])
  · next hk => exact literal_spec hs (by simp [hk])
  · next hk => exact literal_spec hs (by simp [hk])
  · next hk => exact literal_spec hs (by simp [hk])
  · next hk => exact regExp_spec hs (by simp [hk])
  · next hk => exact regExp_spec hs (by simp [hk])
  · next hk => exact templateLiteral_spec hr hs (by simp [hk])
  · next hk => exact templateLiteral_spec hr hs (by simp [hk])
  · exact parenthesized_reads hr s hs
  · exact arrayLiteral_reads hr s hs
  · exact objectLiteral_reads hr s hs
  · exact function_reads hr s hs
  · exact classExpression_reads hr s hs
  · refine lookAhead_spec.bind fun b s' hsame => .ite (fun _ => ?_) fun _ => ?_
    · exact (function_reads hr).after hs hsame
    · exact identifier_reads.after hs hsame
  · refine isIdentifier_spec.bind fun b s' h => .ite (fun _ => ?_) fun _ => .unexpected
    obtain ⟨rfl, -⟩ := h
    exact identifier_reads s' hs

/-! ## Members and calls -/

theorem argumentList_spec (h : Row cs 0 a s ts) :
    Ensures (argumentList rules) c s fun us s' => Row cs 0 a s' (ts ++ us) :=
  (Row.stable.expectPunct h).bind fun _ _ row => .withIn (row.commaList (valueOrSpread_reads hr))

theorem computedMember_spec (h : Row cs 0 a s ts) :
    Ensures (computedMember rules) c s fun key s' => Row cs 0 a s' (ts ++ [key]) := by
  refine (Row.stable.expectPunct h).bind fun _ s' row => ?_
  refine (row.read (p := withIn (expression rules)) (expression_reads hr)).bind fun key s' row => ?_
  exact (Row.stable.expectPunct row).bind fun _ s' row => .pure row

/-- An access, a call or a template behind a tree makes a tree from the same place on. -/
theorem tailStep_spec {allowCalls : Bool} {e : Tree} (hs : s₀.Ready cs) (h : Spans cs 0 s₀ e s) :
    Ensures (tailStep rules s₀.here allowCalls e) c s fun o s' => Spans cs 0 s₀ (o.getD e) s' := by
  have row : Row cs 0 s₀.mark s [e] := h.row (.of hs)
  have member : ∀ (computed optional : Bool) (key : Tree) (s' : Track),
      Row cs 0 s₀.mark s' ([e] ++ [key]) →
      Ensures (some <$> finish s₀.here (.member e key computed optional)) c s'
        fun o s' => Spans cs 0 s₀ (o.getD e) s' := fun _ _ key s' row =>
    .map (row.finish_child hs (.plain rfl) rfl (by simp [Form.children]))
  have call : ∀ (optional : Bool) (arguments : List Tree) (s' : Track),
      Row cs 0 s₀.mark s' ([e] ++ arguments) →
      Ensures (some <$> finish s₀.here (.call e arguments optional)) c s'
        fun o s' => Spans cs 0 s₀ (o.getD e) s' := fun _ arguments s' row =>
    .map (row.finish_child hs (.plain rfl) rfl (by simp [Form.children]))
  have template (hk : s.kind ≠ .endOfFile) : Ensures (templateLiteral rules >>= fun quasi =>
      some <$> finish s₀.here (.taggedTemplate e quasi)) c s
        fun o s' => Spans cs 0 s₀ (o.getD e) s' := by
    refine (templateLiteral_spec hr h.ready hk).bind fun quasi s' hquasi => ?_
    have row := row.append (hquasi.row (.of h.ready))
    exact .map (row.finish_child hs (.plain rfl) rfl (by simp [Form.children]))
  refine .step kind_eq ?_
  split
  · next hk =>
    have row := Row.stable.advance row (by simp [hk])
    refine .step next_eq ((identifierName_spec row.ready).bind fun key s' hkey => ?_)
    exact member _ _ _ _ (row.append (hkey.1.row (.of row.ready)))
  · exact (computedMember_spec hr row).bind fun key s' row => member _ _ _ _ row
  · next hk =>
    refine .ite (fun _ => .pure h) fun _ => .step next_eq (.step kind_eq ?_)
    have row := Row.stable.advance row (by simp [hk])
    split
    · exact (computedMember_spec hr row).bind fun key s' row => member _ _ _ _ row
    · exact (argumentList_spec hr row).bind fun arguments s' row => call _ _ _ row
    · refine (identifierName_spec row.ready).bind fun key s' hkey => ?_
      exact member _ _ _ _ (row.append (hkey.1.row (.of row.ready)))
  · refine .ite (fun _ => .pure h) fun _ => ?_
    exact (argumentList_spec hr row).bind fun arguments s' row => call _ _ _ row
  · next hk => exact template (by simp [hk])
  · next hk => exact template (by simp [hk])
  · exact .pure h

theorem tail_spec {allowCalls : Bool} {e : Tree} (hs : s₀.Ready cs) (h : Spans cs 0 s₀ e s) :
    Ensures (tail rules s₀.here allowCalls e) c s (Spans cs 0 s₀) :=
  repeating_spec (fun _ _ => tailStep_spec hr hs) h

theorem newExpression_reads : Reads cs 0 (newExpression rules) c := by
  intro s hs
  refine .step here_eq (expect_spec.bind fun _ s' h => ?_)
  obtain ⟨hk, rfl⟩ := h
  have row : Row cs 0 (s.mark + 1) s.advance [] := Row.token (.of hs) (by simp [hk])
  refine .step isPunct_eq (.ite (fun _ => .fail_bind) fun _ => .step here_eq (.step isWord_eq ?_))
  refine .branch (P := Spans cs 0 s.advance) (fun _ => ?_) (fun _ => ?_) fun callee s' h => ?_
  · exact Reads.nested (fun _ => hr.new _) _ row.ready
  · exact primary_reads hr _ row.ready
  refine (tail_spec hr row.ready h).bind fun callee s' h => .step isPunct_eq ?_
  have row := row.append (h.row (.of row.ready))
  refine .branch (P := fun ts s' => Row cs 0 (s.mark + 1) s' ([callee] ++ ts))
    (fun _ => argumentList_spec hr row) (fun _ => .pure (by simpa using row))
    fun arguments s' row => ?_
  exact row.finish_token hs (.plain rfl)

theorem leftHandSide_reads : Reads cs 0 (leftHandSide rules) c := by
  intro s hs
  refine .step here_eq (.step isWord_eq ?_)
  refine .branch (P := Spans cs 0 s) (fun _ => newExpression_reads hr s hs)
    (fun _ => primary_reads hr s hs) fun e s' h => tail_spec hr hs h

/-! ## Operators -/

theorem postfixed_reads : Reads cs 0 (postfixed rules) c := by
  intro s hs
  refine .step here_eq ((leftHandSide_reads hr s hs).bind fun e s' h => .step kind_eq ?_)
  refine .step afterLineBreak_eq (.ite (fun hmark => .ite (fun _ => .fail_bind) fun _ => ?_) ?_)
  · have hk : s'.kind ≠ .endOfFile := by
      intro hk
      simp [hk] at hmark
    have row := Row.stable.advance (h.row (.of hs)) hk
    exact .step next_eq (row.finish_child hs (.plain rfl) rfl (by simp [Form.children]))
  · exact fun _ => .pure h

/-- The operand of an operator in front. -/
theorem operand_spec (hs : s.Ready cs) (hk : s.kind ≠ .endOfFile) :
    Ensures (nested (rules .unary)) c s.advance fun t s' => Row cs 0 (s.mark + 1) s' [t] :=
  (Row.token (.of hs) hk).read (.nested fun _ => hr.unary _)

theorem unary_reads : Reads cs 0 (unary rules) c := by
  intro s hs
  refine .step here_eq (.step kind_eq ?_)
  have operator (k : Kind) (hk : s.kind ≠ .endOfFile) :
      Ensures (signed rules s.here k) c s (Spans cs 0 s) :=
    .step next_eq ((operand_spec hr hs hk).bind fun t s' row => row.finish_token hs (.plain rfl))
  have update (k : Kind) (hk : s.kind ≠ .endOfFile) :
      Ensures (prefixUpdate rules s.here k) c s (Spans cs 0 s) := by
    refine .step next_eq ((operand_spec hr hs hk).bind fun t s' row => ?_)
    exact .ite (fun _ => .throw_bind) fun _ => row.finish_token hs (.plain rfl)
  split
  · next hk => exact operator _ (by simp [hk])
  · next hk => exact operator _ (by simp [hk])
  · next hk => exact operator _ (by simp [hk])
  · next hk => exact operator _ (by simp [hk])
  · next hk => exact operator _ (by simp [hk])
  · next hk => exact operator _ (by simp [hk])
  · next hk => exact operator _ (by simp [hk])
  · next hk => exact update _ (by simp [hk])
  · next hk => exact update _ (by simp [hk])
  · next hk =>
    refine .step read_eq (.ite (fun _ => .step next_eq ?_) fun _ => postfixed_reads hr s hs)
    exact (operand_spec hr hs (by simp [hk])).bind fun t s' row => row.finish_token hs (.plain rfl)
  · exact postfixed_reads hr s hs

theorem binary_reads {above : Nat} : Reads cs 0 (binary rules above) c := by
  intro s hs
  refine .step here_eq ((unary_reads hr s hs).bind fun first s' h => ?_)
  refine repeating_spec (I := Spans cs 0 s) (fun left s' h => .step kind_eq (.step read_eq ?_)) h
  refine .ite (fun _ => .pure h) fun hbinds => .step next_eq ?_
  have hk : s'.kind ≠ .endOfFile := by
    intro hk
    rw [hk] at hbinds
    exact hbinds (Nat.zero_le _)
  have row := Row.stable.advance (h.row (.of hs)) hk
  refine (row.read (hr.binary c _)).bind fun right s' row => ?_
  exact .map (row.finish_child hs (.plain rfl) rfl (by simp [Form.children]))

theorem conditional_reads : Reads cs 0 (conditional rules) c := by
  intro s hs
  refine .step here_eq ((binary_reads hr s hs).bind fun test s' h => ?_)
  refine accept_spec.bind fun b s'' hb => .ite (fun hb' => ?_) fun hb' => ?_
  · obtain ⟨-, hk, rfl⟩ := hb.resolve_right fun h => by simp [hb'] at h
    have row := Row.stable.advance (h.row (.of hs)) (by simp [hk])
    refine (row.read (p := withIn (rules .assignment)) (hr.assignment _)).bind fun t s' row => ?_
    refine (Row.stable.expectPunct row).bind fun _ s' row => ?_
    refine (row.read (hr.assignment c)).bind fun t s' row => ?_
    exact row.finish_child hs (.plain rfl) rfl (by simp [Form.children])
  · obtain ⟨-, rfl⟩ := hb.resolve_left fun h => hb' h.1
    exact .pure h

theorem yieldExpression_spec (hs : s.Ready cs) (hk : s.kind ≠ .endOfFile) :
    Ensures (yieldExpression rules) c s (Spans cs 0 s) := by
  have row : Row cs 0 (s.mark + 1) s.advance [] := Row.token (.of hs) hk
  refine .step here_eq (.step next_eq (.step afterLineBreak_eq (.ite (fun _ => ?_) fun _ => ?_)))
  · exact row.finish_token hs (.plain rfl)
  refine (Row.stable.acceptPunct row).bind fun delegate s' row => startsExpression_spec.bind ?_
  rintro starts s'' rfl
  refine .branch (P := fun o s' => Row cs 0 (s.mark + 1) s' (Option.toList o)) (fun _ => ?_)
    (fun _ => .pure row) fun argument s' row => row.finish_token hs (.plain rfl)
  exact .map (row.read (hr.assignment c))

theorem assignment_reads : Reads cs 0 (assignment rules) c := by
  intro s hs
  refine startsArrow_spec.bind fun b s' hsame => .ite (fun _ => ?_) fun _ => ?_
  · exact (arrowFunction_reads hr).after hs hsame
  refine .step isWord_eq (.step read_eq (.ite (fun hyield => ?_) fun _ => ?_))
  · have hk : s'.kind ≠ .endOfFile := by
      simp only [Bool.and_eq_true, decide_eq_true_eq] at hyield
      simp [hyield.1]
    exact (yieldExpression_spec hr (hsame.ready hs) hk).after hsame
  refine .step here_eq ((conditional_reads hr).after hs hsame |>.bind fun left s'' h => ?_)
  refine .step kind_eq (.ite (fun _ => .pure h) fun hassigns => ?_)
  have row : Row cs 0 s.mark s'' [left] := h.row (.of hs)
  have hk : s''.kind ≠ .endOfFile := by
    intro hk
    rw [hk] at hassigns
    exact hassigns rfl
  extract_lets rest
  have hrest : ∀ left, Row cs 0 s.mark s'' [left] → Ensures (rest left) c s'' (Spans cs 0 s) := by
    intro left row
    refine .step next_eq (((Row.stable.advance row hk).read (hr.assignment c)).bind fun t s' row => ?_)
    rw [hsame.here]
    exact row.finish_child hs (.plain rfl) rfl (by simp [Form.children])
  clear_value rest
  refine .ite (fun _ => target_spec.bind ?_) fun _ => .ite (fun _ => ?_) fun _ => .fail_bind
  · rintro u t ⟨rfl, hu⟩
    exact hrest u (row.recast hu)
  · exact .step pure_eq (hrest left row)

end Sound

end LoopClosure.Grammar
