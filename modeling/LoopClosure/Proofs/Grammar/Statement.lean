import LoopClosure.Grammar.Statement
import LoopClosure.Proofs.Grammar.Expression

/-!
# Statements read well-formed trees

A statement adds up to three nodes between itself and the statements in it: a `try` statement, its
clause and its block.
-/

namespace LoopClosure.Grammar

open Syntax Token

variable {cs : List Char} {D : Nat} {a : Mark} {c : Context} {s s₀ : Track} {t : Tree}
  {ts : List Tree} {rules : Rules}

/-- The statements in a statement lie one node deeper than in its parts. -/
theorem fits_statement {k : Nat} {form : Form Tree} (h : isPlain form = true)
    (hc : form.isSealed = false) (hl : form.isLoop = false) (hk : k < 3) :
    Fits (levels c + k) (levels c + (k + 1)) form :=
  have hle := levels_le c
  .deeper h hc hl (by omega) (by omega)

/-- The head of a loop holds expressions. -/
theorem fits_loop {k : Nat} {form : Form Tree} (hl : form.isLoop = true)
    (hfirst : ∀ t, form.loopStart? = some t → t.IsStart)
    (hexpressions : ∀ t ∈ form.loopExpressions, t.statementDepth = 0) (hk : k < 3) :
    Fits (levels c + k) (levels c + (k + 1)) form :=
  have hle := levels_le c
  .loop hl hfirst hexpressions (by omega) (by omega)

/-- The current token is a word of three letters at least, as those that begin declarations. -/
def AtDeclaration (s : Track) : Prop := ∃ k, s.kind = .word k ∧ 3 ≤ k.chars.length

theorem AtDeclaration.same {s' : Track} (hs : s.Same s') (h : AtDeclaration s) :
    AtDeclaration s' := by
  obtain ⟨k, hk, hlen⟩ := h
  exact ⟨k, hs.kind.trans hk, hlen⟩

/-! ## What binds -/

theorem parts_declarator {target : Tree} {init : Option Tree} (h : target.Bare) :
    Tree.Parts (Form.declarator target init).number (Form.declarator target init).children where
  block _ _ hk := nomatch hk
  inner hfunction := nomatch hfunction
  bare _ _ hk ht := List.mem_singleton.1 (Form.mem_bound_number hk ht) ▸ h
  declarators hbindings := nomatch hbindings

theorem parts_bindings {keyword : VarKeyword} {ds : List Tree}
    (h : ∀ d ∈ ds, d.form.isDeclarator = true) :
    Tree.Parts (Form.bindings keyword ds).number (Form.bindings keyword ds).children where
  block _ _ hk := nomatch hk
  inner hfunction := nomatch hfunction
  bare _ _ hk := nomatch hk
  declarators _ := h

theorem parts_catchClause {param : Option Tree} {body : Tree} (h : ∀ t ∈ param, t.Bare) :
    Tree.Parts (Form.catchClause param body).number (Form.catchClause param body).children where
  block _ _ hk := nomatch hk
  inner hfunction := nomatch hfunction
  bare _ t hk ht := h t (Option.mem_toList.1 (Form.mem_bound_number hk ht))
  declarators hbindings := nomatch hbindings

section Sound

variable (hr : Sound cs rules)
include hr

/-! ## Variables -/

theorem declarator_reads : Reads cs 0 (declarator rules) c := by
  intro s hs
  refine .step here_eq (((bindingTarget_reads hr s hs).yields (bindingTarget_bare hr.bare)).bind
    fun target s' ⟨h, hbare⟩ => ?_)
  have row := h.row (.of hs)
  refine Row.optional (Row.stable.acceptPunct row) (hr.assignment c) fun init s' row => ?_
  exact row.finish_child hs ⟨.flat nofun rfl nofun (parts_declarator hbare) nofun (Nat.zero_le _),
    Nat.zero_le _, rfl, rfl, rfl, rfl, rfl⟩ rfl (by simp [Form.children])

theorem declarators_spec {keyword : VarKeyword} (hs : s.Ready cs) (hk : AtDeclaration s) :
    Ensures (declarators rules keyword) c s fun t s' =>
      Spans cs 1 s t s' ∧ t.form.trail = 0 ∧ t.form.spelling? = none ∧ t.IsStart := by
  obtain ⟨k, hk, hlen⟩ := hk
  have row : Row cs 0 (s.mark + k.chars.length) s.advance [] := Row.word (.of hs) hk
  have hword : Text.isBoundary cs (s.here + 3) = true :=
    hs.isBoundary_add (by rw [hk]; rfl) (by rw [hk]; exact hlen)
  have hothers : Yields (collect (behindComma (declarator rules)))
      fun ts => ∀ t ∈ ts, t.form.isDeclarator = true := .collect
    (.step fun _ => .ite (declarator_yields.bind fun t ht => .pure (by simpa using ht)) (.pure nofun))
  refine .step here_eq (.step next_eq (((row.read (declarator_reads hr)).yields
    declarator_yields).bind fun t s' ⟨row, ht⟩ => ?_))
  refine ((row.others (declarator_reads hr)).yields hothers).bind fun others s' ⟨row, hothers⟩ =>
    .done finish_eq ⟨?_, rfl, rfl, .inr ⟨rfl, Nat.le_zero.1 row.depth⟩⟩
  have hlt := row.lt (by simp)
  rw [Mark.offset_add, Mark.offset_mark] at hlt
  exact row.encloses hs row.ready (.refl s') (.flat (fun _ h => nomatch h) rfl (fun h => nomatch h)
      (parts_bindings (List.forall_mem_cons.2 ⟨ht, hothers⟩)) (fun _ => Nat.zero_lt_one)
      (Nat.le_add_left 1 3002)) rfl hlen (Nat.le_refl _) (by omega)
    ⟨hs.reach.isBoundary, row.ready.edge, hword, row.ready.edge⟩ nofun rfl nofun

/-- The statement ends behind its semicolon. -/
theorem variableStatement_spec {keyword : VarKeyword} (hs : s.Ready cs) (hk : AtDeclaration s) :
    Ensures (variableStatement rules keyword) c s (Spans cs 1 s) := by
  refine .step here_eq ((declarators_spec hr hs hk).bind fun t s' ⟨h, htrail, hspelling, _⟩ => ?_)
  refine (Row.stable.semicolon (h.row (.of hs))).bind fun _ s' row => .step get_eq ?_
  exact .pure (row.withRange hs h.start htrail hspelling)

omit hr in
theorem declarationKeyword?_spec : Ensures declarationKeyword? c s fun o s' =>
    s.Same s' ∧ (o.isSome = true → AtDeclaration s) := by
  refine .step kind_eq ?_
  split
  · next hk => exact .pure ⟨.refl s, fun _ => ⟨_, hk, by decide⟩⟩
  · next hk => exact .pure ⟨.refl s, fun _ => ⟨_, hk, by decide⟩⟩
  · next hk =>
    refine lookAhead_spec.bind fun b s' hsame => .ite (fun _ => ?_) fun _ => ?_
    · exact .pure ⟨hsame, fun _ => ⟨_, hk, by decide⟩⟩
    · exact .pure ⟨hsame, fun _ => ⟨_, hk, by decide⟩⟩
  · exact .pure ⟨.refl s, fun h => nomatch h⟩

/-! ## Control flow -/

theorem condition_spec (h : Row cs D a s ts) : Ensures (condition rules) c s fun t s' =>
    Row cs D a s' (ts ++ [t]) ∧ t.statementDepth = 0 := by
  refine (Row.stable.expectPunct h).bind fun _ s' row => ?_
  refine (row.readExpression (p := withIn (expression rules)) (expression_reads hr)).bind
    fun t s' ⟨row, ht⟩ => ?_
  exact (Row.stable.expectPunct row).bind fun _ s' row => .pure ⟨row, ht⟩

theorem ifStatement_spec (hs : s.Ready cs) (hk : s.kind ≠ .endOfFile) :
    Ensures (ifStatement rules) c s (Spans cs (levels c + 1) s) := by
  have row : Row cs (levels c) (s.mark + 1) s.advance [] := Row.token (.of hs) hk
  refine .step here_eq (.step next_eq ((condition_spec hr row).bind fun test s' ⟨row, _⟩ => ?_))
  refine (row.read (hr.statement c)).bind fun consequent s' row => ?_
  refine Row.optional (Row.stable.acceptWord row) (hr.statement c) fun alternate s' row => ?_
  exact row.finish_token hs (fits_statement (k := 0) rfl rfl rfl (by omega))

theorem whileStatement_spec (hs : s.Ready cs) (hk : s.kind ≠ .endOfFile) :
    Ensures (whileStatement rules) c s (Spans cs (levels c + 1) s) := by
  have row : Row cs (levels c) (s.mark + 1) s.advance [] := Row.token (.of hs) hk
  refine .step here_eq (.step next_eq ((condition_spec hr row).bind fun test s' ⟨row, htest⟩ => ?_))
  refine (row.read (hr.statement c)).bind fun body s' row => ?_
  exact row.finish_token hs (fits_loop (k := 0) rfl (fun _ h => nomatch h)
    (List.forall_mem_singleton.2 htest) (by omega))

theorem doStatement_spec (hs : s.Ready cs) (hk : s.kind ≠ .endOfFile) :
    Ensures (doStatement rules) c s (Spans cs (levels c + 1) s) := by
  have row : Row cs (levels c) (s.mark + 1) s.advance [] := Row.token (.of hs) hk
  refine .step here_eq (.step next_eq ((row.read (hr.statement c)).bind fun body s' row => ?_))
  refine (Row.stable.expectWord row).bind fun _ s' row => ?_
  refine (condition_spec hr row).bind fun test s' ⟨row, htest⟩ => ?_
  refine (Row.stable.acceptPunct row).bind fun _ s' row => ?_
  exact row.finish_token hs (fits_loop (k := 0) rfl (fun _ h => nomatch h)
    (List.forall_mem_singleton.2 htest) (by omega))

theorem withStatement_spec (hs : s.Ready cs) (hk : s.kind ≠ .endOfFile) :
    Ensures (withStatement rules) c s (Spans cs (levels c + 1) s) := by
  have row : Row cs (levels c) (s.mark + 1) s.advance [] := Row.token (.of hs) hk
  refine .step here_eq (.step next_eq ((condition_spec hr row).bind fun object s' ⟨row, _⟩ => ?_))
  refine (row.read (hr.statement c)).bind fun body s' row => ?_
  exact row.finish_token hs (fits_statement (k := 0) rfl rfl rfl (by omega))

theorem labeledStatement_reads : Reads cs (levels c + 1) (labeledStatement rules) c := by
  intro s hs
  refine .step here_eq ((identifier_reads s hs).bind fun label s' h => ?_)
  have row := (h.deepen (Nat.zero_le (levels c))).row (.of hs)
  refine (Row.stable.expectPunct row).bind fun _ s' row => ?_
  refine (row.read (hr.statement c)).bind fun body s' row => ?_
  exact row.finish_child hs (fits_statement (k := 0) rfl rfl rfl (by omega)) rfl
    (by simp [Form.children])

theorem expressionStatement_reads : Reads cs 1 (expressionStatement rules) c := by
  intro s hs
  refine .step here_eq ((expression_reads hr s hs).bind fun e s' h => ?_)
  refine (Row.stable.semicolon (h.row (.of hs))).bind fun _ s' row => ?_
  exact row.finish_child hs (.leaf rfl rfl) rfl (by simp [Form.children])

/-- An expression that may be missing. -/
theorem optionalExpression_spec {close : Punctuator} (h : Row cs D a s ts) :
    Ensures (optionalExpression rules close) c s fun o s' =>
      Row cs D a s' (ts ++ o.toList) ∧ ∀ t ∈ o.toList, t.statementDepth = 0 := by
  refine .step isPunct_eq (.ite (fun _ => .pure ⟨by simpa using h, fun _ h => nomatch h⟩)
    fun _ => .map ((h.readExpression (expression_reads hr)).mono fun t s' ⟨row, ht⟩ => ?_))
  exact ⟨row, List.forall_mem_singleton.2 ht⟩

theorem returnStatement_spec (hs : s.Ready cs) (hk : s.kind ≠ .endOfFile) :
    Ensures (returnStatement rules) c s (Spans cs 1 s) := by
  have row : Row cs 0 (s.mark + 1) s.advance [] := Row.token (.of hs) hk
  refine .step here_eq (.step next_eq (canEndStatement_spec.bind ?_))
  rintro b s' rfl
  refine .branch (P := fun o s' => Row cs 0 (s.mark + 1) s' (Option.toList o)) (fun _ => .pure row)
    (fun _ => .map (row.read (expression_reads hr))) fun argument s' row => ?_
  exact (Row.stable.semicolon row).bind fun _ s' row => row.finish_token hs (.leaf rfl rfl)

theorem throwStatement_spec (hs : s.Ready cs) (hk : s.kind ≠ .endOfFile) :
    Ensures (throwStatement rules) c s (Spans cs 1 s) := by
  have row : Row cs 0 (s.mark + 1) s.advance [] := Row.token (.of hs) hk
  refine .step here_eq (.step next_eq (.step afterLineBreak_eq ?_))
  refine .ite (fun _ => .fail_bind) fun _ => ?_
  refine (row.read (expression_reads hr)).bind fun argument s' row => ?_
  exact (Row.stable.semicolon row).bind fun _ s' row => row.finish_token hs (.leaf rfl rfl)

omit hr in
theorem jumpStatement_spec {jump : JumpKind} (hs : s.Ready cs) (hk : s.kind ≠ .endOfFile) :
    Ensures (jumpStatement jump) c s (Spans cs 1 s) := by
  have row : Row cs 0 (s.mark + 1) s.advance [] := Row.token (.of hs) hk
  refine .step here_eq (.step next_eq (canEndStatement_spec.bind ?_))
  rintro b s' rfl
  refine isIdentifier_spec.bind fun b' s' h => ?_
  obtain ⟨rfl, -⟩ := h
  refine .branch (P := fun o s' => Row cs 0 (s.mark + 1) s' (Option.toList o) ∧
      ∀ t ∈ o.toList, t.IsName) (fun _ => .map ?_) (fun _ => .pure ⟨row, fun _ h => nomatch h⟩)
    fun label s' ⟨row, hname⟩ => ?_
  · refine (identifier_spec row.ready).mono fun t s' h => ?_
    exact ⟨row.append (h.1.row (.of row.ready)), by simpa using h.2⟩
  · refine (Row.stable.semicolon row).bind fun _ s' row => ?_
    exact row.finish_token hs ⟨.flat (fun _ h => nomatch h) rfl (fun _ => hname)
      (parts_of_not_isBinder rfl) (fun _ => Nat.zero_lt_one) (Nat.le_add_left 1 3002),
      Nat.le_refl _, rfl, rfl, rfl, rfl, rfl⟩

theorem catchClause_spec (hs : s.Ready cs) (hk : s.kind ≠ .endOfFile) :
    Ensures (catchClause rules) c s (Spans cs (levels c + 2) s) := by
  have row : Row cs (levels c + 1) (s.mark + 1) s.advance [] := Row.token (.of hs) hk
  refine .step here_eq (.step next_eq ((Row.stable.acceptPunct row).bind fun b s' row => ?_))
  extract_lets rest
  have hrest : ∀ o s', (∀ t ∈ o, t.Bare) → Row cs (levels c + 1) (s.mark + 1) s' (Option.toList o) →
      Ensures (rest o) c s' (Spans cs (levels c + 2) s) := fun o s' hbare row =>
    (row.read (block_reads hr)).bind fun body s' row =>
      row.finish_token hs ⟨.deeper nofun rfl rfl nofun nofun (parts_catchClause hbare)
        (Nat.lt_succ_self _) (by have := levels_le c; omega), Nat.zero_le _, rfl, rfl, rfl, rfl, rfl⟩
  clear_value rest
  refine .ite (fun _ => ?_) fun _ => .step pure_eq (hrest none s' nofun row)
  refine ((row.read (bindingTarget_reads hr).lift).yields (bindingTarget_bare hr.bare)).bind
    fun param s' ⟨row, hbare⟩ => ?_
  exact (Row.stable.expectPunct row).bind fun _ s' row =>
    .step pure_eq (hrest (some param) s' (by simpa using hbare) row)

theorem tryStatement_spec (hs : s.Ready cs) (hk : s.kind ≠ .endOfFile) :
    Ensures (tryStatement rules) c s (Spans cs (levels c + 3) s) := by
  have row : Row cs (levels c + 2) (s.mark + 1) s.advance [] := Row.token (.of hs) hk
  have hblock : Reads cs (levels c + 2) (block rules) c := (block_reads hr).deepen (Nat.le_succ _)
  refine .step here_eq (.step next_eq ((row.read hblock).bind fun body s' row => ?_))
  refine .step isWord_eq ?_
  refine .branch (P := fun o s' => Row cs (levels c + 2) (s.mark + 1) s' ([body] ++ Option.toList o))
    (fun hcatch => ?_) (fun _ => .pure (by simpa using row)) fun handler s' row => ?_
  · have hk : s'.kind ≠ .endOfFile := by simp [of_decide_eq_true hcatch]
    exact .map ((catchClause_spec hr row.ready hk).mono fun t s' h =>
      row.append (h.row (.of row.ready)))
  refine Row.optional (Row.stable.acceptWord row) hblock fun finalizer s' row => ?_
  refine .ite (fun _ => .fail_bind) fun _ => ?_
  exact row.finish_token hs (fits_statement (k := 2) rfl rfl rfl (by omega))

theorem switchCase_reads : Reads cs (levels c + 1) (switchCase rules) c := by
  intro s hs
  refine .step here_eq ?_
  have htest : Ensures (caseTest rules) c s fun o s' =>
      Row cs (levels c) (s.mark + 1) s' (Option.toList o) := by
    refine accept_spec.bind fun b s' h => .ite (fun hb => ?_) fun hb => ?_
    · obtain ⟨-, hk, rfl⟩ := h.resolve_right fun h => by simp [hb] at h
      have row : Row cs (levels c) (s.mark + 1) s.advance [] :=
        Row.token (.of hs) (by simp [hk])
      exact (row.read (expression_reads hr).lift).bind fun t s' row => .pure row
    obtain ⟨-, rfl⟩ := h.resolve_left fun h => hb h.1
    refine accept_spec.bind fun b s'' h => .ite (fun hb => ?_) fun _ => .fail
    obtain ⟨-, hk, rfl⟩ := h.resolve_right fun h => by simp [hb] at h
    exact .pure (Row.token (.of hs) (by simp [hk]))
  refine htest.bind fun test s' row => (Row.stable.expectPunct row).bind fun _ s' row => ?_
  refine (collect_spec (I := fun ts s' => Row cs (levels c) (s.mark + 1) s' (test.toList ++ ts)) ?_
    (by simpa using row)).bind fun ts s' row => ?_
  · intro ts s row
    refine .step kind_eq ?_
    split
    · exact .pure (by simpa using row)
    · exact .pure (by simpa using row)
    · exact .pure (by simpa using row)
    · exact .pure (by simpa using row)
    · exact (row.read (hr.statement c)).bind fun t s' row => .pure (by simpa using row)
  · exact row.finish_token hs (fits_statement (k := 0) rfl rfl rfl (by omega))

theorem switchStatement_spec (hs : s.Ready cs) (hk : s.kind ≠ .endOfFile) :
    Ensures (switchStatement rules) c s (Spans cs (levels c + 2) s) := by
  have row : Row cs (levels c + 1) (s.mark + 1) s.advance [] := Row.token (.of hs) hk
  refine .step here_eq (.step next_eq ((condition_spec hr row).bind fun t s' ⟨row, _⟩ => ?_))
  refine (Row.stable.expectPunct row).bind fun _ s' row => ?_
  refine (collect_until (I := fun ts s' => Row cs (levels c + 1) (s.mark + 1) s' ([t] ++ ts))
    (Q := fun s' => s'.kind = .punct .closeBrace) ?_ (by simpa using row)).bind
    fun ts s' ⟨row, hclose⟩ => .step next_eq ?_
  · intro ts s row
    refine .step isPunct_eq (.ite (fun hclose => ?_) fun _ => ?_)
    · exact .pure ⟨by simpa using row, fun _ => of_decide_eq_true hclose⟩
    · exact (row.read (switchCase_reads hr)).bind fun t s' row => .pure ⟨by simpa using row, nofun⟩
  · exact (Row.stable.advance row (by simp [hclose])).finish_token hs
      (fits_statement (k := 1) rfl rfl rfl (by omega))

/-- A loop over a collection, from `in` or `of` on. -/
theorem forEach_spec {each : Iteration} {left : Tree} (hs : s₀.Ready cs)
    (row : Row cs (levels c + 1) (s₀.mark + 1) s [left]) (hk : s.kind ≠ .endOfFile)
    (hleft : left.IsStart) : Ensures (do
      next
      let right ← withIn (if each = .values then rules .assignment else expression rules)
      expectPunct .closeParen
      let body ← rules .statement
      finish s₀.here (.forEach each left right body)) c s (Spans cs (levels c + 2) s₀) := by
  have hright : Reads cs 0
      (withIn (if each = .values then rules .assignment else expression rules)) c := fun s hs =>
    .withIn <| .ite (fun _ => hr.assignment _ s hs) fun _ => expression_reads hr s hs
  refine .step next_eq (((Row.stable.advance row hk).readExpression hright).bind
    fun right s' ⟨row, hright⟩ => ?_)
  refine (Row.stable.expectPunct row).bind fun _ s' row => ?_
  refine (row.read ((hr.statement c).deepen (Nat.le_succ _))).bind fun body s' row => ?_
  refine row.finish_token hs (fits_loop (k := 1) rfl (fun t ht => ?_)
    (List.forall_mem_singleton.2 hright) (by omega))
  obtain rfl := Option.some.inj ht
  exact hleft

theorem forStatement_spec (hs : s.Ready cs) (hk : s.kind ≠ .endOfFile) :
    Ensures (forStatement rules) c s (Spans cs (levels c + 2) s) := by
  have row : Row cs (levels c + 1) (s.mark + 1) s.advance [] := Row.token (.of hs) hk
  refine .step here_eq (.step next_eq ((Row.stable.expectPunct row).bind fun _ s' row => ?_))
  refine .bind (P := fun o s'' => Row cs (levels c + 1) (s.mark + 1) s'' (Option.toList o) ∧
    ∀ t ∈ o.toList, t.IsStart) ?_ fun init s' ⟨row, hinit⟩ => .step kind_eq ?_
  · refine .withoutIn (.step isPunct_eq (.ite (fun _ => .pure ⟨row, fun _ h => nomatch h⟩)
      fun _ => ?_))
    refine declarationKeyword?_spec.bind fun o s'' h => ?_
    obtain ⟨hsame, hk⟩ := h
    have row := Row.stable.same row hsame
    cases o with
    | none =>
      refine .map ((row.readExpression (expression_reads hr)).mono fun t u ⟨row, ht⟩ => ⟨row, ?_⟩)
      exact List.forall_mem_singleton.2 (.of_expression ht)
    | some keyword =>
      have hk := (hk rfl).same hsame
      refine .map ((declarators_spec hr row.ready hk).mono fun t u h => ⟨?_, ?_⟩)
      · exact row.append ((h.1.deepen (Nat.succ_le_succ (Nat.zero_le _))).row (.of row.ready))
      · exact List.forall_mem_singleton.2 h.2.2.2
  extract_lets rest
  have hrest : ∀ each, (each.isSome = true → s'.kind ≠ .endOfFile) →
      Ensures (rest each) c s' (Spans cs (levels c + 2) s) := by
    intro each hk
    dsimp only [rest]
    split
    · next left each _ =>
      have hleft : left.IsStart := hinit left List.mem_cons_self
      split
      · exact .step pure_eq (forEach_spec hr hs row (hk rfl) hleft)
      · next hnot =>
        refine target_spec.bind ?_
        rintro u t ⟨rfl, hu⟩
        exact forEach_spec hr hs (row.recast hu) (hk rfl)
          (.of_expression (hu.depth.trans (hleft.depth_of_not_bindings hnot)))
    · refine (Row.stable.expectPunct row).bind fun _ s' row => ?_
      refine (optionalExpression_spec hr row).bind fun test s' ⟨row, htest⟩ => ?_
      refine (Row.stable.expectPunct row).bind fun _ s' row => ?_
      refine (optionalExpression_spec hr row).bind fun step s' ⟨row, hstep⟩ => ?_
      refine (Row.stable.expectPunct row).bind fun _ s' row => ?_
      refine (row.read ((hr.statement c).deepen (Nat.le_succ _))).bind fun body s' row => ?_
      refine row.finish_token hs (fits_loop (k := 1) rfl (fun t ht => ?_)
        (fun t ht => ?_) (by omega))
      · obtain rfl : init = some t := ht
        exact hinit t List.mem_cons_self
      · exact (List.mem_append.1 ht).elim (htest t) (hstep t)
  clear_value rest
  split
  · next hk => exact .step pure_eq (hrest _ fun _ => by simp [hk])
  · next hk => exact .step pure_eq (hrest _ fun _ => by simp [hk])
  · exact .step pure_eq (hrest _ nofun)

theorem plainStatement_reads : Reads cs (levels c + 1) (plainStatement rules) c := by
  intro s hs
  refine isIdentifier_spec.bind fun b s' h => ?_
  obtain ⟨rfl, -⟩ := h
  refine .branch (P := fun _ t => s'.Same t) (fun _ => lookAhead_spec) (fun _ => .pure (.refl s'))
    fun labeled t hsame => .ite (fun _ => ?_) fun _ => ?_
  · exact (labeledStatement_reads hr).after hs hsame
  · exact ((expressionStatement_reads hr).deepen (Nat.le_add_left 1 _)).after hs hsame

theorem statement_reads : Reads cs (levels c + 3) (statement rules) c := by
  intro s hs
  refine .step here_eq (.step kind_eq ?_)
  have token (hk : s.kind ≠ .endOfFile) : Row cs 0 (s.mark + 1) s.advance [] :=
    Row.token (.of hs) hk
  have leaf {p : Parse Tree} {s' : Track} (h : Ensures p c s' (Spans cs 1 s)) :
      Ensures p c s' (Spans cs (levels c + 3) s) := h.deepen (by omega)
  have hplain : Reads cs (levels c + 3) (plainStatement rules) c :=
    (plainStatement_reads hr).deepen (by omega)
  split
  · exact (block_reads hr s hs).deepen (by omega)
  · next hk => exact .step next_eq (leaf ((token (by simp [hk])).finish_token hs (.leaf rfl rfl)))
  · next hk => exact leaf (variableStatement_spec hr hs ⟨_, hk, by decide⟩)
  · next hk => exact leaf (variableStatement_spec hr hs ⟨_, hk, by decide⟩)
  · next hk =>
    refine lookAhead_spec.bind fun b s' hsame => .ite (fun _ => ?_) fun _ => hplain.after hs hsame
    have hk : AtDeclaration s' := .same hsame ⟨_, hk, by decide⟩
    exact leaf ((variableStatement_spec hr (hsame.ready hs) hk).after hsame)
  · exact (function_reads hr s hs).lift
  · refine lookAhead_spec.bind fun b s' hsame => .ite (fun _ => ?_) fun _ => hplain.after hs hsame
    exact (function_reads hr).lift.after hs hsame
  · exact leaf (classDeclaration_reads hr s hs)
  · next hk => exact (ifStatement_spec hr hs (by simp [hk])).deepen (by omega)
  · next hk => exact (forStatement_spec hr hs (by simp [hk])).deepen (by omega)
  · next hk => exact (whileStatement_spec hr hs (by simp [hk])).deepen (by omega)
  · next hk => exact (doStatement_spec hr hs (by simp [hk])).deepen (by omega)
  · next hk => exact leaf (returnStatement_spec hr hs (by simp [hk]))
  · next hk => exact (jumpStatement_spec hs (by simp [hk])).deepen (by omega)
  · next hk => exact (jumpStatement_spec hs (by simp [hk])).deepen (by omega)
  · next hk => exact leaf (throwStatement_spec hr hs (by simp [hk]))
  · next hk => exact tryStatement_spec hr hs (by simp [hk])
  · next hk => exact (switchStatement_spec hr hs (by simp [hk])).deepen (by omega)
  · next hk => exact (withStatement_spec hr hs (by simp [hk])).deepen (by omega)
  · next hk =>
    refine .step next_eq ((Row.stable.semicolon (token (by simp [hk]))).bind fun _ s' row => ?_)
    exact leaf (row.finish_token hs (.leaf rfl rfl))
  · exact .fail
  · exact .fail
  · exact hplain s hs

end Sound

theorem variableStatement_yields {keyword : VarKeyword} :
    Yields (variableStatement rules keyword) fun t => t.form.isBindings = true := by
  have hdeclarators : Yields (declarators rules keyword) fun t => t.form.isBindings = true :=
    .step fun _ => .step fun _ => .step fun _ => .step fun _ => finish_yields fun _ => rfl
  refine .step fun _ => hdeclarators.bind fun t ht => .step fun _ => .step fun _ => .pure ?_
  cases t
  exact ht

theorem statement_declares : Declares (statement rules) c := by
  intro s hvar
  refine .step here_eq (.step kind_eq ?_)
  rw [hvar]
  exact .of_yields variableStatement_yields

end LoopClosure.Grammar
