import LoopClosure.Grammar.Function
import LoopClosure.Proofs.Grammar.Rows

/-!
# Names, patterns, functions and classes read well-formed trees

Statements lie in a block as deep as in its statements, and one node deeper; a function or the
expression of a class counts for none, whatever is inside.
-/

namespace LoopClosure.Grammar

open Syntax Token

variable {cs : List Char} {D : Nat} {a : Mark} {c : Context} {s s₀ : Track} {ts us : List Tree}
  {rules : Rules}

/-! ## Names and patterns -/

theorem literal_spec {kind : LiteralKind} (hs : s.Ready cs) (hk : s.kind ≠ .endOfFile) :
    Ensures (literal kind) c s (Spans cs 0 s) :=
  .step here_eq <| .step lexer_eq <| .step next_eq <| .done finish_eq <|
    spans_token hs hk rfl (congrArg some (hs.lexer.value hk).symm) <|
      .flat (fun _ h => nomatch h) rfl (fun h => nomatch h) (parts_of_not_isBinder rfl)
        (fun h => nomatch h) (Nat.zero_le _)

theorem identifierName_spec (hs : s.Ready cs) :
    Ensures identifierName c s fun t s' => Spans cs 0 s t s' ∧ t.IsName := by
  refine .step kind_eq (.ite (fun _ => .fail_bind) fun hname => ?_)
  have hk : s.kind ≠ .endOfFile := by
    intro hk
    rw [hk] at hname
    exact hname rfl
  have hvalue := hs.lexer.value_ne_empty hk
  refine .step here_eq (.step lexer_eq (.step next_eq (.done finish_eq ⟨?_, hvalue, rfl⟩)))
  refine spans_token hs hk rfl rfl (.flat ?_ rfl (fun h => nomatch h) (parts_of_not_isBinder rfl)
    (fun h => nomatch h) (Nat.zero_le _))
  rintro name ⟨⟩
  exact hvalue

theorem identifier_spec (hs : s.Ready cs) :
    Ensures identifier c s fun t s' => Spans cs 0 s t s' ∧ t.IsName := by
  refine isIdentifier_spec.bind fun b s' h => .ite (fun _ => .fail_bind) fun _ => ?_
  obtain ⟨rfl, -⟩ := h
  exact identifierName_spec hs

theorem identifier_reads : Reads cs 0 identifier c :=
  fun _ hs => (identifier_spec hs).mono fun _ _ h => h.1

/-- Items that are announced by commas. -/
theorem Row.others {item : Parse Tree} (h : Row cs D a s ts) (hitem : Reads cs D item c) :
    Ensures (collect (behindComma item)) c s fun us s' => Row cs D a s' (ts ++ us) := by
  refine collect_spec (I := fun us s' => Row cs D a s' (ts ++ us)) ?_ (by simpa using h)
  intro us s h
  refine (Row.stable.acceptPunct h).bind fun b s' h => .ite (fun _ => ?_) fun _ => ?_
  · refine (h.read hitem).bind fun t s' h => .pure ?_
    simpa using h
  · exact .pure (by simpa using h)

theorem Row.commaList {item : Parse Tree} {close : Punctuator} (h : Row cs D a s ts)
    (hitem : Reads cs D item c) :
    Ensures (commaList close item) c s fun us s' => Row cs D a s' (ts ++ us) := by
  refine commaList_spec (fun _ => Row.stable) ?_ (by simpa using h)
  intro us s h
  refine (h.read hitem).mono fun t s' h => ?_
  simpa using h

theorem Row.arrayElements {item : Parse Tree} (h : Row cs D a s ts) (hitem : Reads cs D item c) :
    Ensures (arrayElements item) c s fun es s' => Row cs D a s' (ts ++ es.filterMap id) := by
  refine arrayElements_spec (I := fun us s' => Row cs D a s' (ts ++ us)) (fun _ => Row.stable) ?_
    (by simpa using h)
  intro us s h
  refine (h.read hitem).mono fun t s' h => ?_
  simpa using h

section Sound

variable (hr : Sound cs rules)
include hr

theorem expression_reads : Reads cs 0 (expression rules) c := by
  intro s hs
  refine .step here_eq ((hr.assignment c s hs).bind fun first s' hfirst => .step isPunct_eq ?_)
  refine .ite (fun _ => .pure hfirst) fun _ => ?_
  have row : Row cs 0 s.mark s' [first] := hfirst.row (.of hs)
  refine (row.others (hr.assignment c)).bind fun others s' row => ?_
  exact row.finish_child hs (.plain rfl) rfl (by simp [Form.children])

/-- The name of a property; one that is an identifier and not computed stands for itself. -/
theorem propertyName_spec (h : From cs a s) :
    Ensures (propertyName rules) c s fun r s' =>
      Row cs 0 a s' [r.1] ∧ (s.kind.isName = true → r.2 = false → r.1.IsName) := by
  refine .step kind_eq ?_
  have hliteral : ∀ kind, s.kind ≠ .endOfFile → s.kind.isName = false →
      Ensures (literal kind >>= fun key => pure (key, false)) c s fun r s' =>
        Row cs 0 a s' [r.1] ∧ (s.kind.isName = true → r.2 = false → r.1.IsName) := by
    intro kind hk hname
    refine (literal_spec h.ready hk).bind fun key s' hkey => .pure ⟨hkey.row h, fun hn => ?_⟩
    rw [hname] at hn
    cases hn
  split
  · next hk => exact hliteral .string (by simp [hk]) (by rw [hk]; rfl)
  · next hk => exact hliteral .number (by simp [hk]) (by rw [hk]; rfl)
  · next hk =>
    refine .step next_eq ?_
    have row : Row cs 0 (a + 1) s.advance [] := Row.token h (by simp [hk])
    refine (row.read (p := withIn (rules .assignment)) (hr.assignment _)).bind fun key s' row => ?_
    refine (Row.stable.expectPunct row).bind fun _ s' row => .pure ⟨row.widen, fun _ => ?_⟩
    exact fun h => nomatch h
  · refine .ite (fun _ => ?_) fun _ => .fail
    exact (identifierName_spec h.ready).bind fun key s' hkey =>
      .pure ⟨hkey.1.row h, fun _ _ => hkey.2⟩

theorem bindingElement_reads : Reads cs 0 (bindingElement rules) c := by
  intro s hs
  refine .step here_eq ((hr.bindingTarget c s hs).bind fun target s' htarget => ?_)
  refine accept_spec.bind fun b s'' h => .ite (fun hb => ?_) fun hb => ?_
  · obtain ⟨-, hk, rfl⟩ := h.resolve_right fun h => by simp [hb] at h
    have row := Row.stable.advance (htarget.row (.of hs)) (by simp [hk])
    refine (row.read (p := withIn (rules .assignment)) (hr.assignment _)).bind fun v s' row => ?_
    exact row.finish_child hs (.plain rfl) rfl (by simp [Form.children])
  · obtain ⟨-, rfl⟩ := h.resolve_left fun h => hb h.1
    exact .pure htarget

theorem restElement_reads : Reads cs 0 (restElement rules) c := by
  intro s hs
  refine .step here_eq (expect_spec.bind fun _ s' h => ?_)
  obtain ⟨hk, rfl⟩ := h
  have row : Row cs 0 (s.mark + 1) s.advance [] := Row.token (.of hs) (by simp [hk])
  exact (row.read (hr.bindingTarget c)).bind fun argument s' row => row.finish_token hs (.plain rfl)

theorem bindingOrRest_reads : Reads cs 0 (bindingOrRest rules) c := by
  intro s hs
  refine .step isPunct_eq (.ite (fun _ => ?_) fun _ => ?_)
  · exact restElement_reads hr s hs
  · exact bindingElement_reads hr s hs

theorem bindingProperty_reads : Reads cs 0 (bindingProperty rules) c := by
  intro s hs
  refine .step here_eq (isIdentifier_spec.bind fun mayBeShort s' h => ?_)
  obtain ⟨rfl, hshort⟩ := h
  refine (propertyName_spec hr (.of hs)).bind ?_
  rintro ⟨key, computed⟩ s' ⟨hkey, hname⟩
  refine (Row.stable.acceptPunct hkey).bind fun b s' hkey => .ite (fun _ => ?_) fun _ => ?_
  · refine (hkey.read (bindingElement_reads hr)).bind fun value s' row => ?_
    exact row.finish_child hs (.plain rfl) rfl (by simp [Form.children])
  refine .ite (fun _ => .fail) fun hplain => ?_
  have hname : key.IsName := by
    simp only [Bool.or_eq_true, Bool.not_eq_true', not_or, Bool.not_eq_false, Bool.not_eq_true]
      at hplain
    exact hname (hshort hplain.1) hplain.2
  refine (Row.stable.acceptPunct hkey).bind fun b s' hkey => .ite (fun _ => ?_) fun _ => ?_
  · refine (hkey.read (p := withIn (rules .assignment)) (hr.assignment _)).bind fun v s' row => ?_
    exact Row.finish_default row hs rfl rfl rfl hname fun h _ _ => .default h
  · exact Row.finish_short hs hkey hkey hname .name

theorem bindingTarget_reads : Reads cs 0 (bindingTarget rules) c := by
  intro s hs
  refine .step here_eq (.step kind_eq ?_)
  split
  · next hk =>
    have row : Row cs 0 (s.mark + 1) s.advance [] := Row.token (.of hs) (by simp [hk])
    refine .step next_eq ((row.arrayElements (bindingOrRest_reads hr)).bind fun es s' row => ?_)
    exact row.finish_token hs (.plain rfl)
  · next hk =>
    have row : Row cs 0 (s.mark + 1) s.advance [] := Row.token (.of hs) (by simp [hk])
    refine .step next_eq ((row.commaList fun s hs => ?_).bind fun ts s' row => ?_)
    · refine .step isPunct_eq (.ite (fun _ => ?_) fun _ => ?_)
      · exact restElement_reads hr s hs
      · exact bindingProperty_reads hr s hs
    · exact row.finish_token hs (.plain rfl)
  · exact identifier_reads s hs

end Sound

/-! ## Functions and classes -/

theorem fits_function {place : FunctionPlace} {name : Option Tree} {params : List Tree}
    {body : Tree} {traits : FunctionTraits} (hname : Tree.statementDepths name.toList ≤ 0)
    (hparams : Tree.statementDepths params ≤ 0) (hbare : ∀ t ∈ params, t.Bare)
    (hbody : (place ≠ .arrow ∨ traits.concise = false) ∧ body.form.isBlock = true ∨
      place = .arrow ∧ traits.concise = true ∧ body.statementDepth = 0) :
    Fits D 0 (.function place name params body traits) where
  named _ h := nomatch h
  closed h := nomatch h
  labels h := nomatch h
  first _ h := nomatch h
  expressions _ h := nomatch h
  parts := by
    refine ⟨fun k t hk ht => ?_, fun _ k t ht => ?_,
      fun k t hk ht => hbare t (Form.mem_bound_number hk ht), nofun⟩
    · have hblock := Form.blockBody?_number hk ht
      rcases hbody with ⟨-, hbody⟩ | ⟨rfl, hconcise, -⟩
      · cases place with
        | arrow =>
          simp only [Form.blockBody?] at hblock
          split at hblock <;> cases hblock
          exact hbody
        | _ =>
          cases hblock
          exact hbody
      · rw [Form.blockBody?, if_pos hconcise] at hblock
        cases hblock
    · -- The body is behind the name and the parameters.
      rcases Form.getElem?_children_function ht with ⟨rfl, rfl⟩ | hin | hin
      · exact hbody.imp (fun h => Form.blockBody?_function h.1) fun h => h.2.2
      · exact .inr (Nat.le_zero.1 (Nat.le_trans (Tree.statementDepth_le_of_mem hin) hname))
      · exact .inr (Nat.le_zero.1 (Nat.le_trans (Tree.statementDepth_le_of_mem hin) hparams))
  depth := .inl rfl
  le := Nat.zero_le _
  lead := Nat.zero_le _
  opening := rfl
  trail := rfl
  long := rfl
  unspelled := rfl
  inner := rfl

theorem modifies_spec {enders : List Punctuator} :
    Ensures (modifies enders) c s fun _ s' => s.Same s' :=
  lookAhead_spec

/-- A modifier that is accepted is passed. -/
theorem acceptModifier_spec {k : Keyword} (h : From cs a s) :
    Ensures (acceptModifier k) c s fun _ s' => From cs a s' := by
  refine .step isWord_eq (.ite (fun hword => ?_) fun _ => .pure h)
  refine modifies_spec.bind fun b s' hs => .ite (fun _ => ?_) fun _ => ?_
  · have hk : s'.kind = .word k := hs.kind.trans (of_decide_eq_true hword)
    exact .step next_eq (.pure (From.stable.advance (From.stable.same h hs) (by simp [hk])))
  · exact .pure (From.stable.same h hs)

theorem accessorRole_spec (h : From cs a s) :
    Ensures accessorRole c s fun _ s' => From cs a s' := by
  refine (acceptModifier_spec h).bind fun b s' h => .ite (fun _ => .pure h) fun _ => ?_
  refine (acceptModifier_spec h).bind fun b s' h => .ite (fun _ => .pure h) fun _ => .pure h

theorem methodRole_spec {role : MethodRole} {isStatic computed : Bool} {key : Tree} :
    Ensures (methodRole role isStatic computed key) c s fun _ s' => s' = s := by
  refine .ite (fun _ => ?_) fun _ => .pure rfl
  rcases isConstructorKey_cases key with ⟨b, h⟩ | ⟨h, -⟩
  · exact h ▸ .step pure_eq (.ite (fun _ => .pure rfl) fun _ => .pure rfl)
  · exact h ▸ .throw_bind

/-- The name of a function or a class, which may be missing unless it is `needed`. -/
theorem Row.name {α : Type} {needed : Prop} [Decidable needed] {g : Option Tree → Parse α}
    {Q : α → Track → Prop} (h : Row cs D a s ts)
    (hg : ∀ o s', Row cs D a s' (ts ++ o.toList) → Ensures (g o) c s' Q) :
    Ensures (isIdentifier >>= fun b =>
      if b = true then (some <$> identifier) >>= g
      else if needed then fail .identifierExpected >>= g else pure none >>= g) c s Q := by
  refine isIdentifier_spec.bind fun b s' hs => ?_
  obtain ⟨rfl, -⟩ := hs
  refine .ite (fun _ => ?_) fun _ => .ite (fun _ => .fail_bind) fun _ => ?_
  · exact (Ensures.map (h.read identifier_reads.lift)).bind hg
  · exact .step pure_eq (hg _ _ (by simpa using h))

/-- A row that begins with a token of its own. -/
theorem Row.append_token (h : Row cs D a s₀ ts) (h' : Row cs D (s₀.mark + 1) s us) :
    Row cs D a s (ts ++ us) :=
  h.append h'.widen

section Sound

variable (hr : Sound cs rules)
include hr

theorem block_reads : Reads cs (levels c + 1) (block rules) c := by
  intro s hs
  refine .step here_eq (expect_spec.bind fun _ s' h => ?_)
  obtain ⟨hk, rfl⟩ := h
  have row : Row cs (levels c) (s.mark + 1) s.advance [] :=
    Row.token (.of hs) (by simp [hk])
  refine (collect_until
    (I := fun ts s' => Row cs (levels c) (s.mark + 1) s' ts ∧ Opened s.advance ts s')
    (Q := fun s' => s'.kind = .punct .closeBrace) ?_ ⟨row, .first⟩).bind fun ts s' h => .step next_eq ?_
  · rintro ts s ⟨row, hopened⟩
    refine .step isPunct_eq (.ite (fun hclose => ?_) fun _ => ?_)
    · exact .pure ⟨by simpa using ⟨row, hopened⟩, fun _ => of_decide_eq_true hclose⟩
    refine .step isEnd_eq (.ite (fun _ => .fail_bind) fun _ => ?_)
    exact (row.readOpened hopened (hr.statement c) (hr.declares c)).bind fun t s' row =>
      .pure ⟨row, fun h => nomatch h⟩
  · -- The brace at the end keeps the statements away from the end of the block.
    obtain ⟨⟨row, hopened⟩, hclose⟩ := h
    have hle := levels_le c
    have hopen : s.kind.isFixed = true ∧ s.kind.chars.length = 1 := by rw [hk]; decide
    have hclosed : s'.kind.isFixed = true ∧ s'.kind.chars.length = 1 := by rw [hclose]; decide
    have hbrace := row.ready.prevStop_advance hclosed.1
    rw [hclosed.2] at hbrace
    have hprev := row.ready.prevStop
    have hlt : s.here + 1 ≤ s'.prevStop := row.spread.le
    have hready := row.ready.advance (by simp [hclose])
    refine .done finish_eq <| row.encloses hs hready s'.leads_advance
      (.deeper (fun _ h => nomatch h) rfl rfl (fun _ h => nomatch h) (fun _ h => nomatch h)
        (parts_of_not_isBinder rfl) (Nat.lt_succ_self _) (by omega)) rfl
      (Nat.le_refl _) (hbrace ▸ Nat.succ_le_succ hprev) (by omega) ⟨?_, ?_, ?_, ?_⟩ nofun rfl
      fun _ _ hrest => ?_
    · exact hs.reach.isBoundary
    · exact hready.edge
    · exact hs.isBoundary_add hopen.1 (Nat.le_of_eq hopen.2.symm)
    · have hhere : s'.advance.prevStop - 1 = s'.here := by omega
      exact hhere ▸ row.ready.reach.isBoundary
    · have hstop := hs.prevStop_advance hopen.1
      rw [hopen.2] at hstop
      exact hopened.closed (by simp [hclose]) (hs.kind_advance (hstop ▸ hrest))

theorem parameterList_spec {s : Track} (h : From cs a s) :
    Ensures (parameterList rules) c s fun ts s' => Row cs 0 (a + 1) s' ts := by
  refine expect_spec.bind fun _ s' hs => ?_
  obtain ⟨hk, rfl⟩ := hs
  exact (Row.token h (by simp [hk])).commaList (bindingOrRest_reads hr)

theorem parametersAndBody_spec {traits : FunctionTraits} (h : From cs a s) :
    Ensures (parametersAndBody rules traits) c s fun r s' =>
      (Row cs (levels c + 1) (a + 1) s' (r.1 ++ [r.2]) ∧ Tree.statementDepths r.1 ≤ 0) ∧
        (∀ t ∈ r.1, t.Bare) ∧ r.2.form.isBlock = true := by
  refine Ensures.yields ?_ (parametersAndBody_yields hr.bare)
  refine .withIn (.inFunction ((parameterList_spec hr h).bind fun params s' row => ?_))
  have hparams := row.depth
  exact ((row.deepen (Nat.zero_le _)).read (block_reads hr)).bind fun body s' row =>
    .pure ⟨row, hparams⟩

theorem function_reads {place : FunctionPlace} : Reads cs 0 (function rules place) c := by
  intro s hs
  have h : From cs s.mark s := .of hs
  refine .step here_eq ((From.stable.acceptWord h).bind fun isAsync s' h => ?_)
  refine expect_spec.bind fun _ s'' hs' => ?_
  obtain ⟨hk, rfl⟩ := hs'
  have row : Row cs 0 (s.mark + 1) s'.advance [] := Row.token h (by simp [hk])
  refine (Row.stable.acceptPunct row).bind fun isGenerator s' row => ?_
  refine row.name fun name s' row => ?_
  refine (parametersAndBody_spec hr (.of row.ready)).bind fun r s' ⟨⟨row', hparams⟩, hbare, hbody⟩ => ?_
  have hname := row.depth
  exact Row.finish_token
    (by simpa [Form.children] using (row.deepen (Nat.zero_le _)).append_token row') hs
    (fits_function hname hparams hbare (.inl ⟨.inr rfl, hbody⟩))

/-- The function of a method begins behind the name. -/
theorem methodFunction_reads {traits : FunctionTraits} :
    Reads cs 0 (methodFunction rules traits) c := by
  intro s hs
  refine .step here_eq ((parametersAndBody_spec hr (.of hs)).bind
    fun r s' ⟨⟨row, hparams⟩, hbare, hbody⟩ => ?_)
  exact Row.finish_token (by simpa [Form.children] using row) hs
    (fits_function (Nat.le_refl 0) hparams hbare (.inl ⟨.inl nofun, hbody⟩))

theorem arrowFunction_reads : Reads cs 0 (arrowFunction rules) c := by
  intro s hs
  have h : From cs s.mark s := .of hs
  refine .step here_eq (.step isWord_eq ?_)
  refine .branch (P := fun isAsync s' => From cs s.mark s' ∧ (isAsync = true → s'.kind ≠ .endOfFile))
    (fun hword => ?_) (fun _ => .pure ⟨h, fun heq => Bool.noConfusion heq⟩) fun isAsync s' hs' => ?_
  · refine lookAhead_spec.mono fun _ s' hsame => ⟨From.stable.same h hsame, fun _ => ?_⟩
    have hk : s'.kind = .word .kAsync := hsame.kind.trans (of_decide_eq_true hword)
    simp [hk]
  obtain ⟨h, hk⟩ := hs'
  refine .detour (R := From cs s.mark) (fun hasync => .done next_eq (From.stable.advance h (hk hasync)))
    (fun _ => h) fun _ s' h => .step isPunct_eq ?_
  extract_lets rest
  have hrest : ∀ params s', (∀ t ∈ params, t.Bare) → Row cs 0 s.mark s' params →
      Ensures (rest params) c s' (Spans cs 0 s) := by
    intro params s' hbare row
    have hparams := row.depth
    refine .step afterLineBreak_eq (.ite (fun _ => .fail_bind) fun _ => ?_)
    refine (Row.stable.expectPunct row).bind fun _ s' row => .step isPunct_eq ?_
    generalize hconcise : (!decide (s'.kind = .punct .openBrace)) = concise
    have hbody : Ensures (inFunction { isAsync } (if concise = true then rules .assignment
        else withIn (block rules))) c s' fun t s'' => Spans cs (levels c + 1) s' t s'' ∧
          ((FunctionPlace.arrow ≠ .arrow ∨ concise = false) ∧ t.form.isBlock = true ∨
            FunctionPlace.arrow = .arrow ∧ concise = true ∧ t.statementDepth = 0) := by
      refine .inFunction (.ite (fun h => ?_) fun h => ?_)
      · exact (hr.assignment _ s' row.ready).mono fun t s'' ht =>
          ⟨ht.deepen (Nat.zero_le _), .inr ⟨rfl, h, Nat.le_zero.1 ht.depth⟩⟩
      · exact (Ensures.withIn (block_reads hr s' row.ready)).yields (.withIn block_yields) |>.mono
          fun t s'' ht => ⟨ht.1, .inl ⟨.inr (Bool.eq_false_iff.2 h), ht.2⟩⟩
    refine hbody.bind fun body s'' hread => ?_
    obtain ⟨hspans, hbody⟩ := hread
    have row := (row.deepen (Nat.zero_le _)).append (hspans.row (.of row.ready))
    exact row.finish_child hs (fits_function (Nat.le_refl 0) hparams hbare hbody) rfl
      (by simp [Form.children])
  refine .ite (fun _ => ?_) fun _ => ?_
  · refine (Ensures.yields (.withIn (.inFunction (parameterList_spec hr h)))
      (.withIn (.inFunction (parameterList_bare hr.bare)))).bind fun params s' hread => ?_
    obtain ⟨row, hbare⟩ := hread
    exact hrest params s' hbare row.widen
  · refine ((identifier_reads s' h.ready).yields identifier_bare).bind
      fun param s' hread => .step pure_eq ?_
    obtain ⟨hparam, hbare⟩ := hread
    exact hrest [param] s' (by simpa using hbare) (hparam.row h)

theorem classMember_reads : Reads cs 0 (classMember rules) c := by
  intro s hs
  have h : From cs s.mark s := .of hs
  refine .step here_eq ((acceptModifier_spec h).bind fun isStatic s' h => ?_)
  refine (acceptModifier_spec h).bind fun isAsync s' h => ?_
  refine (From.stable.acceptPunct h).bind fun isGenerator s' h => ?_
  refine .branch (P := fun _ s' => From cs s.mark s') (fun _ => .pure h)
    (fun _ => accessorRole_spec h) fun role s' h => (propertyName_spec hr h).bind ?_
  rintro ⟨key, computed⟩ s' ⟨row, -⟩
  refine .step isPunct_eq (.ite (fun _ => ?_) fun _ => .ite (fun _ => .fail_bind) fun _ => ?_)
  · refine methodRole_spec.bind fun role s'' hsame => ?_
    subst hsame
    refine (row.read (methodFunction_reads hr)).bind fun value s' row => ?_
    exact row.finish_child hs (.plain rfl) rfl (by simp [Form.children])
  · refine Row.optional (p := withIn (rules .assignment)) (Row.stable.acceptPunct row)
      (hr.assignment _) fun value s' row => ?_
    refine (Row.stable.semicolon row).bind fun _ s' row => ?_
    exact row.finish_child hs (.plain rfl) rfl (by simp [Form.children])

/-- The declaration of a class is a statement. -/
theorem classBody_reads {place : ClassPlace} (hD : place = .declaration → 0 < D) (hle : D ≤ 1) :
    Reads cs D (classBody rules place) c := by
  intro s hs
  refine .step here_eq (expect_spec.bind fun _ s' h => ?_)
  obtain ⟨hk, rfl⟩ := h
  have row : Row cs 0 (s.mark + 1) s.advance [] := Row.token (.of hs) (by simp [hk])
  refine row.name fun name s' row => ?_
  refine Row.optional (Row.stable.acceptWord row) (hr.leftHandSide c) fun heritage s' row => ?_
  refine (Row.stable.expectPunct row).bind fun _ s' row => ?_
  refine (collect_until (I := fun ms s' => Row cs 0 (s.mark + 1) s'
    (name.toList ++ heritage.toList ++ ms.filterMap id)) (Q := fun s' => s'.kind = .punct .closeBrace)
    ?_ (by simpa using row)).bind fun ms s' ⟨row, hclose⟩ => .step next_eq ?_
  · intro ms s row
    refine .step isPunct_eq (.ite (fun hclose => ?_) fun _ => ?_)
    · exact .pure ⟨by simpa using row, fun _ => of_decide_eq_true hclose⟩
    refine (Row.stable.acceptPunct row).bind fun b s' row => .ite (fun _ => ?_) fun _ => ?_
    · exact .pure ⟨by simpa using row, nofun⟩
    refine .step isEnd_eq (.ite (fun _ => .fail_bind) fun _ => ?_)
    exact (row.read (classMember_reads hr)).bind fun t s' row => .pure ⟨by simpa using row, nofun⟩
  · refine Row.finish_token (Row.stable.advance row (by simp [hclose])) hs
      ⟨.flat (fun _ h => nomatch h) rfl (fun h => nomatch h) (parts_of_not_isBinder rfl)
        (fun h => hD ?_)
        (Nat.le_trans hle (Nat.le_add_left 1 3002)), Nat.zero_le _, rfl, rfl, rfl, rfl, rfl⟩
    cases place with
    | declaration => rfl
    | expression => cases h

theorem classExpression_reads : Reads cs 0 (classBody rules .expression) c := by
  refine classBody_reads hr ?_ (Nat.zero_le 1)
  intro h
  cases h

theorem classDeclaration_reads : Reads cs 1 (classBody rules .declaration) c :=
  classBody_reads hr (fun _ => Nat.zero_lt_one) (Nat.le_refl 1)

end Sound

end LoopClosure.Grammar
