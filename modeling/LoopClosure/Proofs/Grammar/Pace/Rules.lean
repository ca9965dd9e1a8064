import LoopClosure.Proofs.Grammar.Pace.Course

/-!
# Rules that get on

Each rule of the grammar gets on if the readers that it comes back to do (`Paced`): it ends behind the
token that it began at, and so does every turn of a list in it. Before a rule comes back to a reader it
passes a token, but for the expression that a statement begins with; so two levels of rules for each
token that is left, and one more for a statement, are enough (`Nonterminal.rank`, `rules_paced`).
-/

namespace LoopClosure.Grammar

open Syntax Token

variable {e : Prop} {k m limit : Nat} {c : Context} {l o : Lexer} {rules : Rules}

/-! ## Looking ahead -/

/-- The turns that are left on the way over an arrow head, before the last one. -/
def headTurns (h : HeadScan) (l : Lexer) : Nat := if h.refused then 0 else left l + 1

theorem headToken_paces {top : Bracket} {stack below : List (Bracket × Nat)} {prev : Kind}
    (hl : l.Ready) : Paces e (headToken top stack below prev) c l fun o l' =>
      Near l l' ∧ (o ≠ none → l'.kind ≠ .endOfFile) := by
  have keep : ∀ o, (o ≠ none → l.kind ≠ .endOfFile) →
      Paces e (pure o : Parse (Option (List (Bracket × Nat) × Option Nat))) c l fun o l' =>
        Near l l' ∧ (o ≠ none → l'.kind ≠ .endOfFile) := fun _ ho => .pure ⟨.refl hl, ho⟩
  have slash : l.kind ≠ .endOfFile → Paces e (headSlash stack prev) c l fun o l' =>
      Near l l' ∧ (o ≠ none → l'.kind ≠ .endOfFile) := by
    intro hk
    refine .ite (fun _ => .slash (.pure ⟨near_slash hl, fun _ => Lexer.rescanSlash_kind hk⟩))
      fun _ => keep _ fun _ => hk
  refine .step here_sees (.step kind_sees ?_)
  generalize hkind : l.kind = k at slash keep
  split
  · exact keep _ fun hne => absurd rfl hne
  · exact keep _ fun _ => nofun
  · exact keep _ fun _ => nofun
  · exact keep _ fun _ => nofun
  · exact keep _ fun _ => nofun
  · exact .ite (fun _ => keep _ fun _ => nofun) fun _ => keep _ fun _ => nofun
  · exact .ite (fun _ => keep _ fun _ => nofun) fun _ => keep _ fun _ => nofun
  · split
    · exact keep _ fun _ => nofun
    · have hk := Lexer.rescanTemplate_kind (l := l) (hkind ▸ nofun)
      refine .template (.step kind_sees (.ite (fun _ => .pure ?_) fun _ => .pure ?_))
      all_goals exact ⟨near_template hl, fun _ => hk⟩
    · exact keep _ fun _ => nofun
  · exact slash nofun
  · exact slash nofun
  · next hend _ _ _ _ _ _ _ _ _ => exact keep _ fun _ => hend

theorem isArrowHere_sees : Sees isArrowHere c l (decide (l.kind = .punct .arrow) && !l.lineBreak) := by
  rintro s rfl
  exact .look (fun _ v => pure (decide (v.token.kind = .punct .arrow) && !v.lineBreak))
    (fun _ _ => rfl) (.done _)

theorem headStep_paces {h : HeadScan} (hl : l.Ready) : Paces e (headStep h) c l
    (Shortens headTurns (fun _ l => l.Ready) (fun _ => True) h l) := by
  refine .ite (fun _ => .pure trivial) fun hrefused => ?_
  have hturns : headTurns h l = left l + 1 := if_neg hrefused
  split
  · exact .pure trivial
  · extract_lets rest
    have refuse {l' : Lexer} (hl' : l'.Ready) :
        l'.Ready ∧ headTurns { h with refused := true } l' < headTurns h l :=
      ⟨hl', hturns ▸ Nat.succ_pos _⟩
    have hrest : Paces e (rest ()) c l
        (Shortens headTurns (fun _ l => l.Ready) (fun _ => True) h l) := by
      refine .ite (fun _ => .pure (refuse hl)) fun _ => (headToken_paces hl).bind fun o l' h' => ?_
      obtain ⟨hnear, hk⟩ := h'
      cases o with
      | none => exact .pure (refuse hnear.ready)
      | some found =>
        have hfar := hnear.far (far_scan hnear.ready (hk nofun))
        refine .step kind_sees (.next (hk nofun) (.pure ⟨hfar.ready, ?_⟩))
        rw [hturns]
        exact Nat.succ_lt_succ hfar.lt
    clear_value rest
    split
    · refine .step isArrowHere_sees (Paces.record.bind ?_)
      rintro _ _ rfl
      exact hrest
    · exact hrest

theorem passArrowHead_paces (h : Fed e m k c.limit l) (hk : l.kind ≠ .endOfFile) :
    Paces e passArrowHead c l fun _ _ => True := by
  have hscan := far_scan h.ready hk
  have pass : ∀ h : HeadScan, h.refused = false →
      Paces e (repeating headStep h) c l.scan fun _ _ => True := by
    intro head hrefused
    refine .step read_sees (iterate_paces (fun _ _ h => headStep_paces h) (fun he => ?_) hscan.ready)
    rw [headTurns, hrefused]
    exact Nat.lt_of_le_of_lt hscan.lt (h.turns he)
  refine .step here_sees (.step kind_sees (.next hk ((pass _ rfl).bind fun h l' _ => ?_)))
  exact .ite (fun _ => .pure trivial) fun _ s hs => ⟨[], _, isArrowHere_sees s hs, trivial⟩

/-- What is read ahead, from a token on that is not the end of the text. -/
inductive LookAhead : Parse Bool → Prop where
  | arrowHead : LookAhead passArrowHead
  | asyncArrow : LookAhead asyncArrowFollows
  | arrow : LookAhead arrowFollows
  | parameters : LookAhead parametersFollow
  | function : LookAhead functionFollows
  | name (enders : List Punctuator) : LookAhead (nameFollows enders)
  | target : LookAhead targetFollows
  | colon : LookAhead colonFollows

theorem LookAhead.paces {p : Parse Bool} (hp : LookAhead p) (h : Fed e m k c.limit l)
    (hk : l.kind ≠ .endOfFile) : Paces e p c l fun _ _ => True := by
  have arrow {l : Lexer} (hk : l.kind ≠ .endOfFile) : Paces e arrowFollows c l fun _ _ => True :=
    .next hk fun s hs => ⟨[], _, isArrowHere_sees s hs, trivial⟩
  cases hp with
  | arrowHead => exact passArrowHead_paces h hk
  | asyncArrow =>
    refine .next hk (.step afterLineBreak_sees (.ite (fun _ => .pure trivial) fun _ => ?_))
    refine .step isPunct_sees (.ite (fun _ => .pure trivial) fun _ => ?_)
    refine .step isPunct_sees (.ite (fun hparen => ?_) fun _ => isIdentifier_paces.bind ?_)
    · exact passArrowHead_paces (h.far (far_scan h.ready hk)) (by simp [of_decide_eq_true hparen])
    · rintro b _ ⟨rfl, hname⟩
      exact .ite (fun hb => arrow (ne_end_of_isName (hname hb))) fun _ => .pure trivial
  | arrow => exact arrow hk
  | parameters => exact .next hk (.step isPunct_sees (.pure trivial))
  | function => exact .next hk (.step isWord_sees (.step afterLineBreak_sees (.pure trivial)))
  | name => exact .next hk (.step kind_sees (.step afterLineBreak_sees (.pure trivial)))
  | target =>
    refine .next hk (isIdentifier_paces.bind fun b _ _ => ?_)
    exact .step isPunct_sees (.step isPunct_sees (.pure trivial))
  | colon => exact .next hk fun s hs => ⟨[], _, isPunct_sees s hs, trivial⟩

/-- Looking ahead goes back. -/
theorem LookAhead.stays {p : Parse Bool} (hp : LookAhead p) (h : Fed e m k c.limit l)
    (hk : l.kind ≠ .endOfFile) : Paces e (lookAhead p) c l fun _ l' => l' = l :=
  .lookAhead (hp.paces h hk)

theorem startsArrow_paces (h : Fed e m k c.limit l) :
    Paces e startsArrow c l fun _ l' => l' = l := by
  refine .step kind_sees ?_
  split
  · next hk =>
    refine .step here_sees (.lookUp (fun s s' heq => by rw [heq]) fun s => ?_)
    split
    · exact .pure rfl
    · refine (LookAhead.arrowHead.stays h (by simp [hk])).bind ?_
      rintro isArrow _ rfl
      exact Paces.record.bind fun _ _ h => .pure h
  · next hk => exact LookAhead.asyncArrow.stays h (by simp [hk])
  · refine isIdentifier_paces.bind ?_
    rintro b _ ⟨rfl, hname⟩
    exact .ite (fun hb => LookAhead.arrow.stays h (ne_end_of_isName (hname hb))) fun _ =>
      .pure rfl

theorem modifies_paces {enders : List Punctuator} (h : Fed e m k c.limit l)
    (hk : l.kind ≠ .endOfFile) : Paces e (modifies enders) c l fun _ l' => l' = l :=
  (LookAhead.name enders).stays h hk

theorem startsAsyncFunction_paces (h : Fed e m k c.limit l) (hk : l.kind ≠ .endOfFile) :
    Paces e startsAsyncFunction c l fun _ l' => l' = l :=
  LookAhead.function.stays h hk

theorem startsLet_paces (h : Fed e m k c.limit l) (hk : l.kind ≠ .endOfFile) :
    Paces e startsLet c l fun _ l' => l' = l :=
  LookAhead.target.stays h hk

theorem acceptModifier_paces {word : Keyword} (h : Fed e m k c.limit l) :
    Paces e (acceptModifier word) c l fun _ => Near l := by
  refine .step isWord_sees (.ite (fun hword => ?_) fun _ => .pure (.refl h.ready))
  have hk : l.kind ≠ .endOfFile := by simp [of_decide_eq_true hword]
  refine (modifies_paces h hk).bind ?_
  rintro b _ rfl
  exact .ite (fun _ => .next hk (.pure (far_scan h.ready hk).near)) fun _ => .pure (.refl h.ready)

theorem accessorRole_paces (h : Fed e m k c.limit l) :
    Paces e accessorRole c l fun _ => Near l := by
  refine (acceptModifier_paces h).bind fun b l₁ h₁ => .ite (fun _ => .pure h₁) fun _ => ?_
  refine (acceptModifier_paces (h.near h₁)).bind fun b l₂ h₂ => ?_
  exact .ite (fun _ => .pure (h₁.trans h₂)) fun _ => .pure (h₁.trans h₂)

theorem declarationKeyword?_paces (h : Fed e m k c.limit l) :
    Paces e declarationKeyword? c l fun o l' => l' = l ∧ (o ≠ none → l.kind ≠ .endOfFile) := by
  refine .step kind_sees ?_
  generalize hk : l.kind = k
  split
  · exact .pure ⟨rfl, fun _ => nofun⟩
  · exact .pure ⟨rfl, fun _ => nofun⟩
  · refine (startsLet_paces h (by simp [hk])).bind fun b l' h => ?_
    exact .ite (fun _ => .pure ⟨h, fun _ => nofun⟩) fun _ => .pure ⟨h, fun hne => absurd rfl hne⟩
  · exact .pure ⟨rfl, fun hne => absurd rfl hne⟩

theorem startsExpression_paces : Paces e startsExpression c l fun _ l' => l' = l := by
  refine .step kind_sees ?_
  split
  · split <;> exact .pure rfl
  all_goals exact .pure rfl

/-! ## Literals read again -/

/-- What is refused has no reading as a target. -/
def Refused {α : Type} (r : Except SyntaxDiagnostic α) : Prop :=
  ∀ d, r = .error d → d.error = .invalidTarget ∨ d.error = .invalidDestructuring

mutual

theorem toPattern_refused (element : Bool) : (t : Tree) → Refused (t.toPattern element)
  | .node s e form kids => by
    have bad : Refused (Tree.badTarget s e : Except SyntaxDiagnostic Tree) := by
      rintro _ ⟨⟩
      exact .inl rfl
    intro d h
    unfold Tree.toPattern at h
    split at h
    · next target value =>
      split at h
      · split at h
        · cases h
        · next d' hd =>
          cases h
          exact toPattern_refused false target _ hd
      · exact bad d h
    · next argument =>
      split at h
      · split at h
        · cases h
        · next d' hd =>
          cases h
          exact toPattern_refused false argument _ hd
      · exact bad d h
    · cases h
    · cases h
    · cases h
    · split at h
      · exact bad d h
      · cases h
    · split at h
      · cases h
      · exact bad d h
    · split at h
      · cases h
      · next d' hd =>
        cases h
        exact toElements_refused kids _ hd
    · split at h
      · cases h
      · next d' hd =>
        cases h
        exact toProperties_refused kids _ hd
    · exact bad d h

theorem toElements_refused : (ts : List Tree) → Refused (Tree.toElements ts)
  | [] => nofun
  | t :: ts => by
    intro d h
    unfold Tree.toElements at h
    split at h
    · next d' hd =>
      cases h
      exact toPattern_refused true t _ hd
    · split at h
      · next d' hd =>
        cases h
        exact toElements_refused ts _ hd
      · cases h

theorem toProperty_refused : (t : Tree) → Refused t.toProperty
  | .node s e form kids => by
    intro d h
    unfold Tree.toProperty at h
    split at h
    · next key value =>
      split at h
      · cases h
        exact .inr rfl
      · split at h
        · cases h
        · next d' hd =>
          cases h
          exact toPattern_refused true value _ hd
    · next argument =>
      split at h
      · cases h
      · next d' hd =>
        cases h
        exact toPattern_refused false argument _ hd
    · cases h

theorem toProperties_refused : (ts : List Tree) → Refused (Tree.toProperties ts)
  | [] => nofun
  | t :: ts => by
    intro d h
    unfold Tree.toProperties at h
    split at h
    · next d' hd =>
      cases h
      exact toProperty_refused t _ hd
    · split at h
      · next d' hd =>
        cases h
        exact toProperties_refused ts _ hd
      · cases h

end

theorem target_paces {t : Tree} : Paces e (target t) c l fun _ l' => l' = l := by
  unfold target
  split
  · exact .pure rfl
  · next d hd =>
    refine .throw fun _ hunfinished => ?_
    rcases toPattern_refused false t d hd with h | h <;> rw [h] at hunfinished <;> cases hunfinished

/-- Steps of a tree that grows at its end. -/
theorem Goes.shortens {l' : Lexer} {a : Option Tree} {x : Tree} (hl : Near o l)
    (h : Goes l (fun _ => True) a l') :
    Shortens (fun _ => left) (fun _ => Near o) (Near o) x l a l' := by
  cases a with
  | none => exact h.1 ▸ hl
  | some y => exact ⟨(hl.far h).near, h.lt⟩

/-! ## Readers that rules come back to -/

/-- The levels that a nonterminal takes at one token: a statement may begin with an expression. -/
def Nonterminal.rank : Nonterminal → Nat
  | .statement => 2
  | _ => 1

/-- The readers get on, if they are not short of turns and levels. -/
def Paced (e : Prop) (m : Nat) (rules : Rules) : Prop :=
  ∀ X c l, Fed e m X.rank c.limit l → Paces e (rules X) c l fun _ => Far l

theorem Paced.behind (hr : Paced e m rules) (X : Nonterminal) (h : Fed e m 2 c.limit l) :
    Paces e (rules X) c l fun _ => Far l :=
  hr X c l (h.mono (by cases X <;> simp [Nonterminal.rank]))

theorem Paced.assignment (hr : Paced e m rules) (h : Fed e m (k + 1) c.limit l) :
    Paces e (rules .assignment) c l fun _ => Far l :=
  hr .assignment c l (h.mono (Nat.le_add_left 1 k))

/-- The name of a function or a class, if there is one. -/
theorem name_paces {α : Type} {required : Prop} [Decidable required] {f : Option Tree → Parse α}
    {Q : α → Lexer → Prop} (hl : l.Ready) (hf : ∀ name l', Near l l' → Paces e (f name) c l' Q) :
    Paces e (isIdentifier >>= fun b => if b = true then (some <$> identifier) >>= f
      else if required then fail .identifierExpected >>= f else pure none >>= f) c l Q := by
  refine isIdentifier_paces.bind ?_
  rintro b l ⟨rfl, -⟩
  refine .ite (fun _ => .bind (P := fun _ => Far l) (.map (identifier_paces hl)) fun name _ h =>
    hf name _ h.near) fun _ => ?_
  exact .branch (P := fun _ => Near l) (fun _ => .fail nofun) (fun _ => .pure (.refl hl)) hf

/-! ### Keys -/

/-- A key can be cut, or a string that is not closed has been reported. -/
def CutOrReported (e : Prop) (key : Tree) (l : Lexer) : Prop :=
  e → ∀ raw, key.form = .literal .string raw → unquoted? raw = none → l.MissesQuote

theorem string_paces (h : Fed e m k c.limit l) (hk : l.kind = .string) :
    Paces e (literal .string) c l fun key l' => Far l l' ∧ CutOrReported e key l' := by
  have hne : l.kind ≠ .endOfFile := by simp [hk]
  refine (literal_form hne).mono ?_
  rintro key _ ⟨rfl, hkey⟩
  refine ⟨far_scan h.ready hne, fun he raw hform hcut => ?_⟩
  obtain rfl : l.text = raw := by
    cases hkey.symm.trans hform
    rfl
  rcases h.told he hk with hclosed | hmisses
  · obtain ⟨body, hbody⟩ := hclosed.exists_slice?
    exact nomatch hcut.symm.trans hbody
  · exact hmisses.scan

theorem isConstructorKey_paces {key : Tree} (hkey : CutOrReported e key l) :
    Paces e (isConstructorKey key) c l fun _ l' => l' = l := by
  rcases isConstructorKey_cases key with ⟨b, h⟩ | ⟨h, raw, hform, hcut⟩
  · exact h ▸ .pure rfl
  · exact h ▸ .abort fun he => hkey he raw hform hcut

theorem methodRole_paces {role : MethodRole} {isStatic computed : Bool} {key : Tree}
    (hkey : computed = false → CutOrReported e key l) :
    Paces e (methodRole role isStatic computed key) c l fun _ l' => l' = l := by
  refine .ite (fun hplain => ?_) fun _ => .pure rfl
  refine (isConstructorKey_paces (hkey (by simp_all))).bind ?_
  rintro _ _ rfl
  exact .ite (fun _ => .pure rfl) fun _ => .pure rfl

section Rules

variable (hr : Paced e m rules)
include hr

/-! ### Property names and binding patterns -/

theorem expression_paces (h : Fed e m (k + 1) c.limit l) :
    Paces e (expression rules) c l fun _ => Far l := by
  refine .step here_sees (.bind (hr.assignment h) fun first l₁ h₁ => .step isPunct_sees ?_)
  refine .ite (fun _ => .pure h₁) fun _ => ?_
  have h' := h.far h₁
  refine .bind (collect_paces h' fun l₂ h₂ => behindComma_paces h₂.ready fun l₃ h₃ => ?_) fun _ _ h₂ =>
    finish_paces (h₁.trans h₂.1)
  exact hr.assignment ((h'.near h₂).far h₃)

theorem propertyName_paces (h : Fed e m k c.limit l) : Paces e (propertyName rules) c l fun a l' =>
    Far l l' ∧ (a.2 = false → CutOrReported e a.1 l') := by
  -- A key that is no literal has nothing to cut.
  have other {key : Tree} {l : Lexer} (hkey : ∀ raw, key.form ≠ .literal .string raw) :
      CutOrReported e key l := fun _ raw hform => absurd hform (hkey raw)
  refine .step kind_sees ?_
  generalize hk : l.kind = k'
  split
  · exact .bind (string_paces h hk) fun _ _ h => .pure ⟨h.1, fun _ => h.2⟩
  · have hne : l.kind ≠ .endOfFile := by simp [hk]
    refine .bind (literal_form hne) ?_
    rintro key _ ⟨rfl, hkey⟩
    exact .pure ⟨far_scan h.ready hne, fun _ => other (by simp [hkey])⟩
  · have hne : l.kind ≠ .endOfFile := by simp [hk]
    have hl := far_scan h.ready hne
    refine .next hne (.bind (.withIn (hl.paces (hr.behind .assignment (h.far hl)))) fun _ _ hl => ?_)
    exact .bind (hl.paces (expectPunct_paces hl.ready)) fun _ _ hl => .pure ⟨hl, nofun⟩
  · refine .ite (fun _ => .bind (identifierName_form h.ready) fun key l' hl => ?_) fun _ =>
      .fail nofun
    exact .pure ⟨hl.1, fun _ => other (by simp [hl.2])⟩

theorem bindingElement_paces (h : Fed e m (k + 1) c.limit l) :
    Paces e (bindingElement rules) c l fun _ => Far l := by
  refine .step here_sees (.bind (hr .bindingTarget c l (h.mono (Nat.le_add_left 1 k)))
    fun _ _ hl => ?_)
  refine .bind hl.acceptPunct fun _ _ hl => .ite (fun _ => ?_) fun _ => .pure hl
  exact .bind (.withIn (hl.paces (hr.behind .assignment (h.far hl)))) fun _ _ hl => finish_paces hl

theorem restElement_paces (h : Fed e m k c.limit l) :
    Paces e (restElement rules) c l fun _ => Far l :=
  .step here_sees <| .bind (expectPunct_paces h.ready) fun _ _ hl =>
    .bind (hl.paces (hr.behind .bindingTarget (h.far hl))) fun _ _ hl => finish_paces hl

theorem bindingOrRest_paces (h : Fed e m (k + 1) c.limit l) :
    Paces e (bindingOrRest rules) c l fun _ => Far l :=
  .step isPunct_sees <| .ite (fun _ => restElement_paces hr h) fun _ => bindingElement_paces hr h

theorem bindingProperty_paces (h : Fed e m k c.limit l) :
    Paces e (bindingProperty rules) c l fun _ => Far l := by
  refine .step here_sees (isIdentifier_paces.bind ?_)
  rintro _ _ ⟨rfl, -⟩
  refine .bind (propertyName_paces hr h) fun _ _ ⟨hl, _⟩ => .bind hl.acceptPunct fun _ _ hl =>
    .ite ?_ ?_
  · exact fun _ => .bind (hl.paces (bindingElement_paces hr (h.far hl))) fun _ _ hl => finish_paces hl
  refine fun _ => .ite (fun _ => .fail nofun) fun _ => .bind hl.acceptPunct fun _ _ hl => .ite ?_ ?_
  · exact fun _ => .bind (.withIn (hl.paces (hr.behind .assignment (h.far hl)))) fun _ _ hl =>
      .bind (finish_paces hl) fun _ _ hl => finish_paces hl
  · exact fun _ => finish_paces hl

theorem patternItem_paces (h : Fed e m k c.limit l) :
    Paces e (patternItem rules) c l fun _ => Far l :=
  .step isPunct_sees <| .ite (fun _ => restElement_paces hr h) fun _ => bindingProperty_paces hr h

theorem bindingTarget_paces (h : Fed e m k c.limit l) :
    Paces e (bindingTarget rules) c l fun _ => Far l := by
  refine .step here_sees (.step kind_sees ?_)
  generalize hk : l.kind = k'
  split
  · have hne : l.kind ≠ .endOfFile := by simp [hk]
    have hl := far_scan h.ready hne
    have h := h.far hl
    refine .next hne (.bind (hl.paces (arrayElements_paces h fun _ hl => ?_)) fun _ _ hl =>
      finish_paces hl)
    exact bindingOrRest_paces hr (h.near hl)
  · have hne : l.kind ≠ .endOfFile := by simp [hk]
    have hl := far_scan h.ready hne
    have h := h.far hl
    refine .next hne (.bind (hl.paces (commaList_paces h fun _ hl => ?_)) fun _ _ hl =>
      finish_paces hl)
    exact patternItem_paces hr (h.near hl)
  · exact identifier_paces h.ready

/-! ### Functions and classes -/

theorem blockItem_paces (h : Fed e m 2 c.limit l) :
    Paces e (blockItem rules) c l (Goes l fun l => l.kind = .punct .closeBrace) := by
  refine .step isPunct_sees (.ite (fun hk => .pure ⟨rfl, of_decide_eq_true hk⟩) fun _ => ?_)
  refine .step isEnd_sees (.detour (R := (· = l)) (fun _ => .fail nofun) (fun _ => rfl) ?_)
  rintro _ _ rfl
  exact .bind (hr.behind .statement h) fun _ _ h => .pure h

theorem block_paces (h : Fed e m k c.limit l) : Paces e (block rules) c l fun _ => Far l := by
  refine .step here_sees (.bind (expectPunct_paces h.ready) fun _ l₁ hl => ?_)
  have h' := h.far hl
  exact .bind (collect_paces h' fun _ hl => blockItem_paces hr (h'.near hl)) fun _ _ hl₂ =>
    .close hl₂ fun hfar => finish_paces (hl.trans hfar.near)

theorem parameterList_paces (h : Fed e m k c.limit l) :
    Paces e (parameterList rules) c l fun _ => Far l :=
  .bind (expectPunct_paces h.ready) fun _ _ hl => hl.paces <|
    commaList_paces (h.far hl) fun _ hl' => bindingOrRest_paces hr ((h.far hl).near hl')

theorem parametersAndBody_paces {traits : FunctionTraits} (h : Fed e m k c.limit l) :
    Paces e (parametersAndBody rules traits) c l fun _ => Far l :=
  .withIn <| .inFunction <| .bind (parameterList_paces hr h) fun _ _ hl =>
    .bind (hl.paces (block_paces hr (h.far hl))) fun _ _ hl => .pure hl

theorem function_paces {place : FunctionPlace} (h : Fed e m k c.limit l) :
    Paces e (function rules place) c l fun _ => Far l := by
  refine .step here_sees (.bind (acceptWord_near h.ready) fun _ l₁ h₁ => ?_)
  refine .bind (h₁.paces (expectWord_paces h₁.ready)) fun _ _ hl => .bind hl.acceptPunct
    fun _ l₂ hl => name_paces hl.ready fun _ l₃ h₃ => ?_
  have hl := hl.trans h₃
  exact .bind (hl.paces (parametersAndBody_paces hr (h.far hl))) fun _ _ hl => finish_paces hl

theorem methodFunction_paces {traits : FunctionTraits} (h : Fed e m k c.limit l) :
    Paces e (methodFunction rules traits) c l fun _ => Far l :=
  .step here_sees <| .bind (parametersAndBody_paces hr h) fun _ _ hl => finish_paces hl

theorem arrowFunction_paces (h : Fed e m k c.limit l) :
    Paces e (arrowFunction rules) c l fun _ => Far l := by
  refine .step here_sees (.step isWord_sees ?_)
  refine .branch (P := fun b l' => l' = l ∧ (b = true → l.kind ≠ .endOfFile)) (fun hword => ?_)
    (fun _ => .pure ⟨rfl, nofun⟩) fun isAsync l₁ h₁ => ?_
  · have hk : l.kind ≠ .endOfFile := by simp [of_decide_eq_true hword]
    exact (LookAhead.parameters.stays h hk).mono fun _ _ h => ⟨h, fun _ => hk⟩
  obtain ⟨rfl, hk⟩ := h₁
  refine .detour (R := Near l₁) (fun hasync => ?_) (fun _ => .refl h.ready) fun _ l₂ h₂ => ?_
  · exact fun s hs => ⟨_, _, .next (hs ▸ hk hasync), hs ▸ (far_scan h.ready (hk hasync)).near⟩
  refine .step isPunct_sees ?_
  extract_lets rest
  have hrest : ∀ params l, Far l₁ l → Paces e (rest params) c l fun _ => Far l₁ := by
    refine fun params l hl => .step afterLineBreak_sees (.detour (R := Far l₁) (fun _ => .fail nofun)
      (fun _ => hl) fun _ _ hl => .bind (hl.paces (expectPunct_paces hl.ready)) fun _ _ hl => ?_)
    refine .step isPunct_sees (.bind (.inFunction ?_) fun _ _ hl => finish_paces hl)
    exact .ite (fun _ => hl.paces (hr.behind .assignment (h.far hl))) fun _ =>
      .withIn (hl.paces (block_paces hr (h.far hl)))
  clear_value rest
  refine .ite (fun _ => ?_) fun _ => ?_
  · exact .bind (.withIn (.inFunction (h₂.paces (parameterList_paces hr (h.near h₂))))) hrest
  · exact .bind (h₂.paces (identifier_paces h₂.ready)) fun _ _ hl => .bind (.pure hl) hrest

theorem classMember_paces (h : Fed e m k c.limit l) :
    Paces e (classMember rules) c l fun _ => Far l := by
  refine .step here_sees (.bind (acceptModifier_paces h) fun _ l₁ h₁ => ?_)
  refine .bind (acceptModifier_paces (h.near h₁)) fun _ l₂ h₂ => ?_
  refine .bind (acceptPunct_near h₂.ready) fun isGenerator l₃ h₃ => ?_
  have h₃ := h₁.trans (h₂.trans h₃)
  refine .branch (P := fun _ => Near l₃) (fun _ => .pure (.refl h₃.ready))
    (fun _ => accessorRole_paces (h.near h₃)) fun role l₄ h₄ => ?_
  have h₄ := h₃.trans h₄
  refine .bind (propertyName_paces hr (h.near h₄)) fun _ l₅ ⟨hl, hkey⟩ => .step isPunct_sees ?_
  have hl := h₄.far hl
  refine .ite (fun _ => (methodRole_paces hkey).bind fun _ l hsame => ?_) fun _ => ?_
  · subst hsame
    exact .bind (hl.paces (methodFunction_paces hr (h.far hl))) fun _ _ hl => finish_paces hl
  · refine .detour (R := Far l) (fun _ => .fail nofun) (fun _ => hl) fun _ _ hl =>
      .bind hl.acceptPunct fun _ _ hl => ?_
    refine .optional (fun _ => .withIn (hl.paces (hr.behind .assignment (h.far hl)))) (fun _ => hl)
      fun _ _ hl => ?_
    exact .bind (hl.stays (semicolon_paces hl.ready)) fun _ _ hl => finish_paces hl

theorem classItem_paces (h : Fed e m k c.limit l) :
    Paces e (classItem rules) c l (Goes l fun l => l.kind = .punct .closeBrace) := by
  refine .step isPunct_sees (.ite (fun hk => .pure ⟨rfl, of_decide_eq_true hk⟩) fun _ => ?_)
  refine (acceptPunct_paces h.ready).bind fun b l' h' => ?_
  rcases h' with ⟨rfl, hfar⟩ | ⟨rfl, rfl⟩
  · exact .pure hfar
  refine .step isEnd_sees (.detour (R := (· = l')) (fun _ => .fail nofun) (fun _ => rfl) ?_)
  rintro _ _ rfl
  exact .bind (classMember_paces hr h) fun _ _ h => .pure h

theorem classBody_paces {place : ClassPlace} (h : Fed e m k c.limit l) :
    Paces e (classBody rules place) c l fun _ => Far l := by
  refine .step here_sees (.bind (expectWord_paces h.ready) fun _ l₁ hl => ?_)
  refine name_paces hl.ready fun _ l₂ h₂ => ?_
  have hl := hl.trans h₂
  refine .bind hl.acceptWord fun _ l₃ hl => .optional
    (fun _ => hl.paces (hr.behind .leftHandSide (h.far hl))) (fun _ => hl) fun _ _ hl => ?_
  refine .bind (hl.paces (expectPunct_paces hl.ready)) fun _ l₄ hl => ?_
  have h' := h.far hl
  exact .bind (collect_paces h' fun _ hl => classItem_paces hr (h'.near hl)) fun _ _ hl₅ =>
    .close hl₅ fun hfar => finish_paces (hl.trans hfar.near)

/-! ### Expressions -/

/-- A part of a template, from the token in front of the substitution to the one behind. -/
theorem templatePart_paces {x : List Tree × Bool} (h : Fed e m k c.limit l)
    (hk : x.2 = true → l.kind ≠ .endOfFile) : Paces e (templatePart rules x) c l
      (Shortens (fun _ => left) (fun _ l' => Near l l' ∧ l'.kind ≠ .endOfFile)
        (fun l' => l' = l ∧ x.2 = false) x l) := by
  refine .ite (fun hx => .pure ⟨rfl, by simpa using hx⟩) fun hx => ?_
  have hne := hk (by simpa using hx)
  have hl := far_scan h.ready hne
  refine .next hne (.bind (.withIn (hl.paces (expression_paces hr (h.far hl)))) fun _ l₁ hl => ?_)
  refine .step isPunct_sees (.detour (R := fun l' => l' = l₁ ∧ l'.kind = .punct .closeBrace)
    (fun _ => .fail nofun) (fun hk => ⟨rfl, by simpa using hk⟩) ?_)
  rintro _ l₂ ⟨rfl, hk⟩
  have hl' := hl.trans (near_template hl.ready)
  refine .template (.step kind_sees (.pure ⟨⟨hl'.near, Lexer.rescanTemplate_kind ?_⟩, hl'.lt⟩))
  simp [hk]

theorem templateLiteral_paces (h : Fed e m k c.limit l) (hk : l.kind ≠ .endOfFile) :
    Paces e (templateLiteral rules) c l fun _ => Far l := by
  refine .step here_sees (.step kind_sees ?_)
  extract_lets rest
  have hrest : ∀ es l', Near l l' ∧ l'.kind ≠ .endOfFile → Paces e (rest es) c l' fun _ => Far l :=
    fun _ l' ⟨hl, hk⟩ => .next hk (finish_paces (hl.far (far_scan hl.ready hk)))
  clear_value rest
  refine .ite (fun _ => .bind (P := fun _ l' => Near l l' ∧ l'.kind ≠ .endOfFile) ?_
    fun _ l' hl => .bind (.pure hl) hrest) fun _ => .bind (.pure ⟨.refl h.ready, hk⟩) hrest
  refine .step read_sees (iterate_paces (t := fun _ => left)
    (I := fun _ l' => Near l l' ∧ l'.kind ≠ .endOfFile) ?_ h.turns ⟨.refl h.ready, hk⟩)
  rintro ⟨es, more⟩ l₁ ⟨hl, hk⟩
  refine (templatePart_paces hr (x := (es, more)) (h.near hl) fun _ => hk).mono fun o l₂ h₂ => ?_
  cases o with
  | none =>
    obtain ⟨rfl, -⟩ := h₂
    exact ⟨hl, hk⟩
  | some y => exact ⟨⟨hl.trans h₂.1.1, h₂.1.2⟩, h₂.2⟩

theorem parenthesized_paces (h : Fed e m k c.limit l) :
    Paces e (parenthesized rules) c l fun _ => Far l :=
  .step here_sees <| .bind (expectPunct_paces h.ready) fun _ _ hl =>
    .bind (.withIn (hl.paces (expression_paces hr (h.far hl)))) fun _ _ hl =>
      .bind (hl.paces (expectPunct_paces hl.ready)) fun _ _ hl => finish_paces hl

theorem spreadElement_paces (h : Fed e m k c.limit l) :
    Paces e (spreadElement rules) c l fun _ => Far l :=
  .step here_sees <| .bind (expectPunct_paces h.ready) fun _ _ hl =>
    .bind (hl.paces (hr.behind .assignment (h.far hl))) fun _ _ hl => finish_paces hl

theorem valueOrSpread_paces (h : Fed e m (k + 1) c.limit l) :
    Paces e (valueOrSpread rules) c l fun _ => Far l :=
  .step isPunct_sees <| .ite (fun _ => spreadElement_paces hr h) fun _ => hr.assignment h

theorem arrayLiteral_paces (h : Fed e m k c.limit l) :
    Paces e (arrayLiteral rules) c l fun _ => Far l :=
  .step here_sees <| .bind (expectPunct_paces h.ready) fun _ _ hl =>
    .bind (.withIn (hl.paces (arrayElements_paces (h.far hl) fun _ hl' =>
      valueOrSpread_paces hr ((h.far hl).near hl')))) fun _ _ hl => finish_paces hl

theorem objectProperty_paces (h : Fed e m k c.limit l) :
    Paces e (objectProperty rules) c l fun _ => Far l := by
  refine .step here_sees (.step kind_sees ?_)
  generalize hk : l.kind = k'
  extract_lets rest
  have hrest : ∀ modifier l', Near l l' → Paces e (rest modifier) c l' fun _ => Far l := by
    refine fun modifier l₁ h₁ => .bind (acceptPunct_near h₁.ready) fun _ l₂ h₂ =>
      isIdentifier_paces.bind ?_
    rintro _ l₂ ⟨rfl, -⟩
    have h₂ := h₁.trans h₂
    refine .bind (propertyName_paces hr (h.near h₂)) fun _ _ ⟨hl, _⟩ => .step isPunct_sees ?_
    have hl := h₂.far hl
    refine .ite (fun _ => ?_) fun _ => .bind hl.acceptPunct fun _ _ hl => .ite (fun _ => ?_) fun _ => ?_
    · exact .bind (hl.paces (methodFunction_paces hr (h.far hl))) fun _ _ hl => finish_paces hl
    · exact .bind (hl.paces (hr.behind .assignment (h.far hl))) fun _ _ hl => finish_paces hl
    refine .ite (fun _ => .fail nofun) fun _ => .bind hl.acceptPunct fun _ _ hl => .ite (fun _ => ?_)
      fun _ => finish_paces hl
    exact .bind (hl.paces (hr.behind .assignment (h.far hl))) fun _ _ hl =>
      .bind (finish_paces hl) fun _ _ hl => finish_paces hl
  clear_value rest
  have hsame := hrest none l (.refl h.ready)
  split
  · have hne : l.kind ≠ .endOfFile := by simp [hk]
    refine .ite (fun _ => (modifies_paces h hne).bind ?_) fun _ => .bind (.pure (.refl h.ready)) hrest
    rintro _ _ rfl
    refine .ite (fun _ => .next hne ?_) fun _ => .bind (.pure (.refl h.ready)) hrest
    exact .bind (.pure (far_scan h.ready hne).near) hrest
  · exact .bind (.pure (.refl h.ready)) hrest

theorem objectItem_paces (h : Fed e m k c.limit l) :
    Paces e (objectItem rules) c l fun _ => Far l :=
  .step isPunct_sees <| .ite (fun _ => spreadElement_paces hr h) fun _ => objectProperty_paces hr h

theorem objectLiteral_paces (h : Fed e m k c.limit l) :
    Paces e (objectLiteral rules) c l fun _ => Far l :=
  .step here_sees <| .bind (expectPunct_paces h.ready) fun _ _ hl =>
    .bind (.withIn (hl.paces (commaList_paces (h.far hl) fun _ hl' =>
      objectItem_paces hr ((h.far hl).near hl')))) fun _ _ hl => finish_paces hl

theorem primary_paces (h : Fed e m k c.limit l) : Paces e (primary rules) c l fun _ => Far l := by
  refine .step here_sees (.step kind_sees ?_)
  generalize hk : l.kind = k'
  have word (hne : l.kind ≠ .endOfFile) {start : Nat} {form : Form Tree} :
      Paces e (do next; finish start form) c l fun _ => Far l :=
    .next hne (finish_paces (far_scan h.ready hne))
  have regExp (hne : l.kind ≠ .endOfFile) :
      Paces e (do rescan Lexer.rescanSlash; literal .regExp) c l fun _ => Far l :=
    .slash ((near_slash h.ready).paces
      (literal_paces (near_slash h.ready).ready (Lexer.rescanSlash_kind hne)))
  split
  · exact word (by simp [hk])
  · exact word (by simp [hk])
  · exact literal_paces h.ready (by simp [hk])
  · exact literal_paces h.ready (by simp [hk])
  · exact literal_paces h.ready (by simp [hk])
  · exact literal_paces h.ready (by simp [hk])
  · exact literal_paces h.ready (by simp [hk])
  · exact regExp (by simp [hk])
  · exact regExp (by simp [hk])
  · exact templateLiteral_paces hr h (by simp [hk])
  · exact templateLiteral_paces hr h (by simp [hk])
  · exact parenthesized_paces hr h
  · exact arrayLiteral_paces hr h
  · exact objectLiteral_paces hr h
  · exact function_paces hr h
  · exact classBody_paces hr h
  · refine (startsAsyncFunction_paces h (by simp [hk])).bind ?_
    rintro _ _ rfl
    exact .ite (fun _ => function_paces hr h) fun _ => identifier_paces h.ready
  · refine isIdentifier_paces.bind ?_
    rintro _ _ ⟨rfl, -⟩
    exact .ite (fun _ => identifier_paces h.ready) fun _ => .unexpected

theorem argumentList_paces (h : Fed e m k c.limit l) :
    Paces e (argumentList rules) c l fun _ => Far l :=
  .bind (expectPunct_paces h.ready) fun _ _ hl => .withIn <| hl.paces <|
    commaList_paces (h.far hl) fun _ hl' => valueOrSpread_paces hr ((h.far hl).near hl')

theorem computedMember_paces (h : Fed e m k c.limit l) :
    Paces e (computedMember rules) c l fun _ => Far l :=
  .bind (expectPunct_paces h.ready) fun _ _ hl =>
    .bind (.withIn (hl.paces (expression_paces hr (h.far hl)))) fun _ _ hl =>
      .bind (hl.paces (expectPunct_paces hl.ready)) fun _ _ hl => .pure hl

theorem tailStep_paces {start : Nat} {allowCalls : Bool} {base : Tree} (h : Fed e m k c.limit l) :
    Paces e (tailStep rules start allowCalls base) c l (Goes l fun _ => True) := by
  have found {o l : Lexer} {form : Form Tree} (hl : Far o l) :
      Paces e (some <$> finish start form) c l (Goes o fun _ => True) := .map (finish_paces hl)
  have name {o l : Lexer} (hl : Near o l) (optional : Bool) : Paces e (do
      some <$> finish start (.member base (← identifierName) false optional)) c l
      (Goes o fun _ => True) :=
    .bind (hl.paces (identifierName_paces hl.ready)) fun _ _ hl => found hl
  have computed {o l : Lexer} {j : Nat} (h : Fed e m j c.limit l) (hl : Near o l) (optional : Bool) :
      Paces e (do some <$> finish start (.member base (← computedMember rules) true optional)) c l
        (Goes o fun _ => True) :=
    .bind (hl.paces (computedMember_paces hr h)) fun _ _ hl => found hl
  have call {o l : Lexer} {j : Nat} (h : Fed e m j c.limit l) (hl : Near o l) (optional : Bool) :
      Paces e (do some <$> finish start (.call base (← argumentList rules) optional)) c l
        (Goes o fun _ => True) :=
    .bind (hl.paces (argumentList_paces hr h)) fun _ _ hl => found hl
  have quasi (hk : l.kind ≠ .endOfFile) :
      Paces e (do some <$> finish start (.taggedTemplate base (← templateLiteral rules))) c l
        (Goes l fun _ => True) :=
    .bind (templateLiteral_paces hr h hk) fun _ _ hl => found hl
  refine .step kind_sees ?_
  generalize hk : l.kind = k'
  split
  · have hne : l.kind ≠ .endOfFile := by simp [hk]
    exact .next hne (name (far_scan h.ready hne).near _)
  · exact computed h (.refl h.ready) _
  · have hne : l.kind ≠ .endOfFile := by simp [hk]
    have hl := far_scan h.ready hne
    refine .ite (fun _ => .pure ⟨rfl, trivial⟩) fun _ => .next hne (.step kind_sees ?_)
    split
    · exact computed (h.far hl) hl.near _
    · exact call (h.far hl) hl.near _
    · exact name hl.near _
  · exact .ite (fun _ => .pure ⟨rfl, trivial⟩) fun _ => call h (.refl h.ready) _
  · exact quasi (by simp [hk])
  · exact quasi (by simp [hk])
  · exact .pure ⟨rfl, trivial⟩

theorem tail_paces {start : Nat} {allowCalls : Bool} {base : Tree} (h : Fed e m k c.limit l) :
    Paces e (tail rules start allowCalls base) c l fun _ => Near l :=
  .step read_sees <| iterate_paces (I := fun _ => Near l) (fun _ _ hl =>
    (tailStep_paces hr (h.near hl)).mono fun _ _ h' => h'.shortens hl) h.turns (.refl h.ready)

theorem newExpression_paces (h : Fed e m k c.limit l) :
    Paces e (newExpression rules) c l fun _ => Far l := by
  refine .step here_sees (.bind (expectWord_paces h.ready) fun _ _ hl => .step isPunct_sees ?_)
  refine .detour (R := Far l) (fun _ => .fail nofun) (fun _ => hl) fun _ _ hl => ?_
  refine .step here_sees (.step isWord_sees (.branch (P := fun _ => Far l) (fun _ => ?_) (fun _ => ?_)
    fun callee _ hl => ?_))
  · exact .nested (hl.paces (hr.behind .new (h.far hl)))
  · exact hl.paces (primary_paces hr (h.far hl))
  refine .bind (hl.stays (tail_paces hr (h.far hl))) fun _ _ hl => .step isPunct_sees ?_
  exact .branch (P := fun _ => Far l) (fun _ => hl.paces (argumentList_paces hr (h.far hl)))
    (fun _ => .pure hl) fun _ _ hl => finish_paces hl

theorem leftHandSide_paces (h : Fed e m k c.limit l) :
    Paces e (leftHandSide rules) c l fun _ => Far l :=
  .step here_sees <| .step isWord_sees <| .branch (fun _ => newExpression_paces hr h)
    (fun _ => primary_paces hr h) fun _ _ hl => hl.stays (tail_paces hr (h.far hl))

theorem postfixed_paces (h : Fed e m k c.limit l) :
    Paces e (postfixed rules) c l fun _ => Far l := by
  refine .step here_sees (.bind (leftHandSide_paces hr h) fun _ l₁ hl => .step kind_sees ?_)
  refine .step afterLineBreak_sees (.ite (fun hsign => ?_) fun _ => .pure hl)
  have hk : l₁.kind ≠ .endOfFile := by
    intro hend
    simp [hend] at hsign
  refine .detour (R := (· = l₁)) (fun _ => .fail nofun) (fun _ => rfl) ?_
  rintro _ _ rfl
  exact .next hk (finish_paces (hl.trans (far_scan hl.ready hk).near))

theorem unary_paces (h : Fed e m k c.limit l) : Paces e (unary rules) c l fun _ => Far l := by
  have operand (hk : l.kind ≠ .endOfFile) : Paces e (nested (rules .unary)) c l.scan fun _ => Far l :=
    .nested ((far_scan h.ready hk).paces (hr.behind .unary (h.far (far_scan h.ready hk))))
  have sign (hk : l.kind ≠ .endOfFile) (start : Nat) (k : Kind) :
      Paces e (signed rules start k) c l fun _ => Far l :=
    .next hk (.bind (operand hk) fun _ _ hl => finish_paces hl)
  have update (hk : l.kind ≠ .endOfFile) (start : Nat) (k : Kind) :
      Paces e (prefixUpdate rules start k) c l fun _ => Far l :=
    .next hk (.bind (operand hk) fun _ _ hl => .detour (R := Far l) (fun _ => .throw fun _ => nofun)
      (fun _ => hl) fun _ _ hl => finish_paces hl)
  refine .step here_sees (.step kind_sees ?_)
  generalize hk : l.kind = k'
  split
  · exact sign (by simp [hk]) _ _
  · exact sign (by simp [hk]) _ _
  · exact sign (by simp [hk]) _ _
  · exact sign (by simp [hk]) _ _
  · exact sign (by simp [hk]) _ _
  · exact sign (by simp [hk]) _ _
  · exact sign (by simp [hk]) _ _
  · exact update (by simp [hk]) _ _
  · exact update (by simp [hk]) _ _
  · have hne : l.kind ≠ .endOfFile := by simp [hk]
    refine .step read_sees (.ite (fun _ => .next hne ?_) fun _ => postfixed_paces hr h)
    exact .bind (operand hne) fun _ _ hl => finish_paces hl
  · exact postfixed_paces hr h

theorem binaryStep_paces {above start : Nat} {operand : Tree} (h : Fed e m k c.limit l) :
    Paces e (binaryStep rules above start operand) c l (Goes l fun _ => True) := by
  refine .step kind_sees (.step read_sees (.ite (fun _ => .pure ⟨rfl, trivial⟩) fun hlt => ?_))
  have hk : l.kind ≠ .endOfFile := by
    intro hend
    rw [hend] at hlt
    exact hlt (Nat.zero_le _)
  have hl := far_scan h.ready hk
  exact .next hk (.bind (hl.paces (hr.behind _ (h.far hl))) fun _ _ hl => .map (finish_paces hl))

theorem binary_paces {above : Nat} (h : Fed e m k c.limit l) :
    Paces e (binary rules above) c l fun _ => Far l := by
  refine .step here_sees (.bind (unary_paces hr h) fun first l₁ hl => hl.stays (.step read_sees ?_))
  exact iterate_paces (I := fun _ => Near l₁) (fun _ _ hl' =>
    (binaryStep_paces hr ((h.far hl).near hl')).mono fun _ _ h' => h'.shortens hl') (h.far hl).turns
    (.refl hl.ready)

theorem conditional_paces (h : Fed e m k c.limit l) :
    Paces e (conditional rules) c l fun _ => Far l := by
  refine .step here_sees (.bind (binary_paces hr h) fun _ _ hl => .bind hl.acceptPunct fun _ _ hl =>
    .ite (fun _ => ?_) fun _ => .pure hl)
  refine .bind (.withIn (hl.paces (hr.behind .assignment (h.far hl)))) fun _ _ hl => ?_
  exact .bind (hl.paces (expectPunct_paces hl.ready)) fun _ _ hl =>
    .bind (hl.paces (hr.behind .assignment (h.far hl))) fun _ _ hl => finish_paces hl

theorem yieldExpression_paces (h : Fed e m k c.limit l) (hk : l.kind ≠ .endOfFile) :
    Paces e (yieldExpression rules) c l fun _ => Far l := by
  have hl := far_scan h.ready hk
  refine .step here_sees (.next hk (.step afterLineBreak_sees (.ite (fun _ => finish_paces hl)
    fun _ => .bind hl.acceptPunct fun _ l₁ hl => startsExpression_paces.bind ?_)))
  rintro _ _ rfl
  exact .optional (fun _ => hl.paces (hr.behind .assignment (h.far hl))) (fun _ => hl) fun _ _ hl =>
    finish_paces hl

theorem assignment_paces (h : Fed e m k c.limit l) :
    Paces e (assignment rules) c l fun _ => Far l := by
  refine (startsArrow_paces h).bind ?_
  rintro _ l rfl
  refine .ite (fun _ => arrowFunction_paces hr h) fun _ => .step isWord_sees (.step read_sees ?_)
  refine .ite (fun hyield => yieldExpression_paces hr h ?_) fun _ => .step here_sees ?_
  · have hk := of_decide_eq_true (Bool.and_eq_true_iff.1 hyield).1
    simp [hk]
  refine .bind (conditional_paces hr h) fun left l₁ hl => .step kind_sees (.ite (fun _ => .pure hl)
    fun hassign => ?_)
  have hk : l₁.kind ≠ .endOfFile := by
    intro hend
    simp [hend, Kind.isAssignment] at hassign
  extract_lets rest
  have hrest : ∀ left l', l' = l₁ → Paces e (rest left) c l' fun _ => Far l := by
    rintro left l₁ rfl
    have hl := hl.trans (far_scan hl.ready hk).near
    exact .next hk (.bind (hl.paces (hr.behind .assignment (h.far hl))) fun _ _ hl => finish_paces hl)
  clear_value rest
  exact .ite (fun _ => .bind target_paces hrest) fun _ =>
    .branch (fun _ => .pure rfl) (fun _ => .fail nofun) hrest

/-! ### Statements -/

theorem declarator_paces (h : Fed e m k c.limit l) :
    Paces e (declarator rules) c l fun _ => Far l :=
  .step here_sees <| .bind (bindingTarget_paces hr h) fun _ _ hl => .bind hl.acceptPunct fun _ _ hl =>
    .optional (fun _ => hl.paces (hr.behind .assignment (h.far hl))) (fun _ => hl) fun _ _ hl =>
      finish_paces hl

theorem declarators_paces {keyword : VarKeyword} (h : Fed e m k c.limit l)
    (hk : l.kind ≠ .endOfFile) : Paces e (declarators rules keyword) c l fun _ => Far l := by
  have hl := far_scan h.ready hk
  refine .step here_sees (.next hk (.bind (hl.paces (declarator_paces hr (h.far hl))) fun _ _ hl => ?_))
  have h' := h.far hl
  refine .bind (collect_paces h' fun l₂ h₂ => behindComma_paces h₂.ready fun l₃ h₃ => ?_) fun _ _ h₂ =>
    finish_paces (hl.trans h₂.1)
  exact declarator_paces hr ((h'.near h₂).far h₃)

theorem variableStatement_paces {keyword : VarKeyword} (h : Fed e m k c.limit l)
    (hk : l.kind ≠ .endOfFile) : Paces e (variableStatement rules keyword) c l fun _ => Far l :=
  .step here_sees <| .bind (declarators_paces hr h hk) fun t _ hl =>
    .bind (hl.stays (semicolon_paces hl.ready)) fun _ _ hl =>
      .look (fun _ v => pure (t.withRange l.start.offset v.prevStop)) (fun _ _ => rfl) fun _ _ => .pure hl

theorem condition_paces (h : Fed e m k c.limit l) : Paces e (condition rules) c l fun _ => Far l :=
  .bind (expectPunct_paces h.ready) fun _ _ hl =>
    .bind (.withIn (hl.paces (expression_paces hr (h.far hl)))) fun _ _ hl =>
      .bind (hl.paces (expectPunct_paces hl.ready)) fun _ _ hl => .pure hl

theorem ifStatement_paces (h : Fed e m k c.limit l) (hk : l.kind ≠ .endOfFile) :
    Paces e (ifStatement rules) c l fun _ => Far l := by
  have hl := far_scan h.ready hk
  refine .step here_sees (.next hk (.bind (hl.paces (condition_paces hr (h.far hl))) fun _ _ hl => ?_))
  refine .bind (hl.paces (hr.behind .statement (h.far hl))) fun _ _ hl => .bind hl.acceptWord
    fun _ _ hl => ?_
  exact .optional (fun _ => hl.paces (hr.behind .statement (h.far hl))) (fun _ => hl) fun _ _ hl =>
    finish_paces hl

theorem whileStatement_paces (h : Fed e m k c.limit l) (hk : l.kind ≠ .endOfFile) :
    Paces e (whileStatement rules) c l fun _ => Far l := by
  have hl := far_scan h.ready hk
  refine .step here_sees (.next hk (.bind (hl.paces (condition_paces hr (h.far hl))) fun _ _ hl => ?_))
  exact .bind (hl.paces (hr.behind .statement (h.far hl))) fun _ _ hl => finish_paces hl

theorem doStatement_paces (h : Fed e m k c.limit l) (hk : l.kind ≠ .endOfFile) :
    Paces e (doStatement rules) c l fun _ => Far l := by
  have hl := far_scan h.ready hk
  refine .step here_sees (.next hk (.bind (hl.paces (hr.behind .statement (h.far hl))) fun _ _ hl => ?_))
  refine .bind (hl.paces (expectWord_paces hl.ready)) fun _ _ hl => ?_
  exact .bind (hl.paces (condition_paces hr (h.far hl))) fun _ _ hl => .bind hl.acceptPunct
    fun _ _ hl => finish_paces hl

theorem optionalExpression_paces {close : Punctuator} (h : Fed e m (k + 1) c.limit l) :
    Paces e (optionalExpression rules close) c l fun _ => Near l :=
  .step isPunct_sees <| .ite (fun _ => .pure (.refl h.ready)) fun _ =>
    .map ((expression_paces hr h).mono fun _ _ h => h.near)

theorem forStatement_paces (h : Fed e m k c.limit l) (hk : l.kind ≠ .endOfFile) :
    Paces e (forStatement rules) c l fun _ => Far l := by
  have hl := far_scan h.ready hk
  refine .step here_sees (.next hk (.bind (hl.paces (expectPunct_paces hl.ready)) fun _ l₁ hl => ?_))
  refine .bind (P := fun _ => Far l) (.withoutIn ?_) fun init l₂ hl => .step kind_sees ?_
  · refine .step isPunct_sees (.ite (fun _ => .pure hl) fun _ => ?_)
    refine .bind (declarationKeyword?_paces (h.far hl)) ?_
    rintro o l₁ ⟨rfl, hword⟩
    split
    · exact .map (hl.paces (declarators_paces hr (h.far hl) (hword nofun)))
    · exact .map (hl.paces (expression_paces hr (h.far hl)))
  generalize hk₂ : l₂.kind = k₂
  extract_lets rest
  have hrest : ∀ each l', l' = l₂ ∧ (each ≠ none → l₂.kind ≠ .endOfFile) →
      Paces e (rest each) c l' fun _ => Far l := by
    rintro each l₂ ⟨rfl, hk₂⟩
    dsimp only [rest]
    split
    · next left each =>
      have behind : ∀ (left : Tree) (start : Nat), Paces e (do
          next
          let right ← withIn (if each = .values then rules .assignment else expression rules)
          expectPunct .closeParen
          let body ← rules .statement
          finish start (.forEach each left right body)) c l₂ fun _ => Far l := by
        intro left start
        have hk₂ := hk₂ nofun
        have hl := hl.trans (far_scan hl.ready hk₂).near
        refine .next hk₂ (.bind (.withIn (hl.paces (.ite ?_ ?_))) fun _ _ hl => ?_)
        · exact fun _ => hr.behind .assignment (h.far hl)
        · exact fun _ => expression_paces hr (h.far hl)
        · exact .bind (hl.paces (expectPunct_paces hl.ready)) fun _ _ hl =>
            .bind (hl.paces (hr.behind .statement (h.far hl))) fun _ _ hl => finish_paces hl
      split
      · exact .bind (.pure rfl) fun left l' (h : l' = l₂) => h ▸ behind left _
      · exact .bind target_paces fun left l' (h : l' = l₂) => h ▸ behind left _
    · refine .bind (hl.paces (expectPunct_paces hl.ready)) fun _ _ hl => ?_
      refine .bind (hl.stays (optionalExpression_paces hr (h.far hl))) fun _ _ hl => ?_
      refine .bind (hl.paces (expectPunct_paces hl.ready)) fun _ _ hl => ?_
      refine .bind (hl.stays (optionalExpression_paces hr (h.far hl))) fun _ _ hl => ?_
      exact .bind (hl.paces (expectPunct_paces hl.ready)) fun _ _ hl =>
        .bind (hl.paces (hr.behind .statement (h.far hl))) fun _ _ hl => finish_paces hl
  clear_value rest
  split
  · exact .bind (.pure ⟨rfl, fun _ => by simp [hk₂]⟩) hrest
  · exact .bind (.pure ⟨rfl, fun _ => by simp [hk₂]⟩) hrest
  · exact .bind (.pure ⟨rfl, fun hne => absurd rfl hne⟩) hrest

theorem returnStatement_paces (h : Fed e m k c.limit l) (hk : l.kind ≠ .endOfFile) :
    Paces e (returnStatement rules) c l fun _ => Far l := by
  have hl := far_scan h.ready hk
  refine .step here_sees (.next hk (canEndStatement_paces.bind ?_))
  rintro _ _ rfl
  refine .branch (P := fun _ => Far l) (fun _ => .pure hl)
    (fun _ => .map (hl.paces (expression_paces hr (h.far hl)))) fun _ _ hl => ?_
  exact .bind (hl.stays (semicolon_paces hl.ready)) fun _ _ hl => finish_paces hl

omit hr in
theorem jumpStatement_paces {jump : JumpKind} (hl : l.Ready) (hk : l.kind ≠ .endOfFile) :
    Paces e (jumpStatement jump) c l fun _ => Far l := by
  have hl := far_scan hl hk
  refine .step here_sees (.next hk (canEndStatement_paces.bind ?_))
  rintro _ _ rfl
  refine isIdentifier_paces.bind ?_
  rintro _ _ ⟨rfl, -⟩
  refine .optional (R := Far l) (fun _ => hl.paces (identifier_paces hl.ready)) (fun _ => hl)
    fun _ _ hl => ?_
  exact .bind (hl.stays (semicolon_paces hl.ready)) fun _ _ hl => finish_paces hl

theorem throwStatement_paces (h : Fed e m k c.limit l) (hk : l.kind ≠ .endOfFile) :
    Paces e (throwStatement rules) c l fun _ => Far l := by
  have hl := far_scan h.ready hk
  refine .step here_sees (.next hk (.step afterLineBreak_sees (.detour (R := Far l)
    (fun _ => .fail nofun) (fun _ => hl) fun _ _ hl => ?_)))
  exact .bind (hl.paces (expression_paces hr (h.far hl))) fun _ _ hl =>
    .bind (hl.stays (semicolon_paces hl.ready)) fun _ _ hl => finish_paces hl

theorem catchClause_paces (h : Fed e m k c.limit l) (hk : l.kind ≠ .endOfFile) :
    Paces e (catchClause rules) c l fun _ => Far l := by
  have hl := far_scan h.ready hk
  refine .step here_sees (.next hk (.bind hl.acceptPunct fun _ l₁ hl => ?_))
  extract_lets rest
  have hrest : ∀ param l₂, Far l l₂ → Paces e (rest param) c l₂ fun _ => Far l := fun _ _ hl =>
    .bind (hl.paces (block_paces hr (h.far hl))) fun _ _ hl => finish_paces hl
  clear_value rest
  refine .ite (fun _ => ?_) fun _ => .bind (.pure hl) hrest
  exact .bind (hl.paces (bindingTarget_paces hr (h.far hl))) fun _ _ hl =>
    .bind (hl.paces (expectPunct_paces hl.ready)) fun _ _ hl => .bind (.pure hl) hrest

theorem tryStatement_paces (h : Fed e m k c.limit l) (hk : l.kind ≠ .endOfFile) :
    Paces e (tryStatement rules) c l fun _ => Far l := by
  have hl := far_scan h.ready hk
  refine .step here_sees (.next hk (.bind (hl.paces (block_paces hr (h.far hl))) fun _ l₁ hl => ?_))
  refine .step isWord_sees (.optional (fun hcatch => hl.paces (catchClause_paces hr (h.far hl) ?_))
    (fun _ => hl) fun _ _ hl => .bind hl.acceptWord fun _ _ hl => ?_)
  · simp [of_decide_eq_true hcatch]
  refine .optional (fun _ => hl.paces (block_paces hr (h.far hl))) (fun _ => hl) fun _ _ hl => ?_
  exact .detour (R := Far l) (fun _ => .fail nofun) (fun _ => hl) fun _ _ hl => finish_paces hl

theorem caseTest_paces (h : Fed e m k c.limit l) : Paces e (caseTest rules) c l fun _ => Far l := by
  refine (acceptWord_paces h.ready).bind fun b l₁ h₁ => ?_
  rcases h₁ with ⟨rfl, hl⟩ | ⟨rfl, rfl⟩
  · exact .bind (hl.paces (expression_paces hr (h.far hl))) fun _ _ hl => .pure hl
  refine (acceptWord_paces h.ready).bind fun b l₂ h₂ => ?_
  rcases h₂ with ⟨rfl, hl⟩ | ⟨rfl, rfl⟩
  · exact .pure hl
  · exact .fail nofun

theorem consequentItem_paces (h : Fed e m 2 c.limit l) :
    Paces e (consequentItem rules) c l (Goes l fun _ => True) := by
  refine .step kind_sees ?_
  split
  · exact .pure ⟨rfl, trivial⟩
  · exact .pure ⟨rfl, trivial⟩
  · exact .pure ⟨rfl, trivial⟩
  · exact .pure ⟨rfl, trivial⟩
  · exact .bind (hr.behind .statement h) fun _ _ hl => .pure hl

theorem switchCase_paces (h : Fed e m k c.limit l) :
    Paces e (switchCase rules) c l fun _ => Far l := by
  refine .step here_sees (.bind (caseTest_paces hr h) fun _ _ hl => ?_)
  refine .bind (hl.paces (expectPunct_paces hl.ready)) fun _ _ hl => ?_
  have h' := h.far hl
  exact .bind (collect_paces h' fun _ hl => consequentItem_paces hr (h'.near hl)) fun _ _ h₂ =>
    finish_paces (hl.trans h₂.1)

theorem caseItem_paces (h : Fed e m k c.limit l) :
    Paces e (caseItem rules) c l (Goes l fun l => l.kind = .punct .closeBrace) := by
  refine .step isPunct_sees (.ite (fun hk => .pure ⟨rfl, of_decide_eq_true hk⟩) fun _ => ?_)
  exact .bind (switchCase_paces hr h) fun _ _ hl => .pure hl

theorem switchStatement_paces (h : Fed e m k c.limit l) (hk : l.kind ≠ .endOfFile) :
    Paces e (switchStatement rules) c l fun _ => Far l := by
  have hl := far_scan h.ready hk
  refine .step here_sees (.next hk (.bind (hl.paces (condition_paces hr (h.far hl))) fun _ _ hl => ?_))
  refine .bind (hl.paces (expectPunct_paces hl.ready)) fun _ _ hl => ?_
  have h' := h.far hl
  exact .bind (collect_paces h' fun _ hl => caseItem_paces hr (h'.near hl)) fun _ _ hl₂ =>
    .close hl₂ fun hfar => finish_paces (hl.trans hfar.near)

theorem withStatement_paces (h : Fed e m k c.limit l) (hk : l.kind ≠ .endOfFile) :
    Paces e (withStatement rules) c l fun _ => Far l := by
  have hl := far_scan h.ready hk
  refine .step here_sees (.next hk (.bind (hl.paces (condition_paces hr (h.far hl))) fun _ _ hl => ?_))
  exact .bind (hl.paces (hr.behind .statement (h.far hl))) fun _ _ hl => finish_paces hl

theorem labeledStatement_paces (h : Fed e m k c.limit l) :
    Paces e (labeledStatement rules) c l fun _ => Far l :=
  .step here_sees <| .bind (identifier_paces h.ready) fun _ _ hl =>
    .bind (hl.paces (expectPunct_paces hl.ready)) fun _ _ hl =>
      .bind (hl.paces (hr.behind .statement (h.far hl))) fun _ _ hl => finish_paces hl

theorem expressionStatement_paces (h : Fed e m (k + 1) c.limit l) :
    Paces e (expressionStatement rules) c l fun _ => Far l :=
  .step here_sees <| .bind (expression_paces hr h) fun _ _ hl =>
    .bind (hl.stays (semicolon_paces hl.ready)) fun _ _ hl => finish_paces hl

theorem plainStatement_paces (h : Fed e m (k + 1) c.limit l) :
    Paces e (plainStatement rules) c l fun _ => Far l := by
  refine isIdentifier_paces.bind ?_
  rintro _ l ⟨rfl, hname⟩
  refine .branch (P := fun _ l' => l' = l) (fun hb => ?_) (fun _ => .pure rfl) ?_
  · exact LookAhead.colon.stays h (ne_end_of_isName (hname hb))
  rintro _ _ rfl
  exact .ite (fun _ => labeledStatement_paces hr h) fun _ => expressionStatement_paces hr h

theorem statement_paces (h : Fed e m (k + 1) c.limit l) :
    Paces e (statement rules) c l fun _ => Far l := by
  refine .step here_sees (.step kind_sees ?_)
  generalize hk : l.kind = k'
  have hne (hk' : k' ≠ .endOfFile) : l.kind ≠ .endOfFile := hk ▸ hk'
  split
  · exact block_paces hr h
  · exact .next (hne nofun) (finish_paces (far_scan h.ready (hne nofun)))
  · exact variableStatement_paces hr h (hne nofun)
  · exact variableStatement_paces hr h (hne nofun)
  · refine (startsLet_paces h (hne nofun)).bind ?_
    rintro _ _ rfl
    exact .ite (fun _ => variableStatement_paces hr h (hne nofun)) fun _ => plainStatement_paces hr h
  · exact function_paces hr h
  · refine (startsAsyncFunction_paces h (hne nofun)).bind ?_
    rintro _ _ rfl
    exact .ite (fun _ => function_paces hr h) fun _ => plainStatement_paces hr h
  · exact classBody_paces hr h
  · exact ifStatement_paces hr h (hne nofun)
  · exact forStatement_paces hr h (hne nofun)
  · exact whileStatement_paces hr h (hne nofun)
  · exact doStatement_paces hr h (hne nofun)
  · exact returnStatement_paces hr h (hne nofun)
  · exact jumpStatement_paces h.ready (hne nofun)
  · exact jumpStatement_paces h.ready (hne nofun)
  · exact throwStatement_paces hr h (hne nofun)
  · exact tryStatement_paces hr h (hne nofun)
  · exact switchStatement_paces hr h (hne nofun)
  · exact withStatement_paces hr h (hne nofun)
  · have hl := far_scan h.ready (hne nofun)
    exact .next (hne nofun) (.bind (hl.stays (semicolon_paces hl.ready)) fun _ _ hl => finish_paces hl)
  · exact .fail nofun
  · exact .fail nofun
  · exact plainStatement_paces hr h

theorem programItem_paces (h : Fed e m 2 c.limit l) :
    Paces e (programItem rules) c l (Goes l fun l => l.kind = .endOfFile) := by
  refine .step isEnd_sees (.ite (fun hk => .pure ⟨rfl, of_decide_eq_true hk⟩) fun _ => ?_)
  exact .bind (hr.behind .statement h) fun _ _ h => .pure h

/-- One round of the grammar takes one level. -/
theorem rule_paced : Paced e (m + 1) (rule rules) := by
  intro X c l h
  have h' : Fed e m (X.rank - 1) c.limit l := by
    refine ⟨h.ready, h.told, h.turns, fun he => ?_⟩
    have hlevels := h.levels he
    have hpos : 0 < X.rank := by cases X <;> simp [Nonterminal.rank]
    omega
  cases X with
  | statement => exact .nested (statement_paces hr h')
  | assignment => exact .nested (assignment_paces hr h')
  | unary => exact unary_paces hr h'
  | binary above => exact binary_paces hr h'
  | leftHandSide => exact leftHandSide_paces hr h'
  | new => exact newExpression_paces hr h'
  | bindingTarget => exact bindingTarget_paces hr h'

end Rules

theorem rules_paced (n : Nat) : Paced e n (Grammar.rules n) := by
  induction n with
  | zero =>
    intro X c l h
    refine .fail fun he => ?_
    have hlevels := h.levels he
    have hpos : 0 < X.rank := by cases X <;> simp [Nonterminal.rank]
    omega
  | succ n ih => exact rule_paced ih

end LoopClosure.Grammar
