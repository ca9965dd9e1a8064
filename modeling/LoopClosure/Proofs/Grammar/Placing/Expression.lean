import LoopClosure.Proofs.Grammar.Placing.Function

/-!
# Expressions in their places

Below the operators no tree is a binary one, however tight that would have to bind. The loop over the
operators of one expression keeps that the tree read so far is what the next operator takes for its
left operand (`Climbed`).
-/

namespace LoopClosure.Grammar

open Syntax Token

variable {cs : List Char} {F : List Lexeme → Prop} {c : Context} {s s₀ : Track} {q : Place}
  {rules : Rules} {above : Nat} {t : Tree}

/-- A target is what a tree is read as again. -/
theorem target_known {c' : Context} (h : Known cs (t.Suits · c'.place) s) :
    Ensures (target t) c s fun u s' => s' = s ∧ Known cs (u.Suits · (c'.place.withSlot .target)) s' := by
  unfold target
  split
  · next u hu =>
    have hu : t.toPattern false = .ok u := hu
    exact .pure ⟨rfl, h.mono fun _ h => Tree.suits_toPattern (.inl rfl) h hu⟩
  · intro a s' hr
    cases hr

section Placing

variable (hr : Placing cs rules)
include hr

/-! ## Primary expressions -/

theorem templateLiteral_brings (hs : s.Ready cs) (hk : s.kind ≠ .endOfFile) :
    Ensures (templateLiteral rules) c s fun t s' => Known cs (t.Suits · (c.place.tighter above)) s' := by
  refine .step here_eq (.step kind_eq ?_)
  have first : Known cs (fun ks => ∀ t ∈ ([] : List Tree), t.Suits ks c.place.enclosed) s.advance :=
    (Known.of (hs.advance hk)).mono fun _ _ => by simp
  have hread : Brings cs c.place.enclosed (withIn (expression rules)) c := expression_brings hr
  extract_lets rest
  have hrest : ∀ es s', Known cs (fun ks => ∀ t ∈ es, Tree.Suits ks c.place.enclosed t) s'.advance →
      Ensures (rest es) c s' fun t s' => Known cs (t.Suits · (c.place.tighter above)) s' :=
    fun es s' h => .step next_eq (h.finish rfl nofun fun ks hes =>
      Tree.allSuit_of_mem hes fun _ _ => rfl)
  refine .ite (fun _ => ?_) fun _ => .step pure_eq (hrest [] s first)
  refine (repeating_spec (I := fun x s' => Known cs (fun ks => ∀ t ∈ x.1.reverse,
    Tree.Suits ks c.place.enclosed t) s'.advance) ?_ first).bind fun x s' h =>
      .step pure_eq (hrest _ s' h)
  rintro ⟨es, more⟩ s' h
  refine .ite (fun _ => .pure h) fun _ => .step next_eq ?_
  refine (h.read hread).bind fun e s' h => ?_
  refine .step isPunct_eq (.ite (fun _ => .fail_bind) fun hclose => ?_)
  have hk : s'.kind ≠ .endOfFile := by
    have hbrace : s'.kind = .punct .closeBrace := by simpa using hclose
    simp [hbrace]
  have hstart := (Lexer.rescanTemplate_ready h.ready.lexer).2
  refine .step (rescan_eq hstart) (.step kind_eq (.pure ?_))
  refine (Known.stable.advance h.rescanTemplate (Lexer.rescanTemplate_kind hk)).mono fun ks hall => ?_
  simpa [or_imp, forall_and, and_comm] using hall

theorem parenthesized_brings : Brings cs (c.place.tighter above) (parenthesized rules) c := by
  intro s hs
  refine .step here_eq ((Known.stable.expectPunct (.of hs)).bind fun _ s' h => ?_)
  refine (h.read (expression_brings hr).withIn).bind fun e s' h => ?_
  refine (Known.stable.expectPunct h).bind fun _ s' h => ?_
  exact h.finish rfl nofun fun ks ⟨_, he⟩ => ⟨he, trivial⟩

theorem spreadElement_brings {slot : Slot} (hslot : ∀ t : Tree, slot.takes (.spread t) = true) :
    Brings cs (c.place.withSlot slot) (spreadElement rules) c := by
  intro s hs
  refine .step here_eq ((Known.stable.expectPunct (.of hs)).bind fun _ s' h => ?_)
  refine (h.read (hr.assignment c)).bind fun argument s' h => ?_
  exact h.finish (Bool.and_eq_true_iff.2 ⟨hslot _, rfl⟩) nofun fun ks ⟨_, h⟩ => ⟨h, trivial⟩

theorem valueOrSpread_brings : Brings cs (c.place.withSlot .item) (valueOrSpread rules) c := by
  intro s hs
  refine .step isPunct_eq (.ite (fun _ => ?_) fun _ => ?_)
  · exact spreadElement_brings hr (fun _ => rfl) s hs
  · exact (hr.assignment c).weaken (Place.Milder.withSlot c.place .plain_item) s hs

theorem arrayLiteral_brings : Brings cs (c.place.tighter above) (arrayLiteral rules) c := by
  intro s hs
  refine .step here_eq (expect_spec.bind fun _ s' h => ?_)
  obtain ⟨hk, rfl⟩ := h
  have hready := hs.advance (by simp [hk])
  refine (Ensures.withIn ((valueOrSpread_brings hr).arrayElements hready)).bind fun es s' h => ?_
  exact h.finish rfl nofun fun ks hes => Tree.allSuit_of_mem hes fun _ _ => rfl

theorem objectProperty_brings :
    Brings cs (c.place.enclosed.withSlot .entry) (objectProperty rules) c := by
  intro s hs
  refine .step here_eq (.step kind_eq ?_)
  extract_lets rest
  have hvalue : Brings cs c.place.enclosed (rules .assignment) c :=
    (hr.assignment c).weaken (.enclosed _)
  have hrest : ∀ modifier s', s'.Ready cs → Ensures (rest modifier) c s' fun t s' =>
      Known cs (t.Suits · (c.place.enclosed.withSlot .entry)) s' := by
    intro modifier s' hs
    dsimp only [rest]
    refine (Known.stable.acceptPunct (.of hs)).bind fun isGenerator s' h => ?_
    have hs := h.ready
    refine (isIdentifier_allows hs).bind fun mayBeShort s'' hshort => ?_
    obtain ⟨rfl, hshort⟩ := hshort
    refine (propertyName_brings hr hs).bind ?_
    rintro ⟨key, computed⟩ s'' ⟨h, hnames⟩
    refine .step isPunct_eq (.ite (fun _ => ?_) fun _ => ?_)
    · refine (h.read (methodFunction_brings (q := c.place.enclosed) hr rfl rfl)).bind
        fun value s'' h => ?_
      refine h.finish rfl nofun fun ks ⟨hkey, hvalue⟩ => ⟨?_, hvalue, trivial⟩
      cases computed <;> exact hkey
    refine (Known.stable.acceptPunct h).bind fun b s'' h => .ite (fun _ => ?_) fun _ => ?_
    · refine (h.read hvalue).bind fun value s'' h => ?_
      refine h.finish rfl nofun fun ks ⟨hkey, hvalue⟩ => ⟨?_, hvalue, trivial⟩
      cases computed <;> exact hkey
    refine .ite (fun _ => .fail) fun hplain => ?_
    simp only [Bool.or_eq_true, Bool.not_eq_true', not_or, Bool.not_eq_false, Bool.not_eq_true]
      at hplain
    obtain ⟨hshort', rfl⟩ := hplain
    obtain ⟨hname, hallows⟩ := hshort hshort'
    have hnames := hnames hname rfl
    refine (Known.stable.acceptPunct h).bind fun b s'' h => .ite (fun _ => ?_) fun _ => ?_
    · refine (h.read hvalue).bind fun v s'' h => ?_
      have hdefault : Ensures (finish s.here (.assignment (.punct .equals) key v)) c s'' fun t s' =>
          Known cs (t.Suits · c.place.enclosed) s' :=
        h.finish rfl nofun fun ks ⟨_, hv⟩ => ⟨hnames.suits hallows, hv, trivial⟩
      refine (h.also hdefault).bind fun value s'' h => ?_
      exact h.finish rfl nofun fun ks ⟨⟨hkey, _⟩, hvalue⟩ => ⟨hkey, hvalue, trivial⟩
    · exact h.finish rfl nofun fun ks hkey => ⟨hkey, hnames.suits hallows, trivial⟩
  clear_value rest
  split
  · next k hk =>
    refine .ite (fun _ => modifies_spec.bind fun b s' hsame => .ite (fun _ => ?_) fun _ => ?_)
      fun _ => .step pure_eq (hrest _ _ hs)
    · have hk : s'.kind = .word k := hsame.kind.trans hk
      have hs := (hsame.ready hs).advance (by simp [hk])
      exact .step next_eq (.step pure_eq (hrest _ _ hs))
    · exact .step pure_eq (hrest _ _ (hsame.ready hs))
  · exact .step pure_eq (hrest _ _ hs)

theorem objectLiteral_brings : Brings cs (c.place.tighter above) (objectLiteral rules) c := by
  intro s hs
  refine .step here_eq ((Known.stable.expectPunct (.of hs)).bind fun _ s' h => ?_)
  have hproperty : Brings cs (c.place.enclosed.withSlot .entry) (objectItem rules)
      { c with noIn := false } := by
    intro s hs
    refine .step isPunct_eq (.ite (fun _ => ?_) fun _ => ?_)
    · exact spreadElement_brings hr (fun _ => rfl) s hs
    · exact objectProperty_brings hr s hs
  refine (Ensures.withIn (h.readAll hproperty.commaList)).bind fun ts s' h => ?_
  exact h.finish rfl nofun fun ks ⟨_, hts⟩ => Tree.allSuit_of_mem hts fun _ _ => rfl

theorem primary_brings : Brings cs (c.place.tighter above) (primary rules) c := by
  intro s hs
  refine .step here_eq (.step kind_eq ?_)
  have token (form : Form Tree) (hk : s.kind ≠ .endOfFile)
      (hform : (c.place.tighter above).admits form = true) (hchildren : form.children = []) :
      Ensures (next >>= fun _ => finish s.here form) c s fun t s' =>
        Known cs (t.Suits · (c.place.tighter above)) s' :=
    .step next_eq ((Known.of (hs.advance hk)).leaf hform hchildren)
  have hregExp (hk : s.kind ≠ .endOfFile) :
      Ensures (rescan Lexer.rescanSlash >>= fun _ => literal .regExp) c s fun t s' =>
        Known cs (t.Suits · (c.place.tighter above)) s' :=
    have hstart := (Lexer.rescanSlash_ready hs.lexer).2
    .step (rescan_eq hstart) (literal_brings (hs.rescan hstart hs.lexed.slash)
      (Lexer.rescanSlash_kind hk) fun _ => rfl)
  have hidentifier : Brings cs (c.place.tighter above) identifier c :=
    identifier_brings fun _ h => h
  have hfunction : Brings cs (c.place.tighter above) (function rules .expression) c :=
    function_brings hr (by decide)
  split
  · next hk => exact token .this (by simp [hk]) rfl rfl
  · next hk => exact token .super (by simp [hk]) rfl rfl
  · next hk => exact literal_brings hs (by simp [hk]) fun _ => rfl
  · next hk => exact literal_brings hs (by simp [hk]) fun _ => rfl
  · next hk => exact literal_brings hs (by simp [hk]) fun _ => rfl
  · next hk => exact literal_brings hs (by simp [hk]) fun _ => rfl
  · next hk => exact literal_brings hs (by simp [hk]) fun _ => rfl
  · next hk => exact hregExp (by simp [hk])
  · next hk => exact hregExp (by simp [hk])
  · next hk => exact templateLiteral_brings hr hs (by simp [hk])
  · next hk => exact templateLiteral_brings hr hs (by simp [hk])
  · exact parenthesized_brings hr s hs
  · exact arrayLiteral_brings hr s hs
  · exact objectLiteral_brings hr s hs
  · exact hfunction s hs
  · exact classBody_brings hr s hs
  · refine lookAhead_spec.bind fun b s' hsame => .ite (fun _ => ?_) fun _ => ?_
    · exact hfunction.after hs hsame
    · exact hidentifier.after hs hsame
  · refine isIdentifier_spec.bind fun b s' h => .ite (fun _ => ?_) fun _ => .unexpected
    obtain ⟨rfl, -⟩ := h
    exact hidentifier s' hs

/-! ## Members and calls -/

theorem argumentList_known (h : Known cs F s) : Ensures (argumentList rules) c s fun ts s' =>
    Known cs (fun ks => F ks ∧ ∀ t ∈ ts, t.Suits ks (c.place.enclosed.withSlot .item)) s' :=
  (Known.stable.expectPunct h).bind fun _ _ h => .withIn (h.readAll (valueOrSpread_brings hr).commaList)

theorem computedMember_known (h : Known cs F s) : Ensures (computedMember rules) c s fun key s' =>
    Known cs (fun ks => F ks ∧ key.Suits ks c.place.enclosed) s' := by
  have hread : Brings cs c.place.enclosed (withIn (expression rules)) c := expression_brings hr
  refine (Known.stable.expectPunct h).bind fun _ s' h => ?_
  refine (h.read hread).bind fun key s' h => ?_
  exact (Known.stable.expectPunct h).bind fun _ s' h => .pure h

/-- One more access, call or template. -/
theorem tailStep_known {start : Nat} {allowCalls : Bool} {e : Tree}
    (h : Known cs (e.Suits · (c.place.tighter 12)) s) :
    Ensures (tailStep rules start allowCalls e) c s fun o s' =>
      Known cs ((o.getD e).Suits · (c.place.tighter 12)) s' := by
  have hloose {ks : List Lexeme} (he : e.Suits ks (c.place.tighter 12)) : e.Suits ks c.place :=
    he.weaken (Place.Milder.tighter c.place (Nat.zero_le 12))
  have member (computed optional : Bool) (key : Tree) (s' : Track)
      (h : Known cs (fun ks => e.Suits ks (c.place.tighter 12) ∧ key.Suits ks
        (if computed then c.place.enclosed else c.place.withSlot .key)) s') :
      Ensures (some <$> finish start (.member e key computed optional)) c s'
        fun o s' => Known cs ((o.getD e).Suits · (c.place.tighter 12)) s' := by
    refine .map (h.finish rfl nofun fun ks ⟨he, hkey⟩ => ⟨hloose he, ?_, trivial⟩)
    cases computed <;> exact hkey
  have call (optional : Bool) (arguments : List Tree) (s' : Track)
      (h : Known cs (fun ks => e.Suits ks (c.place.tighter 12) ∧
        ∀ t ∈ arguments, t.Suits ks (c.place.enclosed.withSlot .item)) s') :
      Ensures (some <$> finish start (.call e arguments optional)) c s'
        fun o s' => Known cs ((o.getD e).Suits · (c.place.tighter 12)) s' := by
    refine .map (h.finish rfl nofun fun ks ⟨he, harguments⟩ => ⟨hloose he, ?_⟩)
    exact Tree.allSuit_of_mem harguments fun j _ => Place.into_call _ e arguments optional j
  have template (hk : s.kind ≠ .endOfFile) : Ensures (templateLiteral rules >>= fun quasi =>
      some <$> finish start (.taggedTemplate e quasi)) c s
        fun o s' => Known cs ((o.getD e).Suits · (c.place.tighter 12)) s' := by
    have hquasi : Ensures (templateLiteral rules) c s fun t s' =>
        Known cs (t.Suits · (c.place.tighter 0)) s' := templateLiteral_brings hr h.ready hk
    refine (h.also hquasi).bind fun quasi s' h => ?_
    exact .map (h.finish rfl nofun fun ks ⟨he, hquasi⟩ => ⟨hloose he, hquasi, trivial⟩)
  have name (optional : Bool) {s : Track} (h : Known cs (e.Suits · (c.place.tighter 12)) s) :
      Ensures (identifierName >>= fun key => some <$> finish start (.member e key false optional)) c s
        fun o s' => Known cs ((o.getD e).Suits · (c.place.tighter 12)) s' := by
    have hname : Ensures identifierName c s fun t s' =>
        Known cs (t.Suits · (c.place.withSlot .key)) s' :=
      (identifierName_names h.ready).mono fun t s' ⟨hready, hnames⟩ =>
        (Known.of hready).mono fun _ _ => hnames.suits rfl
    exact (h.also hname).bind fun key s' h => member _ _ _ _ h
  refine .step kind_eq ?_
  split
  · next hk => exact .step next_eq (name false (Known.stable.advance h (by simp [hk])))
  · exact (computedMember_known hr h).bind fun key s' h => member true _ _ _ h
  · next hk =>
    refine .ite (fun _ => .pure h) fun _ => .step next_eq (.step kind_eq ?_)
    have h := Known.stable.advance h (by simp [hk])
    split
    · exact (computedMember_known hr h).bind fun key s' h => member true _ _ _ h
    · exact (argumentList_known hr h).bind fun arguments s' h => call _ _ _ h
    · exact name true h
  · refine .ite (fun _ => .pure h) fun _ => ?_
    exact (argumentList_known hr h).bind fun arguments s' h => call _ _ _ h
  · next hk => exact template (by simp [hk])
  · next hk => exact template (by simp [hk])
  · exact .pure h

theorem tail_known {start : Nat} {allowCalls : Bool} {e : Tree}
    (h : Known cs (e.Suits · (c.place.tighter 12)) s) :
    Ensures (tail rules start allowCalls e) c s fun t s' =>
      Known cs (t.Suits · (c.place.tighter 12)) s' :=
  repeating_spec (I := fun (t : Tree) s' => Known cs (t.Suits · (c.place.tighter 12)) s')
    (fun _ _ h => tailStep_known hr h) h

theorem newExpression_brings : Brings cs (c.place.tighter 12) (newExpression rules) c := by
  intro s hs
  refine .step here_eq ((Known.stable.expectWord (.of hs)).bind fun _ s' h => ?_)
  refine .step isPunct_eq (.ite (fun _ => .fail_bind) fun _ => .step here_eq (.step isWord_eq ?_))
  refine .branch (P := fun t s' => Known cs (t.Suits · (c.place.tighter 12)) s') (fun _ => ?_)
    (fun _ => primary_brings hr _ h.ready) fun callee s' h => ?_
  · exact Brings.nested (hr.new _) _ h.ready
  refine (tail_known hr h).bind fun callee s' h => .step isPunct_eq ?_
  refine .branch (P := fun ts s' => Known cs (fun ks => callee.Suits ks (c.place.tighter 12) ∧
      ∀ t ∈ ts, Tree.Suits ks (c.place.enclosed.withSlot .item) t) s')
    (fun _ => argumentList_known hr h) (fun _ => .pure (h.mono fun _ h => ⟨h, by simp⟩))
    fun arguments s' h => h.finish rfl nofun fun ks ⟨hcallee, harguments⟩ => ⟨?_, ?_⟩
  · exact hcallee.weaken (Place.Milder.tighter c.place (Nat.zero_le 12))
  · exact Tree.allSuit_of_mem harguments fun j _ => Place.into_new _ callee arguments j

theorem leftHandSide_brings : Brings cs (c.place.tighter 12) (leftHandSide rules) c := by
  intro s hs
  refine .step here_eq (.step isWord_eq ?_)
  exact .branch (P := fun t s' => Known cs (t.Suits · (c.place.tighter 12)) s')
    (fun _ => newExpression_brings hr s hs) (fun _ => primary_brings hr s hs)
    fun e s' h => tail_known hr h

/-! ## Operators -/

omit hr in
/-- What an increment is for. -/
theorem suits_operand {ks : List Lexeme} {e : Tree} (h : e.Suits ks (c.place.tighter 12))
    (he : e.isSimpleTarget = true) : e.Suits ks (c.place.withSlot .simple) :=
  Tree.suits_simple (h.weaken (Place.Milder.tighter c.place (Nat.zero_le 12))) rfl he

theorem postfixed_brings : Brings cs (c.place.tighter 12) (postfixed rules) c := by
  intro s hs
  refine .step here_eq ((leftHandSide_brings hr s hs).bind fun e s' h => .step kind_eq ?_)
  refine .step afterLineBreak_eq (.ite (fun hmark => .ite (fun _ => .fail_bind) fun he => ?_) ?_)
  · have hk : s'.kind ≠ .endOfFile := by
      intro hk
      simp [hk] at hmark
    have he : e.isSimpleTarget = true := by simpa using he
    exact .step next_eq ((Known.stable.advance h hk).finish rfl nofun
      fun ks h => ⟨suits_operand h he, trivial⟩)
  · exact fun _ => .pure h

theorem unary_brings : Brings cs (c.place.tighter 12) (unary rules) c := by
  intro s hs
  refine .step here_eq (.step kind_eq ?_)
  have operand (hk : s.kind ≠ .endOfFile) : Ensures (nested (rules .unary)) c s.advance
      fun t s' => Known cs (t.Suits · (c.place.tighter 12)) s' :=
    Brings.nested (hr.unary _) _ (hs.advance hk)
  have hloose {ks : List Lexeme} {t : Tree} (h : t.Suits ks (c.place.tighter 12)) :
      t.Suits ks c.place := h.weaken (Place.Milder.tighter c.place (Nat.zero_le 12))
  have operator (k : Kind) (hk : s.kind ≠ .endOfFile) :
      Ensures (signed rules s.here k) c s fun t s' => Known cs (t.Suits · (c.place.tighter 12)) s' :=
    .step next_eq ((operand hk).bind fun t s' h =>
      h.finish rfl nofun fun ks h => ⟨hloose h, trivial⟩)
  have update (k : Kind) (hk : s.kind ≠ .endOfFile) :
      Ensures (prefixUpdate rules s.here k) c s fun t s' =>
        Known cs (t.Suits · (c.place.tighter 12)) s' := by
    refine .step next_eq ((operand hk).bind fun t s' h => .ite (fun _ => .throw_bind) fun he => ?_)
    have he : t.isSimpleTarget = true := by simpa using he
    exact h.finish rfl nofun fun ks h => ⟨suits_operand h he, trivial⟩
  split
  · next hk => exact operator _ (by simp [hk])
  · next hk => exact operator _ (by simp [hk])
  · next hk => exact operator _ (by simp [hk])
  · next hk => exact operator _ (by simp [hk])
  · next hk => exact operator _ (by simp [hk])
  · next hk => exact operator _ (by simp [hk])
  · next hk => exact operator _ (by simp [hk])
  · next hk => exact update _ (by simp [hk])
  · next hk => exact update _ (by simp [hk])
  · next hk =>
    refine .step read_eq (.ite (fun hasync => ?_) fun _ => postfixed_brings hr s hs)
    refine .step next_eq ((operand (by simp [hk])).bind fun t s' h => ?_)
    exact h.finish (Bool.and_eq_true_iff.2 ⟨rfl, hasync⟩) nofun fun ks h => ⟨hloose h, trivial⟩
  · exact postfixed_brings hr s hs

/-- The tree read so far is what the next operator takes for its left operand, if it binds tighter
than `above`. -/
structure Climbed (cs : List Char) (c : Context) (above : Nat) (s₀ : Track) (t : Tree)
    (s : Track) : Prop where
  known : Known cs (t.Suits · (c.place.tighter above)) s
  left : above < s.kind.precedence (!c.noIn) →
    Known cs (t.Suits · (c.place.tighter s.kind.leftAbove)) s
  start : t.start = s₀.here
  stop : t.stop = s.prevStop
  lt : s₀.here < s.prevStop

omit hr in
/-- A tree that is no binary one. -/
theorem Climbed.first (h : Known cs (t.Suits · (c.place.tighter 12)) s) (hle : above ≤ 12)
    (hstart : t.start = s₀.here) (hstop : t.stop = s.prevStop) (hlt : s₀.here < s.prevStop) :
    Climbed cs c above s₀ t s where
  known := h.mono fun _ h => h.weaken (Place.Milder.tighter c.place hle)
  left _ := h.mono fun _ h => h.weaken (Place.Milder.tighter c.place s.kind.leftAbove_le)
  start := hstart
  stop := hstop
  lt := hlt

omit hr in
/-- An operator is the one token between its operands. -/
theorem joined_of_leads {s' : Track} {ks : List Lexeme} {left right : Tree} (hs : s.Ready cs)
    (hk : s.kind ≠ .endOfFile) (hleft : left.start < left.stop) (hstop : left.stop = s.prevStop)
    (hleads : s.advance.Leads s') (hlt : s.advance.here < s'.prevStop)
    (hstart : right.start = s.advance.here) (hstop' : right.stop = s'.prevStop)
    (hks : s'.past <+: ks) :
    Joined ks s.kind left.start left.stop right.start right.stop := by
  refine ⟨hleft, by rw [hstart, hstop']; exact hlt, ?_⟩
  obtain ⟨more, rfl⟩ := hks
  rcases hleads.further with ⟨-, hprev, -⟩ | ⟨k, rest, hpast, hfirst⟩
  · have := (hs.advance hk).prevStop
    omega
  · refine ⟨s.past, s.lexer.lexeme, k, rest ++ more, ?_, rfl, ?_, ?_, hfirst.trans hstart.symm⟩
    · rw [hpast, Track.advance, List.append_assoc, List.append_assoc]
      rfl
    · exact fun x hx => hstop ▸ hs.settled x hx
    · exact hstop ▸ hs.prevStop

/-- One more operator with its right operand. -/
theorem Climbed.step (h : Climbed cs c above s₀ t s)
    (hbinds : above < s.kind.precedence (!c.noIn)) :
    Ensures (do
      next
      let right ← rules (.binary (if s.kind = .punct .starStar
        then s.kind.precedence (!c.noIn) - 1 else s.kind.precedence (!c.noIn)))
      some <$> finish s₀.here (.binary s.kind t right)) c s fun o s' =>
        ∃ u, o = some u ∧ Climbed cs c above s₀ u s' := by
  have hpos : 0 < s.kind.precedence (!c.noIn) := Nat.lt_of_le_of_lt (Nat.zero_le above) hbinds
  have hk : s.kind ≠ .endOfFile := by
    intro hk
    rw [hk] at hpos
    exact absurd hpos (Nat.lt_irrefl 0)
  rw [← Kind.rightAbove_eq hpos]
  have hleft := Known.stable.advance (h.left hbinds) hk
  have hright := (hr.binary c s.kind.rightAbove_le s.advance hleft.ready).and
    ((hr.sound.binary c s.kind.rightAbove).ranged hleft.ready)
  refine .step next_eq (hright.leads.bind
    fun right s' ⟨hleads, ⟨hknown, hexit⟩, hstart, hstop, hlt⟩ => ?_)
  have hlt₀ : s₀.here < s'.prevStop := by
    have := (hleft.ready).prevStop
    have := Track.prevStop_le_advance h.known.ready
    have := h.lt
    omega
  -- The new tree suits every place where the operator is tight enough.
  have hall : Known cs (fun ks => ∀ b < s.kind.precedence (!c.noIn),
      (Tree.ofForm s₀.here (max s'.prevStop s₀.here) (.binary s.kind t right)).Suits ks
        (c.place.tighter b)) s' := by
    refine ⟨hknown.ready, fun ks hks b hb => Tree.suits_ofForm.2 ⟨?_, ?_, ?_, ?_, trivial⟩⟩
    · exact Bool.and_eq_true_iff.2 ⟨rfl, decide_eq_true hb⟩
    · rintro op i j l r hform hts
      obtain ⟨rfl, -, -⟩ := Form.binary.inj hform
      cases hts
      refine ⟨h.start, ?_, joined_of_leads h.known.ready hk ?_ h.stop hleads hlt hstart hstop hks⟩
      · rw [hstop, Nat.max_eq_left (Nat.le_of_lt hlt₀)]
      · rw [h.start, h.stop]
        exact h.lt
    · exact hleft.known ks (hleads.grows.trans hks)
    · exact hknown.known ks hks
  refine .map (.done finish_eq
    ⟨_, rfl, hall.mono fun _ hall => hall _ hbinds, fun hnext => ?_, rfl, ?_, hlt₀⟩)
  · refine hall.mono fun _ hall => hall _ (Kind.leftAbove_lt hpos ?_ hexit)
    exact Nat.lt_of_le_of_lt (Nat.zero_le above) hnext
  · exact Nat.max_eq_left (Nat.le_of_lt hlt₀)

theorem binary_known (hs : s.Ready cs) (hle : above ≤ 12) : Ensures (binary rules above) c s
    fun t s' => Known cs (t.Suits · (c.place.tighter above)) s' ∧
      s'.kind.precedence (!c.noIn) ≤ above := by
  have hfirst := (unary_brings (c := c) hr s hs).and ((unary_reads hr.sound).ranged hs)
  refine .step here_eq (hfirst.bind fun first s' ⟨h, hstart, hstop, hlt⟩ => .step read_eq ?_)
  refine (iterate_until (I := Climbed cs c above s)
    (Q := fun s' => s'.kind.precedence (!c.noIn) ≤ above) (fun left s' h => ?_) _
    (.first h hle hstart hstop hlt)).mono fun t s' ⟨h, hexit⟩ => ⟨h.known, hexit⟩
  refine .step kind_eq (.step read_eq (.ite (fun hloose => ?_) fun hbinds => ?_))
  · exact .pure ⟨h, fun _ => hloose⟩
  · refine (h.step hr (Nat.lt_of_not_le hbinds)).mono ?_
    rintro _ s' ⟨u, rfl, h⟩
    exact ⟨h, nofun⟩

theorem conditional_brings : Brings cs c.place (conditional rules) c := by
  intro s hs
  refine .step here_eq ((binary_known hr hs (Nat.zero_le 12)).bind fun test s' ⟨h, _⟩ => ?_)
  refine (Known.stable.acceptPunct h).bind fun b s' h => .ite (fun _ => ?_) fun _ => .pure h
  have hconsequent : Brings cs c.place.enclosed (withIn (rules .assignment)) c := hr.assignment _
  refine (h.read hconsequent).bind fun consequent s' h => ?_
  refine (Known.stable.expectPunct h).bind fun _ s' h => ?_
  refine (h.read (hr.assignment c)).bind fun alternate s' h => ?_
  exact h.finish rfl nofun fun ks ⟨⟨ht, hc⟩, ha⟩ => ⟨ht, hc, ha, trivial⟩

theorem yieldExpression_brings (hs : s.Ready cs) (hk : s.kind ≠ .endOfFile)
    (hgenerator : c.generator = true) :
    Ensures (yieldExpression rules) c s fun t s' => Known cs (t.Suits · c.place) s' := by
  have hadmits (argument : Option Tree) (delegate : Bool) :
      c.place.admits (.yield argument delegate) = true := Bool.and_eq_true_iff.2 ⟨rfl, hgenerator⟩
  have h := Known.of (hs.advance hk)
  refine .step here_eq (.step next_eq (.step afterLineBreak_eq (.ite (fun _ => ?_) fun _ => ?_)))
  · exact h.leaf (hadmits _ _) rfl
  refine (Known.stable.acceptPunct h).bind fun delegate s' h => startsExpression_spec.bind ?_
  rintro starts s'' rfl
  refine .branch (P := fun o s' => Known cs (fun ks => ∀ t ∈ Option.toList o, t.Suits ks c.place) s')
    (fun _ => ?_) (fun _ => .pure (h.mono fun _ _ => by simp)) fun argument s' h => ?_
  · exact .map ((hr.assignment c _ h.ready).mono fun t s' h => h.mono fun _ h => by simpa using h)
  · exact h.finish (hadmits _ _) nofun fun ks hargument =>
      Tree.allSuit_of_mem hargument fun _ _ => rfl

theorem assignment_brings : Brings cs c.place (assignment rules) c := by
  intro s hs
  refine startsArrow_spec.bind fun b s' hsame => .ite (fun _ => ?_) fun _ => ?_
  · exact (arrowFunction_brings hr).after hs hsame
  have hs := hsame.ready hs
  refine .step isWord_eq (.step read_eq (.ite (fun hyield => ?_) fun _ => ?_))
  · simp only [Bool.and_eq_true, decide_eq_true_eq] at hyield
    exact yieldExpression_brings hr hs (by simp [hyield.1]) hyield.2
  refine .step here_eq ((conditional_brings hr s' hs).bind fun left s'' h => ?_)
  refine .step kind_eq (.ite (fun _ => .pure h) fun hassigns => ?_)
  have hk : s''.kind ≠ .endOfFile := by
    intro hk
    rw [hk] at hassigns
    exact hassigns rfl
  extract_lets rest
  have hrest : ∀ left, Known cs (left.Suits · (c.place.withSlot
      (if s''.kind = .punct .equals then .target else .simple))) s'' →
      Ensures (rest left) c s'' fun t s' => Known cs (t.Suits · c.place) s' := by
    intro left h
    refine .step next_eq (((Known.stable.advance h hk).read (hr.assignment c)).bind fun t s' h => ?_)
    exact h.finish rfl nofun fun ks ⟨hleft, hright⟩ => ⟨hleft, hright, trivial⟩
  clear_value rest
  refine .ite (fun hequals => (target_known h).bind ?_) fun hequals => .ite (fun hsimple => ?_)
    fun _ => .fail_bind
  · rintro u t ⟨rfl, hu⟩
    exact hrest u (by rwa [if_pos hequals])
  · refine .step pure_eq (hrest left ?_)
    rw [if_neg hequals]
    exact h.mono fun _ h => Tree.suits_simple h rfl hsimple

end Placing

end LoopClosure.Grammar
