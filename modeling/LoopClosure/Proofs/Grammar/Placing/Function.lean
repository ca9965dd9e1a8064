import LoopClosure.Proofs.Grammar.Placing.Known

/-!
# Names, patterns, functions and classes in their places

What a function reads depends on its own traits: parameters and body stand in the place `inside` its
traits, whatever is around the function (`Tree.allSuit_function`). Its name stands outside.
-/

namespace LoopClosure.Grammar

open Syntax Token

variable {cs : List Char} {F : List Lexeme → Prop} {c : Context} {s : Track} {q : Place}
  {rules : Rules} {traits : FunctionTraits} {above : Nat}

/-! ## Names and patterns -/

/-- The readers of nonterminals bring trees for the places of their contexts. Behind a tree of
binary operators there is none that would bind tighter than asked for. -/
structure Placing (cs : List Char) (rules : Rules) : Prop where
  sound : Sound cs rules
  statement (c : Context) : Brings cs c.place (rules .statement) c
  assignment (c : Context) : Brings cs c.place (rules .assignment) c
  unary (c : Context) : Brings cs (c.place.tighter 12) (rules .unary) c
  binary (c : Context) {above : Nat} (hle : above ≤ 12) (s : Track) (hs : s.Ready cs) :
    Ensures (rules (.binary above)) c s fun t s' =>
      Known cs (t.Suits · (c.place.tighter above)) s' ∧ s'.kind.precedence (!c.noIn) ≤ above
  leftHandSide (c : Context) : Brings cs (c.place.tighter 12) (rules .leftHandSide) c
  new (c : Context) : Brings cs (c.place.tighter 12) (rules .new) c
  bindingTarget (c : Context) : Brings cs (c.place.withSlot .target) (rules .bindingTarget) c

theorem literal_brings {kind : LiteralKind} {q : Place} (hs : s.Ready cs) (hk : s.kind ≠ .endOfFile)
    (hq : ∀ raw, q.admits (.literal kind raw : Form Tree) = true) :
    Ensures (literal kind) c s fun t s' => Known cs (t.Suits · q) s' :=
  .step here_eq <| .step lexer_eq <| .step next_eq <|
    (Known.of (hs.advance hk)).leaf (hq _) rfl

section Placing

variable (hr : Placing cs rules)
include hr

theorem expression_brings : Brings cs c.place (expression rules) c := by
  intro s hs
  refine .step here_eq ((hr.assignment c s hs).bind fun first s' h => .step isPunct_eq ?_)
  refine .ite (fun _ => .pure h) fun _ => ?_
  refine (h.readAll (hr.assignment c).others).bind fun others s' h => ?_
  refine h.finish rfl nofun fun ks ⟨hfirst, hothers⟩ => ⟨hfirst, ?_⟩
  exact Tree.allSuit_of_mem hothers fun _ _ => rfl

/-- The name of a property: one that is an identifier and not computed is that of the token. -/
theorem propertyName_brings (hs : s.Ready cs) : Ensures (propertyName rules) c s fun r s' =>
    Known cs (r.1.Suits · (c.place.enclosed.withSlot (if r.2 then .plain else .key))) s' ∧
      (s.kind.isName = true → r.2 = false → Names s.lexer.value r.1) := by
  refine .step kind_eq ?_
  have hliteral (kind : LiteralKind) (hk : s.kind ≠ .endOfFile) (hname : s.kind.isName = false) :
      Ensures (literal kind >>= fun key => pure (key, false)) c s fun r s' =>
        Known cs (r.1.Suits · (c.place.enclosed.withSlot (if r.2 then .plain else .key)))
          s' ∧ (s.kind.isName = true → r.2 = false → Names s.lexer.value r.1) := by
    refine (literal_brings (q := c.place.enclosed.withSlot .key) hs hk fun _ => rfl).bind
      fun key s' h => .pure ⟨h, fun hn => ?_⟩
    rw [hname] at hn
    cases hn
  split
  · next hk => exact hliteral .string (by simp [hk]) (by rw [hk]; rfl)
  · next hk => exact hliteral .number (by simp [hk]) (by rw [hk]; rfl)
  · next hk =>
    refine .step next_eq ?_
    have h := Known.of (hs.advance (by simp [hk]))
    refine (h.read (hr.assignment _).withIn).bind fun key s' h => ?_
    refine (Known.stable.expectPunct h).bind fun _ s' h => .pure ⟨h.mono fun _ h => h.2, ?_⟩
    exact fun _ h => nomatch h
  · refine .ite (fun _ => ?_) fun _ => .fail
    refine (identifierName_names hs).bind fun key s' ⟨hready, hnames⟩ => .pure ⟨?_, fun _ _ => hnames⟩
    exact (Known.of hready).mono fun _ _ => hnames.suits rfl

/-! ### Patterns -/

theorem bindingElement_brings :
    Brings cs (c.place.enclosed.withSlot .part) (bindingElement rules) c := by
  intro s hs
  have htarget : Brings cs (c.place.enclosed.withSlot .target) (rules .bindingTarget) c :=
    (hr.bindingTarget c).weaken (.enclosed _)
  refine .step here_eq (((Known.of hs).read htarget).bind fun target s' h => ?_)
  refine (Known.stable.acceptPunct h).bind fun b s' h => .ite (fun _ => ?_) fun _ => ?_
  · refine (h.read (hr.assignment _).withIn).bind fun v s' h => ?_
    exact h.finish rfl nofun fun ks ⟨⟨_, htarget⟩, hv⟩ => ⟨htarget, hv, trivial⟩
  · exact .pure (h.mono fun _ h => h.2.weaken (.withSlot _ .target_part))

theorem restElement_brings {slot : Slot} (hslot : ∀ t : Tree, slot.takes (.rest t) = true) :
    Brings cs (c.place.enclosed.withSlot slot) (restElement rules) c := by
  intro s hs
  have htarget : Brings cs (c.place.enclosed.withSlot .target) (rules .bindingTarget) c :=
    (hr.bindingTarget c).weaken (.enclosed _)
  refine .step here_eq (expect_spec.bind fun _ s' h => ?_)
  obtain ⟨hk, rfl⟩ := h
  have h := Known.of (hs.advance (by simp [hk]))
  refine (h.read htarget).bind fun argument s' h => ?_
  refine h.finish ?_ nofun fun ks ⟨_, hargument⟩ => ⟨hargument, trivial⟩
  exact Bool.and_eq_true_iff.2 ⟨hslot argument, rfl⟩

theorem bindingOrRest_brings :
    Brings cs (c.place.enclosed.withSlot .element) (bindingOrRest rules) c := by
  intro s hs
  refine .step isPunct_eq (.ite (fun _ => ?_) fun _ => ?_)
  · exact restElement_brings hr (fun _ => rfl) s hs
  · exact (bindingElement_brings hr).weaken (.withSlot _ .part_element) s hs

theorem bindingProperty_brings :
    Brings cs (c.place.enclosed.withSlot .field) (bindingProperty rules) c := by
  intro s hs
  refine .step here_eq ((isIdentifier_allows hs).bind fun mayBeShort s' h => ?_)
  obtain ⟨rfl, hshort⟩ := h
  refine (propertyName_brings hr hs).bind ?_
  rintro ⟨key, computed⟩ s'' ⟨h, hnames⟩
  refine (Known.stable.acceptPunct h).bind fun b s'' h => .ite (fun _ => ?_) fun _ => ?_
  · refine (h.read (bindingElement_brings hr)).bind fun value s'' h => ?_
    refine h.finish rfl nofun fun ks ⟨hkey, hvalue⟩ => ⟨?_, hvalue, trivial⟩
    cases computed <;> exact hkey
  refine .ite (fun _ => .fail) fun hplain => ?_
  simp only [Bool.or_eq_true, Bool.not_eq_true', not_or, Bool.not_eq_false, Bool.not_eq_true]
    at hplain
  obtain ⟨hshort', rfl⟩ := hplain
  obtain ⟨hname, hallows⟩ := hshort hshort'
  have hnames := hnames hname rfl
  refine (Known.stable.acceptPunct h).bind fun b s'' h => .ite (fun _ => ?_) fun _ => ?_
  · refine (h.read (hr.assignment _).withIn).bind fun v s'' h => ?_
    have hdefault : Ensures (finish s'.here (.assignmentPattern key v)) c s'' fun t s' =>
        Known cs (t.Suits · (c.place.enclosed.withSlot .part)) s' :=
      h.finish rfl nofun fun ks ⟨_, hv⟩ => ⟨hnames.suits hallows, hv, trivial⟩
    refine (h.also hdefault).bind fun value s'' h => ?_
    exact h.finish rfl nofun fun ks ⟨⟨hkey, _⟩, hvalue⟩ => ⟨hkey, hvalue, trivial⟩
  · exact h.finish rfl nofun fun ks hkey => ⟨hkey, hnames.suits hallows, trivial⟩

theorem bindingTarget_brings :
    Brings cs (c.place.withSlot .target) (bindingTarget rules) c := by
  intro s hs
  refine .step here_eq (.step kind_eq ?_)
  split
  · next hk =>
    have hready := hs.advance (by simp [hk])
    refine .step next_eq (((bindingOrRest_brings hr).arrayElements hready).bind fun es s' h => ?_)
    exact h.finish rfl nofun fun ks hes => Tree.allSuit_of_mem hes fun _ _ => rfl
  · next hk =>
    have h := Known.of (hs.advance (by simp [hk]))
    have hproperty : Brings cs (c.place.enclosed.withSlot .field) (patternItem rules) c := by
      intro s hs
      refine .step isPunct_eq (.ite (fun _ => ?_) fun _ => ?_)
      · exact restElement_brings hr (fun _ => rfl) s hs
      · exact bindingProperty_brings hr s hs
    refine .step next_eq ((h.readAll hproperty.commaList).bind fun ts s' h => ?_)
    exact h.finish rfl nofun fun ks ⟨_, hts⟩ => Tree.allSuit_of_mem hts fun _ _ => rfl
  · exact identifier_brings (q := c.place.withSlot .target) (fun _ h => h) s hs

end Placing

/-! ## Functions and classes -/

/-- Where the body of a function stands. -/
def inside (traits : FunctionTraits) : Place where
  generator := traits.isGenerator
  async := traits.isAsync

/-- The parameters of a function and its body stand inside, the name outside. -/
theorem Tree.allSuit_function {ks : List Lexeme} {place : FunctionPlace} {name : Option Tree}
    {params : List Tree} {body : Tree}
    (hname : ∀ t ∈ name.toList, t.Suits ks ((q.tighter 0).withSlot .name))
    (hparams : ∀ t ∈ params,
      t.Suits ks ((inside traits).withSlot (if place = .arrow then .param else .element)))
    (hbody : body.Suits ks { inside traits with noIn := traits.concise && q.noIn }) :
    Tree.AllSuit ks (q.into (.function place name params body traits)) 0
      (Form.function place name params body traits).children := by
  have hcount : name.toList.length = Form.count name := by cases name <;> rfl
  refine Tree.allSuit_append.2 ⟨Tree.allSuit_append.2 ⟨?_, ?_⟩, ?_, trivial⟩
  · refine Tree.allSuit_of_mem hname fun j hj => ?_
    rw [hcount] at hj
    simp [Place.into, Form.encloses, Form.startsLoop, Form.owner?, Form.above, Slot.into, hj,
      Nat.not_le.2 hj, Place.withSlot, Place.tighter]
  · refine Tree.allSuit_of_mem hparams fun j hj => ?_
    have hname : ¬Form.count name + j < Form.count name := by omega
    simp [Place.into, Form.encloses, Form.startsLoop, Form.owner?, Form.above, Slot.into, hj,
      hname, hcount, Place.withSlot, inside]
  · have hname : ¬Form.count name + params.length < Form.count name := by omega
    have hplace : q.into (.function place name params body traits)
        (0 + (name.toList ++ params).length) =
          { inside traits with noIn := traits.concise && q.noIn } := by
      simp [Place.into, Form.encloses, Form.startsLoop, Form.owner?, Form.above, Slot.into, hname,
        hcount, inside]
    exact hplace ▸ hbody

/-- The name of a function or a class, which may be missing unless it is `needed`. -/
theorem Known.name {α : Type} {needed : Prop} [Decidable needed] {g : Option Tree → Parse α}
    {Q : α → Track → Prop} (h : Known cs F s)
    (hg : ∀ o s', Known cs (fun ks => F ks ∧ ∀ t ∈ Option.toList o,
      t.Suits ks (c.place.withSlot .name)) s' → Ensures (g o) c s' Q) :
    Ensures (isIdentifier >>= fun b =>
      if b = true then (some <$> identifier) >>= g
      else if needed then fail .identifierExpected >>= g else pure none >>= g) c s Q := by
  refine isIdentifier_spec.bind fun b s' hs => ?_
  obtain ⟨rfl, -⟩ := hs
  refine .ite (fun _ => ?_) fun _ => .ite (fun _ => .fail_bind) fun _ => ?_
  · have hname : Brings cs (c.place.withSlot .name) identifier c := identifier_brings fun _ h => h
    refine (Ensures.map ((h.read hname).mono fun t s' h => ?_)).bind hg
    exact h.mono fun ks h => ⟨h.1, by simpa using h.2⟩
  · exact .step pure_eq (hg _ _ (h.mono fun _ h => ⟨h, by simp⟩))

section Placing

variable (hr : Placing cs rules)
include hr

theorem block_brings : Brings cs c.place (block rules) c := by
  intro s hs
  refine .step here_eq (expect_spec.bind fun _ s' h => ?_)
  obtain ⟨hk, rfl⟩ := h
  have hstatement := (hr.statement c).weaken (.enclosed _)
  refine (collect_until (I := fun (ts : List Tree) s' =>
    Known cs (fun ks => ∀ t ∈ ts, t.Suits ks c.place.enclosed) s')
    (Q := fun s' => s'.kind = .punct .closeBrace) ?_ ?_).bind fun ts s' ⟨h, hclose⟩ => ?_
  · intro ts s h
    refine .step isPunct_eq (.ite (fun hclose => ?_) fun _ => ?_)
    · exact .pure ⟨by simpa using h, fun _ => of_decide_eq_true hclose⟩
    refine .step isEnd_eq (.ite (fun _ => .fail_bind) fun _ => ?_)
    refine (h.read hstatement).bind fun t s' h => .pure ⟨h.mono fun ks hall => ?_, nofun⟩
    simpa [or_imp, forall_and] using hall
  · exact (Known.of (hs.advance (by simp [hk]))).mono fun _ _ _ ht => absurd ht List.not_mem_nil
  · refine .step next_eq ((Known.stable.advance h (by simp [hclose])).finish rfl nofun fun ks hts => ?_)
    exact Tree.allSuit_of_mem hts fun _ _ => rfl

theorem parameterList_brings :
    BringsAll cs (c.place.enclosed.withSlot .element) (parameterList rules) c := by
  intro s hs
  refine expect_spec.bind fun _ s' h => ?_
  obtain ⟨hk, rfl⟩ := h
  exact (bindingOrRest_brings hr).commaList _ (hs.advance (by simp [hk]))

theorem parametersAndBody_brings (hs : s.Ready cs) :
    Ensures (parametersAndBody rules traits) c s fun r s' => Known cs (fun ks =>
      (∀ t ∈ r.1, t.Suits ks ((inside traits).withSlot .element)) ∧
        r.2.Suits ks (inside traits)) s' := by
  refine .withIn (.inFunction ((parameterList_brings hr s hs).bind fun params s' h => ?_))
  exact (h.read (block_brings hr)).bind fun body s' h => .pure h

theorem function_brings {place : FunctionPlace} (hplace : place ≠ .arrow) :
    Brings cs (c.place.tighter above) (function rules place) c := by
  intro s hs
  refine .step here_eq ((Known.stable.acceptWord (.of hs)).bind fun isAsync s' h => ?_)
  refine (Known.stable.expectWord h).bind fun _ s' h => ?_
  refine (Known.stable.acceptPunct h).bind fun isGenerator s' h => h.name fun name s' h => ?_
  refine (h.also (parametersAndBody_brings hr h.ready)).bind fun r s' h => ?_
  have hadmits : (c.place.tighter above).admits (Form.function place name r.1 r.2
      { isAsync, isGenerator }) = true :=
    Bool.and_eq_true_iff.2 ⟨rfl, Bool.or_eq_true_iff.2 (.inl (decide_eq_true hplace))⟩
  refine h.finish hadmits nofun fun ks ⟨⟨_, hname⟩, hparams, hbody⟩ => ?_
  refine Tree.allSuit_function hname ?_ hbody
  rwa [if_neg hplace]

/-- A method has a function without a name for its value. -/
theorem methodFunction_brings (hq : q.slot = .plain) (hconcise : traits.concise = false) :
    Brings cs q (methodFunction rules traits) c := by
  intro s hs
  refine .step here_eq ((parametersAndBody_brings hr hs).bind fun r s' h => ?_)
  refine h.finish ?_ nofun fun ks ⟨hparams, hbody⟩ => ?_
  · exact Bool.and_eq_true_iff.2 ⟨by rw [hq]; rfl, rfl⟩
  · refine Tree.allSuit_function (by simp) hparams ?_
    rw [hconcise]
    exact hbody

theorem arrowFunction_brings : Brings cs c.place (arrowFunction rules) c := by
  intro s hs
  refine .step here_eq (.step isWord_eq ?_)
  refine .branch (P := fun isAsync s' => s'.Ready cs ∧ (isAsync = true → s'.kind ≠ .endOfFile))
    (fun hword => ?_) (fun _ => .pure ⟨hs, nofun⟩) fun isAsync s' ⟨hs, hk⟩ => ?_
  · refine lookAhead_spec.mono fun _ s' hsame => ⟨hsame.ready hs, fun _ => ?_⟩
    have hk : s'.kind = .word .kAsync := hsame.kind.trans (of_decide_eq_true hword)
    simp [hk]
  refine .detour (R := fun s => s.Ready cs) (fun hasync => .done next_eq (hs.advance (hk hasync)))
    (fun _ => hs) fun _ s' hs => .step isPunct_eq ?_
  extract_lets rest
  have hrest : ∀ params s', Known cs (fun ks => ∀ t ∈ params,
      Tree.Suits ks ((inside { isAsync }).withSlot .param) t) s' →
      Ensures (rest params) c s' fun t s' => Known cs (t.Suits · c.place) s' := by
    intro params s' h
    refine .step afterLineBreak_eq (.ite (fun _ => .fail_bind) fun _ => ?_)
    refine (Known.stable.expectPunct h).bind fun _ s' h => .step isPunct_eq ?_
    generalize hconcise : (!decide (s'.kind = .punct .openBrace)) = concise
    have hbody : Brings cs { inside { isAsync } with noIn := concise && c.noIn }
        (inFunction { isAsync } (if concise = true then rules .assignment
          else withIn (block rules))) c := by
      cases concise with
      | true => exact hr.assignment _
      | false => exact block_brings hr (c := { c with noIn := false, async := isAsync, generator := false })
    refine (h.read hbody).bind fun body s' h => ?_
    exact h.finish rfl nofun fun ks ⟨hparams, hbody⟩ =>
      Tree.allSuit_function (by simp) hparams hbody
  refine .ite (fun _ => ?_) fun _ => ?_
  · refine (Ensures.withIn (.inFunction (parameterList_brings hr s' hs))).bind fun params s' h => ?_
    exact hrest params s' (h.mono fun ks h t ht => (h t ht).weaken (.withSlot _ .element_param))
  · have hparam : Brings cs ((inside { isAsync }).withSlot .param) identifier c :=
      identifier_brings fun _ _ => rfl
    refine (hparam s' hs).bind fun param s' h => .step pure_eq ?_
    exact hrest [param] s' (h.mono fun ks h => by simpa using h)

theorem classMember_brings : Brings cs c.place.enclosed (classMember rules) c := by
  intro s hs
  refine .step here_eq ((acceptModifier_spec (.of hs)).bind fun isStatic s' h => ?_)
  refine (acceptModifier_spec h).bind fun isAsync s' h => ?_
  refine (From.stable.acceptPunct h).bind fun isGenerator s' h => ?_
  refine .branch (P := fun _ s' => From cs s.mark s') (fun _ => .pure h)
    (fun _ => accessorRole_spec h) fun role s' h => (propertyName_brings hr h.ready).bind ?_
  rintro ⟨key, computed⟩ s' ⟨h, -⟩
  refine .step isPunct_eq (.ite (fun _ => ?_) fun _ => .ite (fun _ => .fail_bind) fun _ => ?_)
  · refine methodRole_spec.bind fun role s'' hsame => ?_
    subst hsame
    refine (h.read (methodFunction_brings (q := c.place.enclosed) hr rfl rfl)).bind fun value s' h => ?_
    refine h.finish rfl nofun fun ks ⟨hkey, hvalue⟩ => ⟨?_, hvalue, trivial⟩
    cases computed <;> exact hkey
  · refine Known.optional (Known.stable.acceptPunct h) (hr.assignment _).withIn
      fun value s' h => ?_
    refine (Known.stable.semicolon h).bind fun _ s' h => ?_
    refine h.finish rfl nofun fun ks ⟨hkey, hvalue⟩ => Tree.allSuit_append.2 ⟨⟨?_, trivial⟩, ?_⟩
    · cases computed <;> exact hkey
    · refine Tree.allSuit_of_mem hvalue fun j _ => ?_
      simp [Place.into, Form.encloses, Form.startsLoop, Form.owner?, Form.above, Slot.into,
        Place.enclosed, Context.place]

/-- The members of a class, between its braces. -/
theorem classMembers_known (h : Known cs F s) :
    Ensures (collect (classItem rules)) c s fun ms s' =>
        Known cs (fun ks => F ks ∧ ∀ t ∈ ms.filterMap id, t.Suits ks c.place.enclosed) s' ∧
          s'.kind = .punct .closeBrace := by
  refine collect_until (I := fun (ms : List (Option Tree)) s' => Known cs (fun ks => F ks ∧
    ∀ t ∈ ms.filterMap id, t.Suits ks c.place.enclosed) s') (fun ms s h => ?_)
    (h.mono fun _ h => ⟨h, by simp⟩)
  refine .step isPunct_eq (.ite (fun hclose => ?_) fun _ => ?_)
  · exact .pure ⟨by simpa using h, fun _ => of_decide_eq_true hclose⟩
  refine (Known.stable.acceptPunct h).bind fun b s' h => .ite (fun _ => ?_) fun _ => ?_
  · exact .pure ⟨by simpa using h, nofun⟩
  refine .step isEnd_eq (.ite (fun _ => .fail_bind) fun _ => ?_)
  refine (h.read (classMember_brings hr)).bind fun t s' h => .pure ⟨h.mono fun ks hall => ?_, nofun⟩
  have hmembers := And.intro hall.1.2 hall.2
  exact ⟨hall.1.1, by simpa [or_imp, forall_and] using hmembers⟩

theorem classBody_brings {place : ClassPlace} :
    Brings cs (c.place.tighter above) (classBody rules place) c := by
  intro s hs
  refine .step here_eq ((Known.stable.expectWord (.of hs)).bind fun _ s' h => ?_)
  refine h.name fun name s' h => ?_
  refine Known.optional (Known.stable.acceptWord h)
    ((hr.leftHandSide c).weaken (.tighter _ (Nat.zero_le 12))) fun heritage s' h => ?_
  refine (Known.stable.expectPunct h).bind fun _ s' h => ?_
  refine (classMembers_known hr h).bind fun ms s' ⟨h, hclose⟩ => .step next_eq ?_
  refine (Known.stable.advance h (by simp [hclose])).finish rfl nofun
    fun ks ⟨⟨⟨_, hname⟩, hheritage⟩, hmembers⟩ => ?_
  have hlength (o : Option Tree) : o.toList.length = Form.count o := by cases o <;> rfl
  refine Tree.allSuit_append.2 ⟨Tree.allSuit_append.2 ⟨?_, ?_⟩, ?_⟩
  · refine Tree.allSuit_of_mem hname fun j hj => ?_
    rw [hlength] at hj
    have hfront : ¬Form.count name + Form.count heritage ≤ j := by omega
    simp [Place.into, Form.encloses, Form.startsLoop, Form.owner?, Form.above, Slot.into, hj,
      hfront, Place.withSlot, Place.tighter, Context.place]
  · refine Tree.allSuit_of_mem hheritage fun j hj => ?_
    rw [hlength] at hj
    have hname : ¬Form.count name + j < Form.count name := by omega
    simp [Place.into, Form.encloses, Form.startsLoop, Form.owner?, Form.above, Slot.into, hname,
      hlength, Nat.not_le.2 hj, Place.tighter, Context.place]
  · refine Tree.allSuit_of_mem hmembers fun j hj => ?_
    have hname : ¬Form.count name + Form.count heritage + j < Form.count name := by omega
    simp [Place.into, Form.encloses, Form.startsLoop, Form.owner?, Form.above, Slot.into, hname,
      hlength, Place.enclosed, Place.tighter, Context.place]

end Placing

end LoopClosure.Grammar
