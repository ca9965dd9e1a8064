import LoopClosure.Proofs.Grammar.Limits

/-!
# What the grammar reads fits into the limit on nesting

A grammar is `Counted` over another one if each of its readers reads as its counterpart does, or is
refused, and what it read fits into the levels that were left (`room`). Each rule of the grammar keeps
this, and it is the rule for statements and for assignments that takes a level (`rule_counted`).
-/

namespace LoopClosure.Grammar

open Syntax Token

variable {c : Context} {rules free : Rules}

/-- Levels of nesting that are left. -/
def room (c : Context) : Nat := maxNesting - c.nesting

/-- The readers of the nonterminals read as those of `free` do, and what they read fits into the
levels left; a level is taken where the reader itself is nested. -/
structure Counted (rules free : Rules) : Prop where
  statement : ∀ c, Limits (rules .statement) (free .statement) c (·.Within (room c) .value)
  assignment : ∀ c, Limits (rules .assignment) (free .assignment) c (·.Within (room c) .value)
  unary : ∀ c, Limits (rules .unary) (free .unary) c (·.Within (room c) .inline)
  binary : ∀ c above,
    Limits (rules (.binary above)) (free (.binary above)) c (·.Within (room c) .inline)
  leftHandSide : ∀ c, Limits (rules .leftHandSide) (free .leftHandSide) c (·.Within (room c) .inline)
  new : ∀ c, Limits (rules .new) (free .new) c fun t => t.form.isNew = true ∧ t.Within (room c) .inline
  bindingTarget : ∀ c, Limits (rules .bindingTarget) (free .bindingTarget) c
    fun t => t.form.isItem = false ∧ t.Within (room c) .target

/-- The name of a property, which may be computed; else nothing is in it. -/
structure Named (R : Nat) (t : Tree) (computed : Bool) : Prop where
  item : computed = false → t.form.isItem = false
  key : t.Within R (if computed then .value else .inline)
  plain : computed = false → ∀ w, w.isFree = true → t.Within R w

namespace Limits

/-- A reader at the next level of nesting. -/
theorem deeper {p q : Parse Tree} {P : Tree → Prop}
    (hp : ∀ c, Limits p q c fun t => P t ∧ t.Within (room c) .inline) :
    Limits (Grammar.nested p) (Grammar.nested q) c fun t => P t ∧ t.Within (room c) .value := by
  refine .nested fun hlt => (hp _).mono fun t ht => ⟨ht.1, ?_⟩
  have hroom : room c = room { c with nesting := c.nesting + 1 } + 1 := by
    unfold room
    dsimp only
    omega
  rw [hroom, Tree.within_value_succ]
  exact ht.2

theorem within_deeper {p q : Parse Tree} (hp : ∀ c, Limits p q c (·.Within (room c) .inline)) :
    Limits (Grammar.nested p) (Grammar.nested q) c (·.Within (room c) .value) :=
  (deeper (P := fun _ => True) fun c => (hp c).mono fun _ ht => ⟨trivial, ht⟩).mono fun _ ht => ht.2

theorem identifierName {P : Tree → Prop} (h : ∀ s e name, P (.ofForm s e (.identifier name))) :
    Limits identifierName identifierName c P :=
  .step .kind fun _ => .ite (fun _ => .fail_bind) fun _ => .step .here fun _ => .step .lexer fun l =>
    .step .next fun _ => .finish fun s e => h s e l.value

theorem identifier {P : Tree → Prop} (h : ∀ s e name, P (.ofForm s e (.identifier name))) :
    Limits identifier identifier c P :=
  .step .isIdentifier fun _ => .ite (fun _ => .fail_bind) fun _ => .identifierName h

theorem literal {P : Tree → Prop} {kind : LiteralKind}
    (h : ∀ s e raw, P (.ofForm s e (.literal kind raw))) :
    Limits (literal kind) (literal kind) c P :=
  .step .here fun _ => .step .lexer fun l => .step .next fun _ => .finish fun s e => h s e l.text

/-- The name of a function or a class, if there is one. -/
theorem name {required : Prop} [Decidable required] {α : Type} {f g : Option Tree → Parse α}
    {Q : α → Prop} (h : ∀ name : Option Tree,
      (∀ t ∈ name, ∀ w, w.isFree = true → t.Within (room c) w) → Limits (f name) (g name) c Q) :
    Limits (isIdentifier >>= fun b => if b = true then (some <$> Grammar.identifier) >>= f
        else if required then Grammar.fail .identifierExpected >>= f else Pure.pure none >>= f)
      (isIdentifier >>= fun b => if b = true then (some <$> Grammar.identifier) >>= g
        else if required then Grammar.fail .identifierExpected >>= g else Pure.pure none >>= g) c Q := by
  have hsome : Limits (some <$> Grammar.identifier) (some <$> Grammar.identifier) c
      fun name => ∀ t ∈ name, ∀ w, w.isFree = true → t.Within (room c) w := by
    refine .map (.identifier ?_)
    rintro s e name _ ⟨⟩ w hw
    exact Tree.within_leaf rfl hw
  refine .step .isIdentifier fun _ => .ite (fun _ => hsome.bind h) fun _ => ?_
  exact .ite (fun _ => .fail_bind) fun _ => .bind (.pure nofun) h

/-- A literal read again as a pattern. -/
theorem target {R : Nat} {t : Tree} {w : Way} (hw : w.isPlain = true) (ht : t.Within R w) :
    Limits (Grammar.target t) (Grammar.target t) c fun u => u.form.isItem = false ∧ u.Within R w := by
  unfold Grammar.target
  split
  · next u hu => exact .pure ⟨(Tree.isItem_of_toPattern hu).2, (Tree.within_toTarget hu hw).2 ht⟩
  · exact .throw

end Limits

section Counted

variable (hr : Counted rules free)
include hr

/-! ## Property names and binding patterns -/

theorem expression_counted :
    Limits (expression rules) (expression free) c (·.Within (room c) .value) := by
  refine .step .here fun start => (hr.assignment c).bind fun first hfirst => ?_
  refine .step .isPunct fun _ => .ite (fun _ => .pure hfirst) fun _ => ?_
  refine .bind (.collect (P := (·.Within (room c) .value)) ?_) fun others hothers =>
    .finish fun s e => ?_
  · refine .step .accept fun _ => .ite (fun _ => (hr.assignment c).bind fun t ht => .pure ?_) fun _ =>
      .pure nofun
    rintro _ ⟨⟩
    exact ht
  · refine Tree.within_value_of_forall (by simp [Form.children]) (fun _ _ => rfl) ?_
    exact List.forall_mem_cons.2 ⟨hfirst, hothers⟩

theorem propertyName_counted :
    Limits (propertyName rules) (propertyName free) c fun x => Named (room c) x.1 x.2 := by
  have name : ∀ s e name, Named (room c) (.ofForm s e (.identifier name)) false :=
    fun _ _ _ => ⟨fun _ => rfl, Tree.within_leaf rfl rfl, fun _ _ hw => Tree.within_leaf rfl hw⟩
  have key : ∀ kind s e raw, Named (room c) (.ofForm s e (.literal kind raw)) false :=
    fun _ _ _ _ => ⟨fun _ => rfl, Tree.within_leaf rfl rfl, fun _ _ hw => Tree.within_leaf rfl hw⟩
  refine .step .kind fun k => ?_
  split
  · exact (Limits.literal (key .string)).bind fun t ht => .pure ht
  · exact (Limits.literal (key .number)).bind fun t ht => .pure ht
  · refine .step .next fun _ => (Limits.withIn (hr.assignment _)).bind fun key hkey => ?_
    exact .step .expect fun _ => .pure ⟨nofun, hkey, nofun⟩
  · exact .ite (fun _ => (Limits.identifierName name).bind fun t ht => .pure ht) fun _ => .fail

theorem bindingElement_counted :
    Limits (bindingElement rules) (bindingElement free) c (·.Within (room c) .target) := by
  refine .step .here fun _ => (hr.bindingTarget c).bind fun target htarget => ?_
  refine .step .accept fun _ => .ite (fun _ => ?_) fun _ => .pure htarget.2
  refine (Limits.withIn (hr.assignment _)).bind fun value hvalue => .finish fun s e => ?_
  exact Tree.within_default rfl htarget.1 htarget.2 hvalue

theorem restElement_counted :
    Limits (restElement rules) (restElement free) c
      fun t => t.form.isSpread = true ∧ t.Within (room c) .target := by
  refine .step .here fun _ => .step .expect fun _ => (hr.bindingTarget c).bind fun target htarget => ?_
  exact .finish fun s e => ⟨rfl, Tree.within_rest rfl htarget.1 htarget.2⟩

theorem bindingOrRest_counted :
    Limits (bindingOrRest rules) (bindingOrRest free) c (·.Within (room c) .target) :=
  .step .isPunct fun _ => .ite (fun _ => (restElement_counted hr).mono fun _ h => h.2)
    fun _ => bindingElement_counted hr

theorem bindingProperty_counted : Limits (bindingProperty rules) (bindingProperty free) c
    fun t => t.form.isProperty = true ∧ t.Within (room c) .target := by
  refine .step .here fun _ => .step .isIdentifier fun short => (propertyName_counted hr).bind ?_
  rintro ⟨key, computed⟩ hkey
  refine .step .accept fun _ => .ite (fun _ => ?_) fun _ => .ite (fun _ => .fail) fun hplain =>
    .step .accept fun _ => .ite (fun _ => ?_) fun _ => ?_
  · refine (bindingElement_counted hr).bind fun value hvalue => .finish fun s e => ⟨rfl, ?_⟩
    exact Tree.within_property rfl hkey.key (by simpa [Way.item, Way.isBinding] using hvalue)
  all_goals
    obtain ⟨-, rfl⟩ : short = true ∧ computed = false := by simpa using hplain
  · refine (Limits.withIn (hr.assignment _)).bind fun value hvalue => ?_
    refine (Limits.finish (P := (·.Within (room c) .target)) fun s e => ?_).bind fun value hvalue =>
      .finish fun s e => ⟨rfl, Tree.within_property rfl hkey.key hvalue⟩
    exact Tree.within_default rfl (hkey.item rfl) (hkey.plain rfl .target rfl) hvalue
  · exact .finish fun s e =>
      ⟨rfl, Tree.within_property rfl hkey.key (hkey.plain rfl .target rfl)⟩

theorem bindingTarget_counted : Limits (bindingTarget rules) (bindingTarget free) c
    fun t => t.form.isItem = false ∧ t.Within (room c) .target := by
  refine .step .here fun _ => .step .kind fun k => ?_
  split
  · refine .step .next fun _ => (Limits.arrayElements (bindingOrRest_counted hr)).bind fun es hes => ?_
    refine .finish fun s e => ⟨rfl, ?_⟩
    rw [Tree.within_target_ofForm]
    exact Tree.allWithin_const (fun _ _ => rfl) fun t ht => Tree.within_pattern.2 (hes t ht)
  · refine .step .next fun _ => (Limits.commaList
      (P := fun t => t.Within (room c) (Way.into .target (.objectPattern []) 0 t.form)) ?_).bind
        fun ts hts => .finish fun s e => ⟨rfl, ?_⟩
    · refine .step .isPunct fun _ => .ite (fun _ => (restElement_counted hr).mono fun t ht => ?_)
        fun _ => (bindingProperty_counted hr).mono fun t ht => ?_
      · rw [Way.into, ht.1]
        exact Tree.within_pattern.2 ht.2
      · rw [Way.into, Tree.isSpread_of_isProperty ht.1, ht.1]
        exact ht.2
    · rw [Tree.within_target_ofForm]
      exact Tree.allWithin_of_forall fun j t _ _ ht => hts t ht
  · exact .identifier fun _ _ _ => ⟨rfl, Tree.within_leaf rfl rfl⟩

/-! ## Functions and classes -/

theorem block_counted : Limits (block rules) (block free) c (·.Within (room c) .inline) := by
  refine .step .here fun _ => .step .expect fun _ => ?_
  refine .bind (.collect (P := (·.Within (room c) .value)) ?_) fun ts hts =>
    .step .next fun _ => .finish fun s e => ?_
  · refine .step .isPunct fun _ => .ite (fun _ => .pure nofun) fun _ => .step .isEnd fun _ =>
      .ite (fun _ => .fail_bind) fun _ => (hr.statement c).bind fun t ht => .pure ?_
    rintro _ ⟨⟩
    exact ht
  · rw [Tree.within_inline_ofForm]
    exact Tree.allWithin_const (fun _ _ => rfl) fun t ht => Tree.within_statement.2 (hts t ht)

theorem parameterList_counted : Limits (parameterList rules) (parameterList free) c
    fun ts => ∀ t ∈ ts, t.Within (room c) .target :=
  .step .expect fun _ => .commaList (bindingOrRest_counted hr)

theorem parametersAndBody_counted {traits : FunctionTraits} :
    Limits (parametersAndBody rules traits) (parametersAndBody free traits) c
      fun x => (∀ t ∈ x.1, t.Within (room c) .target) ∧ x.2.Within (room c) .inline := by
  refine .withIn (.inFunction ?_)
  exact (parameterList_counted hr).bind fun params hparams => (block_counted hr).bind fun body hbody =>
    .pure ⟨hparams, hbody⟩

theorem function_counted {place : FunctionPlace} :
    Limits (function rules place) (function free place) c
      fun t => t.form.isChain = false ∧ t.Within (room c) .inline := by
  refine .step .here fun _ => .step .accept fun isAsync => .step .expect fun _ =>
    .step .accept fun isGenerator => .name fun name hname => ?_
  refine (parametersAndBody_counted hr).bind fun x hx => .finish fun s e => ⟨rfl, ?_⟩
  exact Tree.within_function (fun t ht => hname t ht .target rfl) hx.1 hx.2

theorem methodFunction_counted {traits : FunctionTraits} (htraits : traits.concise = false) :
    Limits (methodFunction rules traits) (methodFunction free traits) c
      fun t => t.form.isFunction = true ∧ t.Within (room c) .inline := by
  refine .step .here fun _ => (parametersAndBody_counted hr).bind fun x hx => .finish fun s e => ?_
  exact ⟨rfl, Tree.within_function nofun hx.1 (by simpa [htraits] using hx.2)⟩

theorem arrowFunction_counted :
    Limits (arrowFunction rules) (arrowFunction free) c (·.Within (room c) .inline) := by
  refine .step .here fun start => .step .isWord fun _ => ?_
  refine .branch (P := fun _ => True) (fun _ => .of_steady (.lookAhead fun _ _ _ => rfl))
    (fun _ => .pure trivial) fun isAsync _ => .detour .next (.step .isPunct fun _ => ?_)
  extract_lets rest rest'
  have hrest : ∀ params : List Tree, (∀ t ∈ params, t.Within (room c) .target) →
      Limits (rest params) (rest' params) c (·.Within (room c) .inline) := by
    intro params hparams
    refine .step .afterLineBreak fun _ => .ite (fun _ => .fail_bind) fun _ => .step .expect fun _ =>
      .step .isPunct fun brace => ?_
    refine .bind (P := (·.Within (room c) (if !brace then .value else .inline)))
      (.inFunction (.ite (fun hconcise => ?_) fun hblock => ?_)) fun body hbody =>
        .finish fun s e => Tree.within_function nofun hparams hbody
    · rw [hconcise]
      exact hr.assignment _
    · rw [Bool.eq_false_iff.2 hblock]
      exact .withIn (block_counted hr)
  clear_value rest rest'
  refine .ite (fun _ => ?_) fun _ => ?_
  · exact (Limits.withIn (.inFunction (parameterList_counted hr))).bind hrest
  · refine (Limits.identifier (P := (·.Within (room c) .target)) fun _ _ _ => ?_).bind fun t ht => ?_
    · exact Tree.within_leaf rfl rfl
    · exact .bind (.pure (List.forall_mem_singleton.2 ht)) hrest

theorem classMember_counted :
    Limits (classMember rules) (classMember free) c (·.Within (room c) .inline) := by
  refine .step .here fun _ => .step .acceptModifier fun isStatic => .step .acceptModifier fun isAsync =>
    .step .accept fun isGenerator => ?_
  refine .branch (P := fun _ => True) (fun _ => .pure trivial) (fun _ => .of_steady .accessorRole)
    fun role _ => (propertyName_counted hr).bind ?_
  rintro ⟨key, computed⟩ hkey
  refine .step .isPunct fun _ => .ite (fun _ => ?_) fun _ => .ite (fun _ => .fail_bind) fun _ => ?_
  · refine .step .methodRole fun role => (methodFunction_counted hr rfl).bind fun value hvalue =>
      .finish fun s e => ?_
    rw [Tree.within_inline_ofForm]
    refine ⟨?_, hvalue.2, trivial⟩
    cases computed <;> exact hkey.key
  · refine .step .accept fun _ => .optional (.withIn (hr.assignment _)) fun value hvalue =>
      .step .semicolon fun _ => .finish fun s e => ?_
    rw [Tree.within_inline_ofForm]
    refine ⟨by cases computed <;> exact hkey.key, ?_⟩
    cases value with
    | none => trivial
    | some value => exact ⟨hvalue value rfl, trivial⟩

theorem classBody_counted {place : ClassPlace} :
    Limits (classBody rules place) (classBody free place) c
      fun t => t.form.isChain = false ∧ t.Within (room c) .inline := by
  refine .step .here fun _ => .step .expect fun _ => .name fun name hname => .step .accept fun _ => ?_
  refine .optional (hr.leftHandSide c) fun heritage hheritage => .step .expect fun _ => ?_
  refine .bind (.collect (P := fun o : Option Tree => ∀ t ∈ o, t.Within (room c) .inline) ?_)
    fun members hmembers => .step .next fun _ => .finish fun s e => ⟨rfl, ?_⟩
  · refine .step .isPunct fun _ => .ite (fun _ => .pure nofun) fun _ => .step .accept fun _ =>
      .ite (fun _ => .pure ?_) fun _ => .step .isEnd fun _ => .ite (fun _ => .fail_bind) fun _ => ?_
    · rintro _ ⟨⟩ t ⟨⟩
    · refine (classMember_counted hr).bind fun t ht => .pure ?_
      rintro _ ⟨⟩ u ⟨⟩
      exact ht
  · refine Tree.within_classBody (fun t ht => hname t ht .inline rfl) hheritage fun t ht => ?_
    rw [List.mem_filterMap] at ht
    obtain ⟨o, ho, rfl⟩ := ht
    exact hmembers _ ho t rfl

/-! ## Expressions -/

theorem templateLiteral_counted : Limits (templateLiteral rules) (templateLiteral free) c
    fun t => t.form.isChain = false ∧ t.Within (room c) .inline := by
  refine .step .here fun start => .step .kind fun k => ?_
  extract_lets rest
  have hrest : ∀ es : List Tree, (∀ t ∈ es, t.Within (room c) .value) →
      Limits (rest es) (rest es) c fun t => t.form.isChain = false ∧ t.Within (room c) .inline := by
    intro es hes
    refine .step .next fun _ => .finish fun s e => ⟨rfl, ?_⟩
    rw [Tree.within_inline_ofForm]
    exact Tree.allWithin_const (fun _ _ => rfl) hes
  clear_value rest
  refine .ite (fun _ => ?_) fun _ => .bind (.pure fun _ ht => absurd ht List.not_mem_nil) hrest
  refine (Limits.repeating (I := fun x : List Tree × Bool => ∀ t ∈ x.1, t.Within (room c) .value)
    ?_ fun _ ht => absurd ht List.not_mem_nil).bind fun x hx =>
      .bind (.pure fun t ht => hx t (List.mem_reverse.1 ht)) hrest
  rintro ⟨es, more⟩ hes
  refine .ite (fun _ => .pure nofun) fun _ => .step .next fun _ => ?_
  refine (Limits.withIn (expression_counted hr)).bind fun t ht => .step .isPunct fun _ => ?_
  refine .ite (fun _ => .fail_bind) fun _ => .step .rescan fun _ => .step .kind fun _ => .pure ?_
  rintro _ ⟨⟩
  exact List.forall_mem_cons.2 ⟨ht, hes⟩

theorem parenthesized_counted : Limits (parenthesized rules) (parenthesized free) c
    fun t => t.form.isChain = false ∧ t.Within (room c) .inline := by
  refine .step .here fun _ => .step .expect fun _ => (Limits.withIn (expression_counted hr)).bind
    fun t ht => .step .expect fun _ => .finish fun s e => ⟨rfl, ?_⟩
  rw [Tree.within_inline_ofForm]
  exact ⟨Tree.within_parenthesis.2 ht, trivial⟩

/-- A spread takes the level of its argument. -/
theorem spreadElement_counted : Limits (spreadElement rules) (spreadElement free) c
    fun t => t.form.isSpread = true ∧ t.Within (room c) .value := by
  refine .step .here fun _ => .step .expect fun _ => (hr.assignment c).bind fun t ht =>
    .finish fun s e => ⟨rfl, ?_⟩
  exact Tree.within_value_of_forall nofun (fun _ _ => rfl) (List.forall_mem_singleton.2 ht)

theorem valueOrSpread_counted :
    Limits (valueOrSpread rules) (valueOrSpread free) c (·.Within (room c) .value) :=
  .step .isPunct fun _ => .ite (fun _ => (spreadElement_counted hr).mono fun _ h => h.2)
    fun _ => hr.assignment c

theorem arrayLiteral_counted : Limits (arrayLiteral rules) (arrayLiteral free) c
    fun t => t.form.isChain = false ∧ t.Within (room c) .inline := by
  refine .step .here fun _ => .step .expect fun _ =>
    (Limits.withIn (.arrayElements (valueOrSpread_counted hr))).bind fun es hes =>
      .finish fun s e => ⟨rfl, ?_⟩
  rw [Tree.within_inline_ofForm]
  exact Tree.allWithin_const (fun _ _ => rfl) fun t ht => Tree.within_element.2 (hes t ht)

theorem objectProperty_counted : Limits (objectProperty rules) (objectProperty free) c
    fun t => t.form.isProperty = true ∧ t.Within (room c) .inline := by
  refine .step .here fun start => .step .kind fun k => ?_
  extract_lets rest rest'
  have hrest : ∀ modifier, Limits (rest modifier) (rest' modifier) c
      fun t => t.form.isProperty = true ∧ t.Within (room c) .inline := by
    intro modifier
    refine .step .accept fun isGenerator => .step .isIdentifier fun short => ?_
    refine (propertyName_counted hr).bind ?_
    rintro ⟨key, computed⟩ hkey
    refine .step .isPunct fun _ => .ite (fun hmethod => ?_) fun hmethod => .step .accept fun _ =>
      .ite (fun _ => ?_) fun _ => .ite (fun _ => .fail) fun hplain => .step .accept fun _ =>
        .ite (fun _ => ?_) fun _ => ?_
    · refine (methodFunction_counted hr rfl).bind fun value hvalue => .finish fun s e => ⟨rfl, ?_⟩
      exact Tree.within_property_literal hkey.key hvalue.2 (fun _ => hvalue.1)
        fun _ hrole => absurd hrole (by simp)
    · refine (hr.assignment c).bind fun value hvalue => .finish fun s e => ⟨rfl, ?_⟩
      exact Tree.within_property_literal hkey.key hvalue.of_value
        (fun hrole => absurd hrole (by simp_all)) fun _ _ => hvalue
    all_goals
      obtain ⟨-, rfl⟩ : short = true ∧ computed = false := by simpa using hplain
    · refine (hr.assignment c).bind fun value hvalue => ?_
      refine (Limits.finish (P := (·.Within (room c) .inline)) fun s e => ?_).bind fun value hvalue =>
        .finish fun s e => ⟨rfl, Tree.within_property_literal hkey.key hvalue ?_ nofun⟩
      · exact Tree.within_assignment (hkey.item rfl) (hkey.plain rfl .inline rfl) hvalue
      · exact fun hrole => absurd hrole (by simp_all)
    · refine .finish fun s e => ⟨rfl, Tree.within_property_literal hkey.key
        (hkey.plain rfl .inline rfl) (fun hrole => absurd hrole (by simp_all)) nofun⟩
  clear_value rest rest'
  split
  · refine .ite (fun _ => .step (.lookAhead fun _ _ _ => rfl) fun _ => .ite (fun _ => ?_) fun _ => ?_)
      fun _ => .step .pure fun _ => hrest _
    · exact .step .next fun _ => .step .pure fun _ => hrest _
    · exact .step .pure fun _ => hrest _
  · exact .step .pure fun _ => hrest _

theorem objectLiteral_counted : Limits (objectLiteral rules) (objectLiteral free) c
    fun t => t.form.isChain = false ∧ t.Within (room c) .inline := by
  refine .step .here fun _ => .step .expect fun _ => (Limits.withIn (.commaList
    (P := fun t => t.Within (room c) (Way.into .inline (.objectLiteral []) 0 t.form)) ?_)).bind
      fun ts hts => .finish fun s e => ⟨rfl, ?_⟩
  · refine .step .isPunct fun _ => .ite (fun _ => ?_) fun _ => ?_
    · refine (spreadElement_counted hr).mono fun t ht => ?_
      rw [Way.into, ht.1]
      exact Tree.within_element.2 ht.2
    · refine (objectProperty_counted hr).mono fun t ht => ?_
      rw [Way.into, Tree.isSpread_of_isProperty ht.1, ht.1]
      exact ht.2
  · rw [Tree.within_inline_ofForm]
    exact Tree.allWithin_of_forall fun j t _ _ ht => hts t ht

theorem primary_counted : Limits (primary rules) (primary free) c
    fun t => t.form.isChain = false ∧ t.Within (room c) .inline := by
  have leaf : ∀ (f : Form Tree) (s e : Nat), f.children = [] → f.number.isChain = false →
      (Tree.ofForm s e f).form.isChain = false ∧ (Tree.ofForm s e f).Within (room c) .inline :=
    fun f s e hf hchain => ⟨hchain, Tree.within_leaf hf rfl⟩
  have name : Limits identifier identifier c
      fun t => t.form.isChain = false ∧ t.Within (room c) .inline :=
    .identifier fun s e name => leaf (.identifier name) s e rfl rfl
  have value : ∀ k, Limits (literal k) (literal k) c
      fun t => t.form.isChain = false ∧ t.Within (room c) .inline :=
    fun k => .literal fun s e raw => leaf (.literal k raw) s e rfl rfl
  refine .step .here fun _ => .step .kind fun _ => ?_
  split
  · exact .step .next fun _ => .finish fun s e => leaf .this s e rfl rfl
  · exact .step .next fun _ => .finish fun s e => leaf .super s e rfl rfl
  · exact value _
  · exact value _
  · exact value _
  · exact value _
  · exact value _
  · exact .step .rescan fun _ => value _
  · exact .step .rescan fun _ => value _
  · exact templateLiteral_counted hr
  · exact templateLiteral_counted hr
  · exact parenthesized_counted hr
  · exact arrayLiteral_counted hr
  · exact objectLiteral_counted hr
  · exact function_counted hr
  · exact classBody_counted hr
  · exact .step (.lookAhead fun _ _ _ => rfl) fun _ => .ite (fun _ => function_counted hr) fun _ => name
  · exact .step .isIdentifier fun _ => .ite (fun _ => name) fun _ => .unexpected

theorem argumentList_counted : Limits (argumentList rules) (argumentList free) c
    fun ts => ∀ t ∈ ts, t.Within (room c) .value :=
  .step .expect fun _ => .withIn (.commaList (valueOrSpread_counted hr))

theorem computedMember_counted :
    Limits (computedMember rules) (computedMember free) c (·.Within (room c) .value) :=
  .step .expect fun _ => (Limits.withIn (expression_counted hr)).bind fun _ hkey =>
    .step .expect fun _ => .pure hkey

/-- What comes behind a tree leaves it in front; `w` is `.callee` under `new`. -/
theorem tailStep_counted {start : Nat} {allowCalls : Bool} {e : Tree} {w : Way}
    (hw : w = .inline ∨ w = .callee ∧ allowCalls = false)
    (he : e.Within (room c) (w.head e.form)) :
    Limits (tailStep rules start allowCalls e) (tailStep free start allowCalls e) c
      fun o => ∀ t ∈ o, t.Within (room c) (w.head t.form) := by
  have hhead : ∀ form : Form Nat, form.isNew = false → w.head form = w := by
    intro form hform
    rcases hw with rfl | ⟨rfl, -⟩
    · rfl
    · simp [Way.head, hform]
  have hfree : w.isFree = true := by rcases hw with rfl | ⟨rfl, -⟩ <;> rfl
  have node : ∀ f : Form Tree, f.number.isNew = false → Tree.AllWithin (room c) w f.number 0 f.children →
      Limits (some <$> finish start f) (some <$> finish start f) c
        fun o => ∀ t ∈ o, t.Within (room c) (w.head t.form) := by
    refine fun f hf hkids => .map (.finish ?_)
    rintro s e _ ⟨⟩
    have hform : (Tree.ofForm s e f).form = f.number := rfl
    rw [hform, hhead _ hf, Tree.within_ofForm hfree]
    exact hkids
  have name : ∀ optional, Limits (do some <$> finish start (.member e (← identifierName) false optional))
      (do some <$> finish start (.member e (← identifierName) false optional)) c
        fun o => ∀ t ∈ o, t.Within (room c) (w.head t.form) := fun optional =>
    (Limits.identifierName (P := (·.Within (room c) .inline)) fun _ _ _ => Tree.within_leaf rfl rfl).bind
      fun key hkey => node _ rfl ⟨he, hkey, trivial⟩
  have computed : ∀ optional, Limits
      (do some <$> finish start (.member e (← computedMember rules) true optional))
      (do some <$> finish start (.member e (← computedMember free) true optional)) c
        fun o => ∀ t ∈ o, t.Within (room c) (w.head t.form) := fun optional =>
    (computedMember_counted hr).bind fun key hkey => node _ rfl ⟨he, hkey, trivial⟩
  have call : ∀ optional, allowCalls = true → Limits
      (do some <$> finish start (.call e (← argumentList rules) optional))
      (do some <$> finish start (.call e (← argumentList free) optional)) c
        fun o => ∀ t ∈ o, t.Within (room c) (w.head t.form) := by
    refine fun optional hcalls => (argumentList_counted hr).bind fun ts hts => node _ rfl ?_
    obtain rfl := hw.resolve_right fun h => by simp [hcalls] at h
    refine ⟨he, Tree.allWithin_of_forall fun j t hle _ ht => ?_⟩
    have hinto : Way.into .inline (Form.call e ts optional).number j t.form =
        if j = 0 then .inline else .value := rfl
    rw [hinto, if_neg (by omega)]
    exact hts t ht
  have quasi : Limits (do some <$> finish start (.taggedTemplate e (← templateLiteral rules)))
      (do some <$> finish start (.taggedTemplate e (← templateLiteral free))) c
        fun o => ∀ t ∈ o, t.Within (room c) (w.head t.form) :=
    (templateLiteral_counted hr).bind fun t ht => node _ rfl ⟨he, ht.2, trivial⟩
  have stop : Limits (pure none) (pure none) c
      fun o : Option Tree => ∀ t ∈ o, t.Within (room c) (w.head t.form) :=
    .pure fun t ht => absurd ht (Option.not_mem_none t)
  refine .step .kind fun k => ?_
  split
  · exact .step .next fun _ => name _
  · exact computed _
  · refine .ite (fun _ => stop) fun hcalls => .step .next fun _ => .step .kind fun _ => ?_
    have hcalls : allowCalls = true := by simpa using hcalls
    split
    · exact computed _
    · exact call _ hcalls
    · exact name _
  · exact .ite (fun _ => stop) fun hcalls => call _ (by simpa using hcalls)
  · exact quasi
  · exact quasi
  · exact stop

theorem tail_counted {start : Nat} {allowCalls : Bool} {e : Tree} {w : Way}
    (hw : w = .inline ∨ w = .callee ∧ allowCalls = false)
    (he : e.Within (room c) (w.head e.form)) :
    Limits (tail rules start allowCalls e) (tail free start allowCalls e) c
      fun t => t.Within (room c) (w.head t.form) :=
  .repeating (fun _ he => tailStep_counted hr hw he) he

theorem newExpression_counted : Limits (newExpression rules) (newExpression free) c
    fun t => t.form.isNew = true ∧ t.Within (room c) .inline := by
  refine .step .here fun _ => .step .expect fun _ => .step .isPunct fun _ =>
    .ite (fun _ => .fail_bind) fun _ => .step .here fun _ => .step .isWord fun _ => ?_
  refine .branch (P := fun t => t.Within (room c) (Way.head .callee t.form))
    (fun _ => (Limits.deeper hr.new).mono fun t ht => ?_)
    (fun _ => (primary_counted hr).mono fun t ht => ?_) fun callee hcallee => ?_
  · simpa [Way.head, ht.1] using ht.2
  · exact (Tree.within_head_of_not_isChain ht.1).2 ht.2
  refine (tail_counted hr (.inr ⟨rfl, rfl⟩) hcallee).bind fun callee hcallee => .step .isPunct fun _ => ?_
  refine .branch (P := fun ts : List Tree => ∀ t ∈ ts, t.Within (room c) .value)
    (fun _ => argumentList_counted hr) (fun _ => .pure fun _ ht => absurd ht List.not_mem_nil)
    fun ts hts => .finish fun s e => ⟨rfl, ?_⟩
  rw [Tree.within_inline_ofForm]
  refine ⟨hcallee, Tree.allWithin_of_forall fun j t hle _ ht => ?_⟩
  have hinto : Way.into .inline (Form.new callee ts).number j t.form =
      if j = 0 then Way.head .callee t.form else .value := rfl
  rw [hinto, if_neg (by omega)]
  exact hts t ht

theorem leftHandSide_counted :
    Limits (leftHandSide rules) (leftHandSide free) c (·.Within (room c) .inline) := by
  refine .step .here fun _ => .step .isWord fun _ => ?_
  refine .branch (P := (·.Within (room c) .inline)) (fun _ => (newExpression_counted hr).mono fun _ h => h.2)
    (fun _ => (primary_counted hr).mono fun _ h => h.2) fun e he => ?_
  exact tail_counted hr (.inl rfl) he

theorem postfixed_counted :
    Limits (postfixed rules) (postfixed free) c (·.Within (room c) .inline) := by
  refine .step .here fun _ => (leftHandSide_counted hr).bind fun e he => .step .kind fun _ =>
    .step .afterLineBreak fun _ => .ite (fun _ => .ite (fun _ => .fail_bind) fun _ =>
      .step .next fun _ => .finish fun s e => ?_) fun _ => .pure he
  rw [Tree.within_inline_ofForm]
  exact ⟨he, trivial⟩

theorem unary_counted : Limits (unary rules) (unary free) c (·.Within (room c) .inline) := by
  have sign : ∀ start k, Limits (signed rules start k) (signed free start k) c
      (·.Within (room c) .inline) := by
    refine fun start k => .step .next fun _ => (Limits.within_deeper hr.unary).bind fun t ht =>
      .finish fun s e => ?_
    rw [Tree.within_inline_ofForm]
    exact ⟨Tree.within_operand.2 ht, trivial⟩
  have update : ∀ start k, Limits (prefixUpdate rules start k) (prefixUpdate free start k) c
      (·.Within (room c) .inline) := by
    refine fun start k => .step .next fun _ => (Limits.within_deeper hr.unary).bind fun t ht =>
      .ite (fun _ => .throw_bind) fun _ => .finish fun s e => ?_
    rw [Tree.within_inline_ofForm]
    exact ⟨Tree.within_operand.2 ht, trivial⟩
  refine .step .here fun start => .step .kind fun k => ?_
  split
  · exact sign _ _
  · exact sign _ _
  · exact sign _ _
  · exact sign _ _
  · exact sign _ _
  · exact sign _ _
  · exact sign _ _
  · exact update _ _
  · exact update _ _
  · refine .read (fun _ => rfl) (.ite (fun _ => .step .next fun _ => ?_) fun _ => postfixed_counted hr)
    refine (Limits.within_deeper hr.unary).bind fun t ht => .finish fun s e => ?_
    rw [Tree.within_inline_ofForm]
    exact ⟨Tree.within_operand.2 ht, trivial⟩
  · exact postfixed_counted hr

theorem binary_counted {above : Nat} :
    Limits (binary rules above) (binary free above) c (·.Within (room c) .inline) := by
  refine .step .here fun start => (unary_counted hr).bind fun first hfirst => ?_
  refine .repeating (fun left hleft => .step .kind fun operator => .read (fun _ => rfl) ?_) hfirst
  refine .ite (fun _ => .pure nofun) fun _ => .step .next fun _ => (hr.binary c _).bind
    fun right hright => .map (.finish fun s e => ?_)
  rintro _ ⟨⟩
  rw [Tree.within_inline_ofForm]
  refine ⟨hleft, ?_, trivial⟩
  have hinto : Way.into .inline (Form.binary operator left right).number 1 right.form =
      if 1 ≠ 0 ∧ operator = .punct .starStar then .power else .inline := rfl
  rw [hinto]
  split
  · exact Tree.within_power.2 hright
  · exact hright

theorem conditional_counted :
    Limits (conditional rules) (conditional free) c (·.Within (room c) .inline) := by
  refine .step .here fun _ => (binary_counted hr).bind fun test htest => .step .accept fun _ =>
    .ite (fun _ => ?_) fun _ => .pure htest
  refine (Limits.withIn (hr.assignment _)).bind fun consequent hconsequent => .step .expect fun _ =>
    (hr.assignment c).bind fun alternate halternate => .finish fun s e => ?_
  rw [Tree.within_inline_ofForm]
  exact ⟨htest, hconsequent, halternate, trivial⟩

theorem yieldExpression_counted :
    Limits (yieldExpression rules) (yieldExpression free) c (·.Within (room c) .inline) := by
  have node : ∀ (argument : Option Tree) (delegate : Bool), (∀ t ∈ argument, t.Within (room c) .value) →
      ∀ s e, (Tree.ofForm s e (.yield argument delegate)).Within (room c) .inline := by
    intro argument delegate h s e
    rw [Tree.within_inline_ofForm]
    exact Tree.allWithin_const (fun _ _ => rfl) fun t ht => h t (Option.mem_toList.1 ht)
  refine .step .here fun _ => .step .next fun _ => .step .afterLineBreak fun _ =>
    .ite (fun _ => .finish (node none false nofun)) fun _ => .step .accept fun delegate =>
      .step .startsExpression fun _ => ?_
  exact .optional (hr.assignment c) fun argument hargument => .finish (node argument _ hargument)

theorem assignment_counted :
    Limits (assignment rules) (assignment free) c (·.Within (room c) .inline) := by
  refine .step .startsArrow fun _ => .ite (fun _ => arrowFunction_counted hr) fun _ =>
    .step .isWord fun _ => .read (fun _ => rfl) (.ite (fun _ => yieldExpression_counted hr) fun _ => ?_)
  refine .step .here fun start => (conditional_counted hr).bind fun left hleft => .step .kind fun operator =>
    .ite (fun _ => .pure hleft) fun _ => ?_
  extract_lets rest rest'
  have hrest : ∀ left : Tree, left.form.isItem = false ∧ left.Within (room c) .inline →
      Limits (rest left) (rest' left) c (·.Within (room c) .inline) :=
    fun left hleft => .step .next fun _ => (hr.assignment c).bind fun right hright =>
      .finish fun s e => Tree.within_assignment hleft.1 hleft.2 hright
  clear_value rest rest'
  refine .ite (fun _ => (Limits.target rfl hleft).bind hrest) fun _ =>
    .ite (fun hsimple => .bind (.pure ⟨Tree.isItem_of_isSimpleTarget hsimple, hleft⟩) hrest)
      fun _ => .fail_bind

/-! ## Statements -/

theorem declarator_counted :
    Limits (declarator rules) (declarator free) c (·.Within (room c) .inline) := by
  refine .step .here fun _ => (bindingTarget_counted hr).bind fun target htarget => .step .accept fun _ =>
    .optional (hr.assignment c) fun init hinit => .finish fun s e => ?_
  rw [Tree.within_inline_ofForm]
  refine ⟨htarget.2, ?_⟩
  cases init with
  | none => trivial
  | some init => exact ⟨hinit init rfl, trivial⟩

theorem declarators_counted {keyword : VarKeyword} :
    Limits (declarators rules keyword) (declarators free keyword) c
      fun t => t.form.isBindings = true ∧ t.Within (room c) .inline := by
  refine .step .here fun _ => .step .next fun _ => (declarator_counted hr).bind fun first hfirst => ?_
  refine .bind (.collect (P := (·.Within (room c) .inline)) ?_) fun others hothers =>
    .finish fun s e => ⟨rfl, ?_⟩
  · refine .step .accept fun _ => .ite (fun _ => (declarator_counted hr).bind fun t ht => .pure ?_) fun _ =>
      .pure nofun
    rintro _ ⟨⟩
    exact ht
  · rw [Tree.within_inline_ofForm]
    exact Tree.allWithin_const (fun _ _ => rfl) (List.forall_mem_cons.2 ⟨hfirst, hothers⟩)

theorem variableStatement_counted {keyword : VarKeyword} :
    Limits (variableStatement rules keyword) (variableStatement free keyword) c
      (·.Within (room c) .inline) := by
  refine .step .here fun _ => (declarators_counted hr).bind fun t ht => .step .semicolon fun _ =>
    .step .get fun _ => .pure ?_
  cases t
  exact ⟨ht.2.known, ht.2.all, ht.2.levels⟩

theorem condition_counted : Limits (condition rules) (condition free) c (·.Within (room c) .value) :=
  .step .expect fun _ => (Limits.withIn (expression_counted hr)).bind fun _ ht =>
    .step .expect fun _ => .pure ht

theorem ifStatement_counted :
    Limits (ifStatement rules) (ifStatement free) c (·.Within (room c) .inline) := by
  refine .step .here fun _ => .step .next fun _ => (condition_counted hr).bind fun test htest =>
    (hr.statement c).bind fun consequent hconsequent => .step .accept fun _ =>
      .optional (hr.statement c) fun alternate halternate => .finish fun s e => ?_
  rw [Tree.within_inline_ofForm]
  refine ⟨htest, Tree.within_statement.2 hconsequent, ?_⟩
  cases alternate with
  | none => trivial
  | some alternate => exact ⟨Tree.within_statement.2 (halternate alternate rfl), trivial⟩

theorem whileStatement_counted :
    Limits (whileStatement rules) (whileStatement free) c (·.Within (room c) .inline) := by
  refine .step .here fun _ => .step .next fun _ => (condition_counted hr).bind fun test htest =>
    (hr.statement c).bind fun body hbody => .finish fun s e => ?_
  rw [Tree.within_inline_ofForm]
  exact ⟨htest, Tree.within_statement.2 hbody, trivial⟩

theorem doStatement_counted :
    Limits (doStatement rules) (doStatement free) c (·.Within (room c) .inline) := by
  refine .step .here fun _ => .step .next fun _ => (hr.statement c).bind fun body hbody =>
    .step .expect fun _ => (condition_counted hr).bind fun test htest => .step .accept fun _ =>
      .finish fun s e => ?_
  rw [Tree.within_inline_ofForm]
  exact ⟨Tree.within_statement.2 hbody, htest, trivial⟩

theorem optionalExpression_counted {close : Punctuator} :
    Limits (optionalExpression rules close) (optionalExpression free close) c
      fun o => ∀ t ∈ o, t.Within (room c) .value := by
  refine .step .isPunct fun _ => .ite (fun _ => .pure nofun) fun _ =>
    .map ((expression_counted hr).mono fun t ht => ?_)
  rintro _ ⟨⟩
  exact ht

/-- A loop over a collection, from `in` or `of` on. -/
theorem forEach_counted {start : Nat} {each : Iteration} {left : Tree}
    (hleft : left.Within (room c) (Way.loopHead left.form)) :
    Limits (do
        next
        let right ← withIn (if each = .values then rules .assignment else expression rules)
        expectPunct .closeParen
        let body ← rules .statement
        finish start (.forEach each left right body))
      (do
        next
        let right ← withIn (if each = .values then free .assignment else expression free)
        expectPunct .closeParen
        let body ← free .statement
        finish start (.forEach each left right body)) c (·.Within (room c) .inline) := by
  refine .step .next fun _ => (Limits.withIn (.ite (P := (·.Within (room c) .value))
    (fun _ => hr.assignment _) fun _ => expression_counted hr)).bind fun right hright =>
      .step .expect fun _ => (hr.statement c).bind fun body hbody => .finish fun s e => ?_
  rw [Tree.within_inline_ofForm]
  exact ⟨hleft, Tree.within_loopHead hright, Tree.within_statement.2 hbody, trivial⟩

theorem forStatement_counted :
    Limits (forStatement rules) (forStatement free) c (·.Within (room c) .inline) := by
  refine .step .here fun start => .step .next fun _ => .step .expect fun _ => ?_
  refine .bind (P := fun o : Option Tree => ∀ t ∈ o, t.Within (room c) (Way.loopHead t.form)) ?_
    fun init hinit => .step .kind fun _ => ?_
  · refine .withoutIn (.step .isPunct fun _ => .ite (fun _ => .pure nofun) fun _ =>
      .step .declarationKeyword? fun o => ?_)
    split
    · refine .map ((declarators_counted hr).mono fun t ht => ?_)
      rintro _ ⟨⟩
      rw [Way.loopHead, ht.1]
      exact ht.2
    · refine .map ((expression_counted hr).mono fun t ht => ?_)
      rintro _ ⟨⟩
      exact Tree.within_loopHead ht
  extract_lets rest rest'
  have hrest : ∀ each, Limits (rest each) (rest' each) c (·.Within (room c) .inline) := by
    intro each
    dsimp only [rest, rest']
    split
    · next left each =>
      have hleft := hinit left rfl
      split
      · exact Limits.bind (P := fun t : Tree => t.Within (room c) (Way.loopHead t.form))
          (.pure hleft) fun _ hleft => forEach_counted hr hleft
      · next hnot =>
        have hvalue : left.Within (room c) .value := by
          have hhead : Way.loopHead left.form = .value := by
            unfold Way.loopHead
            split
            · next h => exact absurd h (by cases hform : left.form <;> simp_all [Form.isBindings])
            · rfl
          exact hhead ▸ hleft
        exact (Limits.target rfl hvalue).bind fun u hu => forEach_counted hr (Tree.within_loopHead hu.2)
    · refine .step .expect fun _ => (optionalExpression_counted hr).bind fun test htest =>
        .step .expect fun _ => (optionalExpression_counted hr).bind fun step hstep =>
          .step .expect fun _ => (hr.statement c).bind fun body hbody => .finish fun s e => ?_
      exact Tree.within_forLoop hinit htest hstep hbody
  clear_value rest rest'
  split <;> exact .step .pure fun _ => hrest _

theorem returnStatement_counted :
    Limits (returnStatement rules) (returnStatement free) c (·.Within (room c) .inline) := by
  refine .step .here fun _ => .step .next fun _ => .step .canEndStatement fun _ => ?_
  refine .branch (P := fun o : Option Tree => ∀ t ∈ o, t.Within (room c) .value) (fun _ => .pure nofun)
    (fun _ => .map ((expression_counted hr).mono fun t ht => ?_)) fun argument hargument =>
      .step .semicolon fun _ => .finish fun s e => ?_
  · rintro _ ⟨⟩
    exact ht
  · rw [Tree.within_inline_ofForm]
    exact Tree.allWithin_const (fun _ _ => rfl) fun t ht => hargument t (Option.mem_toList.1 ht)

omit hr in
theorem jumpStatement_counted {jump : JumpKind} :
    Limits (jumpStatement jump) (jumpStatement jump) c (·.Within (room c) .inline) := by
  refine .step .here fun _ => .step .next fun _ => .step .canEndStatement fun _ =>
    .step .isIdentifier fun _ => ?_
  refine .optional (P := (·.Within (room c) .inline)) (.identifier fun _ _ _ => ?_) fun label hlabel =>
    .step .semicolon fun _ => .finish fun s e => ?_
  · exact Tree.within_leaf rfl rfl
  · rw [Tree.within_inline_ofForm]
    exact Tree.allWithin_const (fun _ _ => rfl) fun t ht => hlabel t (Option.mem_toList.1 ht)

theorem throwStatement_counted :
    Limits (throwStatement rules) (throwStatement free) c (·.Within (room c) .inline) := by
  refine .step .here fun _ => .step .next fun _ => .step .afterLineBreak fun _ =>
    .ite (fun _ => .fail_bind) fun _ => (expression_counted hr).bind fun t ht =>
      .step .semicolon fun _ => .finish fun s e => ?_
  rw [Tree.within_inline_ofForm]
  exact ⟨ht, trivial⟩

theorem catchClause_counted :
    Limits (catchClause rules) (catchClause free) c (·.Within (room c) .inline) := by
  refine .step .here fun _ => .step .next fun _ => .step .accept fun _ => ?_
  extract_lets rest rest'
  have hrest : ∀ param : Option Tree, (∀ t ∈ param, t.Within (room c) .target) →
      Limits (rest param) (rest' param) c (·.Within (room c) .inline) := by
    refine fun param hparam => (block_counted hr).bind fun body hbody => .finish fun s e => ?_
    rw [Tree.within_inline_ofForm]
    cases param with
    | none => exact ⟨hbody, trivial⟩
    | some param => exact ⟨hparam param rfl, hbody, trivial⟩
  clear_value rest rest'
  refine .ite (fun _ => (bindingTarget_counted hr).bind fun param hparam => .step .expect fun _ => ?_)
    fun _ => .bind (.pure nofun) hrest
  refine .bind (.pure ?_) hrest
  rintro _ ⟨⟩
  exact hparam.2

theorem tryStatement_counted :
    Limits (tryStatement rules) (tryStatement free) c (·.Within (room c) .inline) := by
  refine .step .here fun _ => .step .next fun _ => (block_counted hr).bind fun body hbody =>
    .step .isWord fun _ => .optional (catchClause_counted hr) fun handler hhandler =>
      .step .accept fun _ => .optional (block_counted hr) fun finalizer hfinalizer =>
        .ite (fun _ => .fail_bind) fun _ => .finish fun s e => ?_
  rw [Tree.within_inline_ofForm]
  refine Tree.allWithin_const (fun _ _ => rfl) fun t ht => ?_
  rcases List.mem_append.1 ht with ht | ht
  · rcases List.mem_append.1 ht with ht | ht
    · obtain rfl := List.mem_singleton.1 ht
      exact hbody
    · exact hhandler t (Option.mem_toList.1 ht)
  · exact hfinalizer t (Option.mem_toList.1 ht)

theorem caseTest_counted :
    Limits (caseTest rules) (caseTest free) c fun o => ∀ t ∈ o, t.Within (room c) .value := by
  refine .step .accept fun _ => .ite (fun _ => (expression_counted hr).bind fun t ht => .pure ?_) fun _ =>
    .step .accept fun _ => .ite (fun _ => .pure nofun) fun _ => .fail
  rintro _ ⟨⟩
  exact ht

theorem switchCase_counted :
    Limits (switchCase rules) (switchCase free) c (·.Within (room c) .inline) := by
  refine .step .here fun _ => (caseTest_counted hr).bind fun test htest => .step .expect fun _ => ?_
  refine .bind (.collect (P := (·.Within (room c) .value)) ?_) fun ts hts => .finish fun s e => ?_
  · refine .step .kind fun _ => ?_
    split
    · exact .pure nofun
    · exact .pure nofun
    · exact .pure nofun
    · exact .pure nofun
    · refine (hr.statement c).bind fun t ht => .pure ?_
      rintro _ ⟨⟩
      exact ht
  · rw [Tree.within_inline_ofForm]
    refine Tree.allWithin_of_forall fun j t _ _ ht => ?_
    have hinto : Way.into .inline (Form.switchCase test ts).number j t.form =
        if test.map (fun _ => 0) = some j then .value else .statement := rfl
    have ht : t.Within (room c) .value :=
      (List.mem_append.1 ht).elim (fun ht => htest t (Option.mem_toList.1 ht)) (hts t)
    rw [hinto]
    split
    · exact ht
    · exact Tree.within_statement.2 ht

theorem switchStatement_counted :
    Limits (switchStatement rules) (switchStatement free) c (·.Within (room c) .inline) := by
  refine .step .here fun _ => .step .next fun _ => (condition_counted hr).bind fun test htest =>
    .step .expect fun _ => ?_
  refine .bind (.collect (P := (·.Within (room c) .inline)) ?_) fun ts hts => .step .next fun _ =>
    .finish fun s e => ?_
  · refine .step .isPunct fun _ => .ite (fun _ => .pure nofun) fun _ => (switchCase_counted hr).bind
      fun t ht => .pure ?_
    rintro _ ⟨⟩
    exact ht
  · rw [Tree.within_inline_ofForm]
    refine ⟨htest, Tree.allWithin_of_forall fun j t hle _ ht => ?_⟩
    have hinto : Way.into .inline (Form.switch test ts).number j t.form =
        if j = 0 then .value else .inline := rfl
    rw [hinto, if_neg (by omega)]
    exact hts t ht

theorem withStatement_counted :
    Limits (withStatement rules) (withStatement free) c (·.Within (room c) .inline) := by
  refine .step .here fun _ => .step .next fun _ => (condition_counted hr).bind fun object hobject =>
    (hr.statement c).bind fun body hbody => .finish fun s e => ?_
  rw [Tree.within_inline_ofForm]
  exact ⟨hobject, Tree.within_statement.2 hbody, trivial⟩

theorem labeledStatement_counted :
    Limits (labeledStatement rules) (labeledStatement free) c (·.Within (room c) .inline) := by
  refine .step .here fun _ => (Limits.identifier (P := (·.Within (room c) .inline)) fun _ _ _ => ?_).bind
    fun label hlabel => .step .expect fun _ => (hr.statement c).bind fun body hbody =>
      .finish fun s e => ?_
  · exact Tree.within_leaf rfl rfl
  · rw [Tree.within_inline_ofForm]
    exact ⟨hlabel, Tree.within_statement.2 hbody, trivial⟩

theorem expressionStatement_counted :
    Limits (expressionStatement rules) (expressionStatement free) c (·.Within (room c) .inline) := by
  refine .step .here fun _ => (expression_counted hr).bind fun t ht => .step .semicolon fun _ =>
    .finish fun s e => ?_
  rw [Tree.within_inline_ofForm]
  exact ⟨ht, trivial⟩

theorem plainStatement_counted :
    Limits (plainStatement rules) (plainStatement free) c (·.Within (room c) .inline) := by
  refine .step .isIdentifier fun _ => .branch (P := fun _ => True)
    (fun _ => .of_steady (.lookAhead fun _ _ _ => rfl)) (fun _ => .pure trivial) fun labeled _ => ?_
  exact .ite (fun _ => labeledStatement_counted hr) fun _ => expressionStatement_counted hr

theorem statement_counted :
    Limits (statement rules) (statement free) c (·.Within (room c) .inline) := by
  have hfunction : Limits (function rules .declaration) (function free .declaration) c
      (·.Within (room c) .inline) := (function_counted hr).mono fun _ h => h.2
  have hstartsLet : Steady startsLet := .lookAhead <| .bind .next fun _ =>
    .bind .isIdentifier fun _ _ _ _ => rfl
  refine .step .here fun _ => .step .kind fun _ => ?_
  split
  · exact block_counted hr
  · exact .step .next fun _ => .finish fun s e => Tree.within_leaf rfl rfl
  · exact variableStatement_counted hr
  · exact variableStatement_counted hr
  · exact .step hstartsLet fun _ => .ite (fun _ => variableStatement_counted hr)
      fun _ => plainStatement_counted hr
  · exact hfunction
  · exact .step (.lookAhead fun _ _ _ => rfl) fun _ => .ite (fun _ => hfunction)
      fun _ => plainStatement_counted hr
  · exact (classBody_counted hr).mono fun _ h => h.2
  · exact ifStatement_counted hr
  · exact forStatement_counted hr
  · exact whileStatement_counted hr
  · exact doStatement_counted hr
  · exact returnStatement_counted hr
  · exact jumpStatement_counted
  · exact jumpStatement_counted
  · exact throwStatement_counted hr
  · exact tryStatement_counted hr
  · exact switchStatement_counted hr
  · exact withStatement_counted hr
  · exact .step .next fun _ => .step .semicolon fun _ => .finish fun s e => Tree.within_leaf rfl rfl
  · exact .fail
  · exact .fail
  · exact plainStatement_counted hr

end Counted

/-! ## Programs -/

/-- One round of the grammar; the second one begins at the outermost level. -/
theorem rule_counted (hr : Counted rules free) :
    Counted (rule rules) fun symbol c => rule free symbol { c with nesting := 0 } := by
  have outermost : ∀ {p q : Parse Tree} {c : Context} {P : Tree → Prop}, Limits p q c P →
      Limits p (fun c => q { c with nesting := 0 }) c P :=
    fun h m _ s => h 0 (Nat.zero_le _) s
  constructor
  · exact fun c => outermost (.within_deeper fun _ => statement_counted hr)
  · exact fun c => outermost (.within_deeper fun _ => assignment_counted hr)
  · exact fun c => outermost (unary_counted hr)
  · exact fun c _ => outermost (binary_counted hr)
  · exact fun c => outermost (leftHandSide_counted hr)
  · exact fun c => outermost (newExpression_counted hr)
  · exact fun c => outermost (bindingTarget_counted hr)

end LoopClosure.Grammar
