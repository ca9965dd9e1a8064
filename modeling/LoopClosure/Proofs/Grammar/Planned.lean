import LoopClosure.Proofs.Grammar.Plan

/-!
# The plan of the grammar

Each rule of the grammar has a plan if the readers that it comes back to have one; looking ahead
comes up in it only as a question. So there is a plan for reading a program (`program_planned`).
-/

namespace LoopClosure.Grammar

open Syntax Token

variable {rules : Rules}

theorem startsExpression_planned : Planned startsExpression := by
  refine .bind .kind fun k => ?_
  split
  · split <;> exact .pure
  all_goals exact .pure

theorem declarationKeyword?_planned : Planned declarationKeyword? := by
  refine .bind .kind fun k => ?_
  split
  · exact .pure
  · exact .pure
  · exact .bind (.ask .letDeclaration) fun _ => .ite .pure .pure
  · exact .pure

theorem acceptModifier_planned {k : Keyword} : Planned (acceptModifier k) :=
  .bind .isWord fun _ => .ite (.bind (.ask (.modifier _)) fun _ =>
    .ite (.bind .next fun _ => .pure) .pure) .pure

theorem accessorRole_planned : Planned accessorRole :=
  .bind acceptModifier_planned fun _ => .ite .pure <|
    .bind acceptModifier_planned fun _ => .ite .pure .pure

theorem isConstructorKey_planned {key : Tree} : Planned (isConstructorKey key) := by
  rcases isConstructorKey_cases key with ⟨b, h⟩ | ⟨h, -⟩
  · exact h ▸ .pure
  · exact h ▸ .abort

theorem methodRole_planned {role : MethodRole} {isStatic computed : Bool} {key : Tree} :
    Planned (methodRole role isStatic computed key) :=
  .ite (.bind isConstructorKey_planned fun _ => .ite .pure .pure) .pure

theorem jumpStatement_planned {jump : JumpKind} : Planned (jumpStatement jump) :=
  .bind .here fun _ => .bind .next fun _ => .bind .canEndStatement fun _ => .bind .isIdentifier fun _ =>
    .optional .identifier fun _ => .bind .semicolon fun _ => .finish

/-- The name of a function or a class, if there is one. -/
theorem name_planned {α : Type} {required : Prop} [Decidable required] {f : Option Tree → Parse α}
    (hf : ∀ name, Planned (f name)) :
    Planned (isIdentifier >>= fun b => if b = true then (some <$> identifier) >>= f
      else if required then fail .identifierExpected >>= f else pure none >>= f) :=
  .bind .isIdentifier fun _ => .ite (.bind (.map .identifier) hf) (.branch .fail .pure hf)

section Rules

variable (hr : ∀ symbol, Planned (rules symbol))
include hr

/-! ## Property names and binding patterns -/

theorem expression_planned : Planned (expression rules) := by
  refine .bind .here fun _ => .bind (hr _) fun _ => .bind .isPunct fun _ => .ite .pure ?_
  refine .bind (.collect ?_) fun _ => .finish
  exact .bind .accept fun _ => .ite (.bind (hr _) fun _ => .pure) .pure

theorem propertyName_planned : Planned (propertyName rules) := by
  refine .bind .kind fun k => ?_
  split
  · exact .bind .literal fun _ => .pure
  · exact .bind .literal fun _ => .pure
  · exact .bind .next fun _ => .bind (.withIn (hr _)) fun _ => .bind .expect fun _ => .pure
  · exact .ite (.bind .identifierName fun _ => .pure) .fail

theorem bindingElement_planned : Planned (bindingElement rules) :=
  .bind .here fun _ => .bind (hr _) fun _ => .bind .accept fun _ =>
    .ite (.bind (.withIn (hr _)) fun _ => .finish) .pure

theorem restElement_planned : Planned (restElement rules) :=
  .bind .here fun _ => .bind .expect fun _ => .bind (hr _) fun _ => .finish

theorem bindingOrRest_planned : Planned (bindingOrRest rules) :=
  .bind .isPunct fun _ => .ite (restElement_planned hr) (bindingElement_planned hr)

theorem bindingProperty_planned : Planned (bindingProperty rules) := by
  refine .bind .here fun _ => .bind .isIdentifier fun _ => .bind (propertyName_planned hr) fun _ => ?_
  refine .bind .accept fun _ => .ite (.bind (bindingElement_planned hr) fun _ => .finish) ?_
  refine .ite .fail (.bind .accept fun _ => .ite ?_ .finish)
  exact .bind (.withIn (hr _)) fun _ => .bind .finish fun _ => .finish

theorem bindingTarget_planned : Planned (bindingTarget rules) := by
  refine .bind .here fun _ => .bind .kind fun k => ?_
  split
  · exact .bind .next fun _ => .bind (.arrayElements (bindingOrRest_planned hr)) fun _ => .finish
  · refine .bind .next fun _ => .bind (.commaList ?_) fun _ => .finish
    exact .bind .isPunct fun _ => .ite (restElement_planned hr) (bindingProperty_planned hr)
  · exact .identifier

/-! ## Functions and classes -/

theorem block_planned : Planned (block rules) := by
  refine .bind .here fun _ => .bind .expect fun _ => .bind (.collect ?_) fun _ => .bind .next fun _ =>
    .finish
  exact .bind .isPunct fun _ => .ite .pure <| .bind .isEnd fun _ =>
    .detour .fail (.bind (hr _) fun _ => .pure)

theorem parameterList_planned : Planned (parameterList rules) :=
  .bind .expect fun _ => .commaList (bindingOrRest_planned hr)

theorem parametersAndBody_planned {traits : FunctionTraits} :
    Planned (parametersAndBody rules traits) :=
  .withIn <| .inFunction <| .bind (parameterList_planned hr) fun _ => .bind (block_planned hr) fun _ =>
    .pure

theorem function_planned {place : FunctionPlace} : Planned (function rules place) :=
  .bind .here fun _ => .bind .accept fun _ => .bind .expect fun _ => .bind .accept fun _ =>
    name_planned fun _ => .bind (parametersAndBody_planned hr) fun _ => .finish

theorem methodFunction_planned {traits : FunctionTraits} : Planned (methodFunction rules traits) :=
  .bind .here fun _ => .bind (parametersAndBody_planned hr) fun _ => .finish

theorem arrowFunction_planned : Planned (arrowFunction rules) := by
  refine .bind .here fun start => .bind .isWord fun _ => .branch (.ask .asyncArrow) .pure fun isAsync =>
    .detour .next (.bind .isPunct fun _ => ?_)
  extract_lets rest
  have hrest : ∀ params, Planned (rest params) := by
    refine fun params => .bind .afterLineBreak fun _ => .detour .fail <| .bind .expect fun _ =>
      .bind .isPunct fun _ => .bind (.inFunction ?_) fun _ => .finish
    exact .ite (hr _) (.withIn (block_planned hr))
  clear_value rest
  refine .ite (.bind (.withIn (.inFunction (parameterList_planned hr))) hrest) ?_
  exact .bind .identifier fun _ => .bind .pure hrest

theorem classMember_planned : Planned (classMember rules) := by
  refine .bind .here fun _ => .bind acceptModifier_planned fun _ => .bind acceptModifier_planned fun _ =>
    .bind .accept fun _ => .branch .pure accessorRole_planned fun _ =>
      .bind (propertyName_planned hr) fun _ => .bind .isPunct fun _ => .ite ?_ ?_
  · exact .bind methodRole_planned fun _ => .bind (methodFunction_planned hr) fun _ => .finish
  · exact .detour .fail <| .bind .accept fun _ => .optional (.withIn (hr _)) fun _ =>
      .bind .semicolon fun _ => .finish

theorem classBody_planned {place : ClassPlace} : Planned (classBody rules place) := by
  refine .bind .here fun _ => .bind .expect fun _ => name_planned fun _ => .bind .accept fun _ =>
    .optional (hr _) fun _ => .bind .expect fun _ => .bind (.collect ?_) fun _ => .bind .next fun _ =>
      .finish
  refine .bind .isPunct fun _ => .ite .pure <| .bind .accept fun _ => .ite .pure <|
    .bind .isEnd fun _ => .detour .fail <| .bind (classMember_planned hr) fun _ => .pure

/-! ## Expressions -/

theorem templateLiteral_planned : Planned (templateLiteral rules) := by
  refine .bind .here fun start => .bind .kind fun k => ?_
  extract_lets rest
  have hrest : ∀ es, Planned (rest es) := fun _ => .bind .next fun _ => .finish
  clear_value rest
  refine .ite (.bind (.repeating ?_ _) fun _ => .bind .pure hrest) (.bind .pure hrest)
  rintro ⟨es, more⟩
  refine .ite .pure <| .bind .next fun _ => .bind (.withIn (expression_planned hr)) fun _ =>
    .bind .isPunct fun _ => .detour .fail <| .bind .template fun _ => .bind .kind fun _ => .pure

theorem parenthesized_planned : Planned (parenthesized rules) :=
  .bind .here fun _ => .bind .expect fun _ => .bind (.withIn (expression_planned hr)) fun _ =>
    .bind .expect fun _ => .finish

theorem spreadElement_planned : Planned (spreadElement rules) :=
  .bind .here fun _ => .bind .expect fun _ => .bind (hr _) fun _ => .finish

theorem valueOrSpread_planned : Planned (valueOrSpread rules) :=
  .bind .isPunct fun _ => .ite (spreadElement_planned hr) (hr _)

theorem arrayLiteral_planned : Planned (arrayLiteral rules) :=
  .bind .here fun _ => .bind .expect fun _ =>
    .bind (.withIn (.arrayElements (valueOrSpread_planned hr))) fun _ => .finish

theorem objectProperty_planned : Planned (objectProperty rules) := by
  refine .bind .here fun start => .bind .kind fun k => ?_
  extract_lets rest
  have hrest : ∀ modifier, Planned (rest modifier) := by
    refine fun modifier => .bind .accept fun _ => .bind .isIdentifier fun _ =>
      .bind (propertyName_planned hr) fun _ => .bind .isPunct fun _ => .ite ?_ <|
        .bind .accept fun _ => .ite ?_ <| .ite .fail <| .bind .accept fun _ => .ite ?_ .finish
    · exact .bind (methodFunction_planned hr) fun _ => .finish
    · exact .bind (hr _) fun _ => .finish
    · exact .bind (hr _) fun _ => .bind .finish fun _ => .finish
  clear_value rest
  split
  · refine .ite (.bind (.ask (.modifier _)) fun _ => .ite ?_ (.bind .pure hrest)) (.bind .pure hrest)
    exact .bind .next fun _ => .bind .pure hrest
  · exact .bind .pure hrest

theorem objectLiteral_planned : Planned (objectLiteral rules) :=
  .bind .here fun _ => .bind .expect fun _ => .bind (.withIn <| .commaList <| .bind .isPunct fun _ =>
    .ite (spreadElement_planned hr) (objectProperty_planned hr)) fun _ => .finish

theorem primary_planned : Planned (primary rules) := by
  refine .bind .here fun _ => .bind .kind fun _ => ?_
  split
  · exact .bind .next fun _ => .finish
  · exact .bind .next fun _ => .finish
  · exact .literal
  · exact .literal
  · exact .literal
  · exact .literal
  · exact .literal
  · exact .bind .slash fun _ => .literal
  · exact .bind .slash fun _ => .literal
  · exact templateLiteral_planned hr
  · exact templateLiteral_planned hr
  · exact parenthesized_planned hr
  · exact arrayLiteral_planned hr
  · exact objectLiteral_planned hr
  · exact function_planned hr
  · exact classBody_planned hr
  · exact .bind (.ask .asyncFunction) fun _ => .ite (function_planned hr) .identifier
  · exact .bind .isIdentifier fun _ => .ite .identifier .unexpected

theorem argumentList_planned : Planned (argumentList rules) :=
  .bind .expect fun _ => .withIn (.commaList (valueOrSpread_planned hr))

theorem computedMember_planned : Planned (computedMember rules) :=
  .bind .expect fun _ => .bind (.withIn (expression_planned hr)) fun _ => .bind .expect fun _ => .pure

theorem tailStep_planned {start : Nat} {allowCalls : Bool} {e : Tree} :
    Planned (tailStep rules start allowCalls e) := by
  have name : ∀ optional,
      Planned (do some <$> finish start (.member e (← identifierName) false optional)) :=
    fun _ => .bind .identifierName fun _ => .map .finish
  have computed : ∀ optional,
      Planned (do some <$> finish start (.member e (← computedMember rules) true optional)) :=
    fun _ => .bind (computedMember_planned hr) fun _ => .map .finish
  have call : ∀ optional, Planned (do some <$> finish start (.call e (← argumentList rules) optional)) :=
    fun _ => .bind (argumentList_planned hr) fun _ => .map .finish
  have quasi : Planned (do some <$> finish start (.taggedTemplate e (← templateLiteral rules))) :=
    .bind (templateLiteral_planned hr) fun _ => .map .finish
  refine .bind .kind fun k => ?_
  split
  · exact .bind .next fun _ => name _
  · exact computed _
  · refine .ite .pure (.bind .next fun _ => .bind .kind fun _ => ?_)
    split
    · exact computed _
    · exact call _
    · exact name _
  · exact .ite .pure (call _)
  · exact quasi
  · exact quasi
  · exact .pure

theorem tail_planned {start : Nat} {allowCalls : Bool} {e : Tree} :
    Planned (tail rules start allowCalls e) :=
  .repeating (fun _ => tailStep_planned hr) e

theorem newExpression_planned : Planned (newExpression rules) := by
  refine .bind .here fun _ => .bind .expect fun _ => .bind .isPunct fun _ => .detour .fail <|
    .bind .here fun _ => .bind .isWord fun _ => .branch (.nested (hr _)) (primary_planned hr) fun _ => ?_
  exact .bind (tail_planned hr) fun _ => .bind .isPunct fun _ =>
    .branch (argumentList_planned hr) .pure fun _ => .finish

theorem leftHandSide_planned : Planned (leftHandSide rules) :=
  .bind .here fun _ => .bind .isWord fun _ => .branch (newExpression_planned hr) (primary_planned hr)
    fun _ => tail_planned hr

theorem postfixed_planned : Planned (postfixed rules) :=
  .bind .here fun _ => .bind (leftHandSide_planned hr) fun _ => .bind .kind fun _ =>
    .bind .afterLineBreak fun _ => .ite (.detour .fail (.bind .next fun _ => .finish)) .pure

theorem unary_planned : Planned (unary rules) := by
  have sign : ∀ start k, Planned (do
      next
      let argument ← nested (rules .unary)
      finish start (.unary k argument)) :=
    fun _ _ => .bind .next fun _ => .bind (.nested (hr _)) fun _ => .finish
  have update : ∀ start k, Planned (do
      next
      let argument ← nested (rules .unary)
      if !argument.isSimpleTarget then throw (.fault ⟨start, 2, .invalidPrefix⟩)
      finish start (.update k true argument)) :=
    fun _ _ => .bind .next fun _ => .bind (.nested (hr _)) fun _ => .detour .throw .finish
  refine .bind .here fun start => .bind .kind fun k => ?_
  split
  · exact sign _ _
  · exact sign _ _
  · exact sign _ _
  · exact sign _ _
  · exact sign _ _
  · exact sign _ _
  · exact sign _ _
  · exact update _ _
  · exact update _ _
  · refine .bind .read fun _ => .ite (.bind .next fun _ => ?_) (postfixed_planned hr)
    exact .bind (.nested (hr _)) fun _ => .finish
  · exact postfixed_planned hr

theorem binary_planned {above : Nat} : Planned (binary rules above) := by
  refine .bind .here fun _ => .bind (unary_planned hr) fun first => .repeating (fun left => ?_) first
  exact .bind .kind fun _ => .bind .read fun _ => .ite .pure <| .bind .next fun _ =>
    .bind (hr _) fun _ => .map .finish

theorem conditional_planned : Planned (conditional rules) := by
  refine .bind .here fun _ => .bind (binary_planned hr) fun _ => .bind .accept fun _ => .ite ?_ .pure
  exact .bind (.withIn (hr _)) fun _ => .bind .expect fun _ => .bind (hr _) fun _ => .finish

theorem yieldExpression_planned : Planned (yieldExpression rules) :=
  .bind .here fun _ => .bind .next fun _ => .bind .afterLineBreak fun _ => .ite .finish <|
    .bind .accept fun _ => .bind startsExpression_planned fun _ => .optional (hr _) fun _ => .finish

theorem assignment_planned : Planned (assignment rules) := by
  refine .bind (.ask .arrow) fun _ => .ite (arrowFunction_planned hr) <| .bind .isWord fun _ =>
    .bind .read fun _ => .ite (yieldExpression_planned hr) <| .bind .here fun _ =>
      .bind (conditional_planned hr) fun _ => .bind .kind fun _ => .ite .pure ?_
  extract_lets rest
  have hrest : ∀ left, Planned (rest left) := fun _ =>
    .bind .next fun _ => .bind (hr _) fun _ => .finish
  clear_value rest
  exact .ite (.bind .target hrest) (.branch .pure .fail hrest)

/-! ## Statements -/

theorem declarator_planned : Planned (declarator rules) :=
  .bind .here fun _ => .bind (bindingTarget_planned hr) fun _ => .bind .accept fun _ =>
    .optional (hr _) fun _ => .finish

theorem declarators_planned {keyword : VarKeyword} : Planned (declarators rules keyword) := by
  refine .bind .here fun _ => .bind .next fun _ => .bind (declarator_planned hr) fun _ =>
    .bind (.collect ?_) fun _ => .finish
  exact .bind .accept fun _ => .ite (.bind (declarator_planned hr) fun _ => .pure) .pure

theorem variableStatement_planned {keyword : VarKeyword} :
    Planned (variableStatement rules keyword) :=
  .bind .here fun start => .bind (declarators_planned hr) fun t => .bind .semicolon fun _ =>
    .look (f := fun _ v => t.withRange start v.prevStop) fun _ _ => rfl

theorem condition_planned : Planned (condition rules) :=
  .bind .expect fun _ => .bind (.withIn (expression_planned hr)) fun _ => .bind .expect fun _ => .pure

theorem ifStatement_planned : Planned (ifStatement rules) :=
  .bind .here fun _ => .bind .next fun _ => .bind (condition_planned hr) fun _ => .bind (hr _) fun _ =>
    .bind .accept fun _ => .optional (hr _) fun _ => .finish

theorem whileStatement_planned : Planned (whileStatement rules) :=
  .bind .here fun _ => .bind .next fun _ => .bind (condition_planned hr) fun _ => .bind (hr _) fun _ =>
    .finish

theorem doStatement_planned : Planned (doStatement rules) :=
  .bind .here fun _ => .bind .next fun _ => .bind (hr _) fun _ => .bind .expect fun _ =>
    .bind (condition_planned hr) fun _ => .bind .accept fun _ => .finish

theorem optionalExpression_planned {close : Punctuator} : Planned (optionalExpression rules close) :=
  .bind .isPunct fun _ => .ite .pure (.map (expression_planned hr))

theorem forStatement_planned : Planned (forStatement rules) := by
  refine .bind .here fun _ => .bind .next fun _ => .bind .expect fun _ => .bind (.withoutIn ?_) fun init =>
    .bind .kind fun _ => ?_
  · refine .bind .isPunct fun _ => .ite .pure <| .bind declarationKeyword?_planned fun o => ?_
    split
    · exact .map (declarators_planned hr)
    · exact .map (expression_planned hr)
  extract_lets rest
  have hrest : ∀ each, Planned (rest each) := by
    intro each
    dsimp only [rest]
    split
    · have hbehind : ∀ e : Iteration, Planned (withIn (if e = .values then rules .assignment
          else expression rules)) := fun _ => .withIn (.ite (hr _) (expression_planned hr))
      split
      · exact .bind .pure fun _ => .bind .next fun _ => .bind (hbehind _) fun _ => .bind .expect fun _ =>
          .bind (hr _) fun _ => .finish
      · exact .bind .target fun _ => .bind .next fun _ => .bind (hbehind _) fun _ => .bind .expect fun _ =>
          .bind (hr _) fun _ => .finish
    · exact .bind .expect fun _ => .bind (optionalExpression_planned hr) fun _ => .bind .expect fun _ =>
        .bind (optionalExpression_planned hr) fun _ => .bind .expect fun _ => .bind (hr _) fun _ => .finish
  clear_value rest
  split <;> exact .bind .pure hrest

theorem returnStatement_planned : Planned (returnStatement rules) :=
  .bind .here fun _ => .bind .next fun _ => .bind .canEndStatement fun _ =>
    .branch .pure (.map (expression_planned hr)) fun _ => .bind .semicolon fun _ => .finish

theorem throwStatement_planned : Planned (throwStatement rules) :=
  .bind .here fun _ => .bind .next fun _ => .bind .afterLineBreak fun _ => .detour .fail <|
    .bind (expression_planned hr) fun _ => .bind .semicolon fun _ => .finish

theorem catchClause_planned : Planned (catchClause rules) := by
  refine .bind .here fun _ => .bind .next fun _ => .bind .accept fun _ => ?_
  extract_lets rest
  have hrest : ∀ param, Planned (rest param) := fun _ => .bind (block_planned hr) fun _ => .finish
  clear_value rest
  exact .ite (.bind (bindingTarget_planned hr) fun _ => .bind .expect fun _ => .bind .pure hrest)
    (.bind .pure hrest)

theorem tryStatement_planned : Planned (tryStatement rules) :=
  .bind .here fun _ => .bind .next fun _ => .bind (block_planned hr) fun _ => .bind .isWord fun _ =>
    .optional (catchClause_planned hr) fun _ => .bind .accept fun _ => .optional (block_planned hr)
      fun _ => .detour .fail .finish

theorem caseTest_planned : Planned (caseTest rules) :=
  .bind .accept fun _ => .ite (.bind (expression_planned hr) fun _ => .pure) <| .bind .accept fun _ =>
    .ite .pure .fail

theorem switchCase_planned : Planned (switchCase rules) := by
  refine .bind .here fun _ => .bind (caseTest_planned hr) fun _ => .bind .expect fun _ =>
    .bind (.collect (.bind .kind fun _ => ?_)) fun _ => .finish
  split
  · exact .pure
  · exact .pure
  · exact .pure
  · exact .pure
  · exact .bind (hr _) fun _ => .pure

theorem switchStatement_planned : Planned (switchStatement rules) := by
  refine .bind .here fun _ => .bind .next fun _ => .bind (condition_planned hr) fun _ =>
    .bind .expect fun _ => .bind (.collect ?_) fun _ => .bind .next fun _ => .finish
  exact .bind .isPunct fun _ => .ite .pure (.bind (switchCase_planned hr) fun _ => .pure)

theorem withStatement_planned : Planned (withStatement rules) :=
  .bind .here fun _ => .bind .next fun _ => .bind (condition_planned hr) fun _ => .bind (hr _) fun _ =>
    .finish

theorem labeledStatement_planned : Planned (labeledStatement rules) :=
  .bind .here fun _ => .bind .identifier fun _ => .bind .expect fun _ => .bind (hr _) fun _ => .finish

theorem expressionStatement_planned : Planned (expressionStatement rules) :=
  .bind .here fun _ => .bind (expression_planned hr) fun _ => .bind .semicolon fun _ => .finish

theorem plainStatement_planned : Planned (plainStatement rules) :=
  .bind .isIdentifier fun _ => .branch (.ask .label) .pure fun _ =>
    .ite (labeledStatement_planned hr) (expressionStatement_planned hr)

theorem statement_planned : Planned (statement rules) := by
  refine .bind .here fun _ => .bind .kind fun _ => ?_
  split
  · exact block_planned hr
  · exact .bind .next fun _ => .finish
  · exact variableStatement_planned hr
  · exact variableStatement_planned hr
  · exact .bind (.ask .letDeclaration) fun _ =>
      .ite (variableStatement_planned hr) (plainStatement_planned hr)
  · exact function_planned hr
  · exact .bind (.ask .asyncFunction) fun _ => .ite (function_planned hr) (plainStatement_planned hr)
  · exact classBody_planned hr
  · exact ifStatement_planned hr
  · exact forStatement_planned hr
  · exact whileStatement_planned hr
  · exact doStatement_planned hr
  · exact returnStatement_planned hr
  · exact jumpStatement_planned
  · exact jumpStatement_planned
  · exact throwStatement_planned hr
  · exact tryStatement_planned hr
  · exact switchStatement_planned hr
  · exact withStatement_planned hr
  · exact .bind .next fun _ => .bind .semicolon fun _ => .finish
  · exact .fail
  · exact .fail
  · exact plainStatement_planned hr

/-! ## Programs -/

/-- One round of the grammar. -/
theorem rule_planned (symbol : Nonterminal) : Planned (rule rules symbol) := by
  cases symbol with
  | statement => exact .nested (statement_planned hr)
  | assignment => exact .nested (assignment_planned hr)
  | unary => exact unary_planned hr
  | binary above => exact binary_planned hr
  | leftHandSide => exact leftHandSide_planned hr
  | new => exact newExpression_planned hr
  | bindingTarget => exact bindingTarget_planned hr

end Rules

theorem rules_planned (n : Nat) (symbol : Nonterminal) : Planned (Grammar.rules n symbol) := by
  induction n generalizing symbol with
  | zero => exact .fail
  | succ n ih => exact rule_planned ih symbol

theorem program_planned (stop depth : Nat) : Planned (program stop depth) := by
  refine .bind .next fun _ => .bind (.collect ?_) fun statements => ?_
  · exact .bind .isEnd fun _ => .ite .pure (.bind (rules_planned depth _) fun _ => .pure)
  · exact .look (f := fun _ v => .ofForm 0 stop (.program statements v.comments)) fun _ _ => rfl

end LoopClosure.Grammar
