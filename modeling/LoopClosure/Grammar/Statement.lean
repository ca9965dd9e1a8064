import LoopClosure.Grammar.Expression

/-!
# Statements
-/

namespace LoopClosure.Grammar

open Syntax Token

/-! ## Variables -/

/-- `let` declares where a name or a pattern follows it. -/
def targetFollows : Parse Bool := do
  next
  return (← isIdentifier) || (← isPunct .openBracket) || (← isPunct .openBrace)

def startsLet : Parse Bool := lookAhead targetFollows

def declarator (rules : Rules) : Parse Tree := do
  let start ← here
  let target ← bindingTarget rules
  let init ← if ← acceptPunct .equals then some <$> rules .assignment else pure none
  finish start (.declarator target init)

/-- Declarators behind their keyword, without a semicolon. -/
def declarators (rules : Rules) (keyword : VarKeyword) : Parse Tree := do
  let start ← here
  next
  let first ← declarator rules
  let others ← collect (behindComma (declarator rules))
  finish start (.bindings keyword (first :: others))

def variableStatement (rules : Rules) (keyword : VarKeyword) : Parse Tree := do
  let start ← here
  let t ← declarators rules keyword
  semicolon
  return t.withRange start (← get).prevStop

/-- The keyword of a declaration, if one begins here. -/
def declarationKeyword? : Parse (Option VarKeyword) := do
  match ← kind with
  | .word .kVar => return some .var
  | .word .kConst => return some .const
  | .word .kLet => if ← startsLet then return some .let_ else return none
  | _ => return none

/-! ## Control flow -/

def condition (rules : Rules) : Parse Tree := do
  expectPunct .openParen
  let e ← withIn (expression rules)
  expectPunct .closeParen
  return e

def ifStatement (rules : Rules) : Parse Tree := do
  let start ← here
  next
  let test ← condition rules
  let consequent ← rules .statement
  let alternate ← if ← acceptWord .kElse then some <$> rules .statement else pure none
  finish start (.ifElse test consequent alternate)

def whileStatement (rules : Rules) : Parse Tree := do
  let start ← here
  next
  let test ← condition rules
  let body ← rules .statement
  finish start (.whileLoop test body)

/-- The semicolon behind the condition is optional whatever follows. -/
def doStatement (rules : Rules) : Parse Tree := do
  let start ← here
  next
  let body ← rules .statement
  expect (.word .kWhile)
  let test ← condition rules
  let _ ← acceptPunct .semicolon
  finish start (.doWhile body test)

/-- An expression, unless `close` stands here. -/
def optionalExpression (rules : Rules) (close : Punctuator) : Parse (Option Tree) := do
  if ← isPunct close then return none else some <$> expression rules

def forStatement (rules : Rules) : Parse Tree := do
  let start ← here
  next
  expectPunct .openParen
  let init ← withoutIn do
    if ← isPunct .semicolon then return none
    match ← declarationKeyword? with
    | some keyword => some <$> declarators rules keyword
    | none => some <$> expression rules
  let each : Option Iteration ←
    match ← kind with
    | .word .kIn => pure (some .keys)
    | .word .kOf => pure (some .values)
    | _ => pure none
  match init, each with
  | some left, some each =>
    let left ←
      match left.form with
      | .bindings _ _ => pure left
      | _ => target left
    next
    let right ← withIn (if each = .values then rules .assignment else expression rules)
    expectPunct .closeParen
    let body ← rules .statement
    finish start (.forEach each left right body)
  | init, _ =>
    expectPunct .semicolon
    let test ← optionalExpression rules .semicolon
    expectPunct .semicolon
    let step ← optionalExpression rules .closeParen
    expectPunct .closeParen
    let body ← rules .statement
    finish start (.forLoop init test step body)

def returnStatement (rules : Rules) : Parse Tree := do
  let start ← here
  next
  let argument ← if ← canEndStatement then pure none else some <$> expression rules
  semicolon
  finish start (.returns argument)

def jumpStatement (jump : JumpKind) : Parse Tree := do
  let start ← here
  next
  let label ←
    if !(← canEndStatement) && (← isIdentifier) then some <$> identifier else pure none
  semicolon
  finish start (.jump jump label)

def throwStatement (rules : Rules) : Parse Tree := do
  let start ← here
  next
  if ← afterLineBreak then fail .lineBreak
  let argument ← expression rules
  semicolon
  finish start (.throws argument)

def catchClause (rules : Rules) : Parse Tree := do
  let start ← here
  next
  let param ←
    if ← acceptPunct .openParen then do
      let param ← bindingTarget rules
      expectPunct .closeParen
      pure (some param)
    else pure none
  let body ← block rules
  finish start (.catchClause param body)

def tryStatement (rules : Rules) : Parse Tree := do
  let start ← here
  next
  let body ← block rules
  let handler ← if ← isWord .kCatch then some <$> catchClause rules else pure none
  let finalizer ← if ← acceptWord .kFinally then some <$> block rules else pure none
  if handler.isNone && finalizer.isNone then fail .catchOrFinallyExpected
  finish start (.tryCatch body handler finalizer)

/-- What a case compares with; `none` for the default. -/
def caseTest (rules : Rules) : Parse (Option Tree) := do
  if ← acceptWord .kCase then return some (← expression rules)
  if ← acceptWord .kDefault then return none
  fail .caseOrDefaultExpected

/-- A statement of a case. -/
def consequentItem (rules : Rules) : Parse (Option Tree) := do
  match ← kind with
  | .word .kCase | .word .kDefault | .punct .closeBrace | .endOfFile => return none
  | _ => return some (← rules .statement)

def switchCase (rules : Rules) : Parse Tree := do
  let start ← here
  let test ← caseTest rules
  expectPunct .colon
  let consequent ← collect (consequentItem rules)
  finish start (.switchCase test consequent)

def caseItem (rules : Rules) : Parse (Option Tree) := do
  if ← isPunct .closeBrace then return none
  return some (← switchCase rules)

def switchStatement (rules : Rules) : Parse Tree := do
  let start ← here
  next
  let discriminant ← condition rules
  expectPunct .openBrace
  let cases ← collect (caseItem rules)
  next
  finish start (.switch discriminant cases)

def withStatement (rules : Rules) : Parse Tree := do
  let start ← here
  next
  let object ← condition rules
  let body ← rules .statement
  finish start (.withObject object body)

def labeledStatement (rules : Rules) : Parse Tree := do
  let start ← here
  let label ← identifier
  expectPunct .colon
  let body ← rules .statement
  finish start (.labeled label body)

def expressionStatement (rules : Rules) : Parse Tree := do
  let start ← here
  let e ← expression rules
  semicolon
  finish start (.expression e)

def colonFollows : Parse Bool := do
  next
  isPunct .colon

/-- A statement that no keyword begins. -/
def plainStatement (rules : Rules) : Parse Tree := do
  let labeled ← if ← isIdentifier then lookAhead colonFollows else pure false
  if labeled then labeledStatement rules else expressionStatement rules

def statement (rules : Rules) : Parse Tree := do
  let start ← here
  match ← kind with
  | .punct .openBrace => block rules
  | .punct .semicolon =>
    next
    finish start .empty
  | .word .kVar => variableStatement rules .var
  | .word .kConst => variableStatement rules .const
  | .word .kLet =>
    if ← startsLet then variableStatement rules .let_ else plainStatement rules
  | .word .kFunction => function rules .declaration
  | .word .kAsync =>
    if ← startsAsyncFunction then function rules .declaration else plainStatement rules
  | .word .kClass => classBody rules .declaration
  | .word .kIf => ifStatement rules
  | .word .kFor => forStatement rules
  | .word .kWhile => whileStatement rules
  | .word .kDo => doStatement rules
  | .word .kReturn => returnStatement rules
  | .word .kBreak => jumpStatement .toEnd
  | .word .kContinue => jumpStatement .toNext
  | .word .kThrow => throwStatement rules
  | .word .kTry => tryStatement rules
  | .word .kSwitch => switchStatement rules
  | .word .kWith => withStatement rules
  | .word .kDebugger =>
    next
    semicolon
    finish start .debugger
  | .word .kImport | .word .kExport => fail .moduleSyntax
  | _ => plainStatement rules

end LoopClosure.Grammar
