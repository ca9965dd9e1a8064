import LoopClosure.Token.Kind

/-!
# Names of token kinds

How a token dump names each kind: punctuators end in `Token`, words in `Keyword`.
-/

namespace LoopClosure.Token

def Punctuator.name : Punctuator → String
  | .openBrace => "OpenBraceToken"
  | .closeBrace => "CloseBraceToken"
  | .openParen => "OpenParenToken"
  | .closeParen => "CloseParenToken"
  | .openBracket => "OpenBracketToken"
  | .closeBracket => "CloseBracketToken"
  | .dot => "DotToken"
  | .ellipsis => "DotDotDotToken"
  | .semicolon => "SemicolonToken"
  | .comma => "CommaToken"
  | .questionDot => "QuestionDotToken"
  | .less => "LessThanToken"
  | .greater => "GreaterThanToken"
  | .lessEquals => "LessThanEqualsToken"
  | .greaterEquals => "GreaterThanEqualsToken"
  | .equalsEquals => "EqualsEqualsToken"
  | .bangEquals => "ExclamationEqualsToken"
  | .equalsEqualsEquals => "EqualsEqualsEqualsToken"
  | .bangEqualsEquals => "ExclamationEqualsEqualsToken"
  | .arrow => "EqualsGreaterThanToken"
  | .plus => "PlusToken"
  | .minus => "MinusToken"
  | .star => "AsteriskToken"
  | .starStar => "AsteriskAsteriskToken"
  | .slash => "SlashToken"
  | .percent => "PercentToken"
  | .plusPlus => "PlusPlusToken"
  | .minusMinus => "MinusMinusToken"
  | .shiftLeft => "LessThanLessThanToken"
  | .shiftRight => "GreaterThanGreaterThanToken"
  | .shiftRightZero => "GreaterThanGreaterThanGreaterThanToken"
  | .ampersand => "AmpersandToken"
  | .bar => "BarToken"
  | .caret => "CaretToken"
  | .bang => "ExclamationToken"
  | .tilde => "TildeToken"
  | .ampersandAmpersand => "AmpersandAmpersandToken"
  | .barBar => "BarBarToken"
  | .question => "QuestionToken"
  | .colon => "ColonToken"
  | .questionQuestion => "QuestionQuestionToken"
  | .equals => "EqualsToken"
  | .plusEquals => "PlusEqualsToken"
  | .minusEquals => "MinusEqualsToken"
  | .starEquals => "AsteriskEqualsToken"
  | .starStarEquals => "AsteriskAsteriskEqualsToken"
  | .slashEquals => "SlashEqualsToken"
  | .percentEquals => "PercentEqualsToken"
  | .shiftLeftEquals => "LessThanLessThanEqualsToken"
  | .shiftRightEquals => "GreaterThanGreaterThanEqualsToken"
  | .shiftRightZeroEquals => "GreaterThanGreaterThanGreaterThanEqualsToken"
  | .ampersandEquals => "AmpersandEqualsToken"
  | .barEquals => "BarEqualsToken"
  | .caretEquals => "CaretEqualsToken"
  | .ampersandAmpersandEquals => "AmpersandAmpersandEqualsToken"
  | .barBarEquals => "BarBarEqualsToken"
  | .questionQuestionEquals => "QuestionQuestionEqualsToken"

def Keyword.name : Keyword → String
  | .kBreak => "BreakKeyword"
  | .kCase => "CaseKeyword"
  | .kCatch => "CatchKeyword"
  | .kClass => "ClassKeyword"
  | .kConst => "ConstKeyword"
  | .kContinue => "ContinueKeyword"
  | .kDebugger => "DebuggerKeyword"
  | .kDefault => "DefaultKeyword"
  | .kDelete => "DeleteKeyword"
  | .kDo => "DoKeyword"
  | .kElse => "ElseKeyword"
  | .kEnum => "EnumKeyword"
  | .kExport => "ExportKeyword"
  | .kExtends => "ExtendsKeyword"
  | .kFalse => "FalseKeyword"
  | .kFinally => "FinallyKeyword"
  | .kFor => "ForKeyword"
  | .kFunction => "FunctionKeyword"
  | .kIf => "IfKeyword"
  | .kImport => "ImportKeyword"
  | .kIn => "InKeyword"
  | .kInstanceOf => "InstanceOfKeyword"
  | .kNew => "NewKeyword"
  | .kNull => "NullKeyword"
  | .kReturn => "ReturnKeyword"
  | .kSuper => "SuperKeyword"
  | .kSwitch => "SwitchKeyword"
  | .kThis => "ThisKeyword"
  | .kThrow => "ThrowKeyword"
  | .kTrue => "TrueKeyword"
  | .kTry => "TryKeyword"
  | .kTypeOf => "TypeOfKeyword"
  | .kVar => "VarKeyword"
  | .kVoid => "VoidKeyword"
  | .kWhile => "WhileKeyword"
  | .kWith => "WithKeyword"
  | .kAsync => "AsyncKeyword"
  | .kAwait => "AwaitKeyword"
  | .kGet => "GetKeyword"
  | .kLet => "LetKeyword"
  | .kOf => "OfKeyword"
  | .kSet => "SetKeyword"
  | .kStatic => "StaticKeyword"
  | .kYield => "YieldKeyword"

def TemplatePart.name : TemplatePart → String
  | .noSubstitution => "NoSubstitutionTemplateLiteral"
  | .head => "TemplateHead"
  | .middle => "TemplateMiddle"
  | .tail => "TemplateTail"

def Kind.name : Kind → String
  | .unknown => "Unknown"
  | .endOfFile => "EndOfFileToken"
  | .number => "NumericLiteral"
  | .string => "StringLiteral"
  | .regExp => "RegularExpressionLiteral"
  | .template part => part.name
  | .identifier => "Identifier"
  | .punct p => p.name
  | .word k => k.name

end LoopClosure.Token
