/-!
# Token kinds

The tokens of the language: punctuators and keywords with their spelling, literals, template parts
and identifiers. A keyword is either reserved or contextual; a contextual one is an identifier
wherever its own construct does not claim it.
-/

namespace LoopClosure.Token

/-- Punctuators, longest spelling first among those with a common beginning. -/
inductive Punctuator where
  | openBrace | closeBrace | openParen | closeParen | openBracket | closeBracket | dot | ellipsis
  | semicolon | comma | questionDot | less | greater | lessEquals | greaterEquals | equalsEquals
  | bangEquals | equalsEqualsEquals | bangEqualsEquals | arrow | plus | minus | star | starStar
  | slash | percent | plusPlus | minusMinus | shiftLeft | shiftRight | shiftRightZero | ampersand
  | bar | caret | bang | tilde | ampersandAmpersand | barBar | question | colon
  | questionQuestion | equals | plusEquals | minusEquals | starEquals | starStarEquals
  | slashEquals | percentEquals | shiftLeftEquals | shiftRightEquals | shiftRightZeroEquals
  | ampersandEquals | barEquals | caretEquals | ampersandAmpersandEquals | barBarEquals
  | questionQuestionEquals
deriving DecidableEq, Repr

/-- Words of the language; the last eight are contextual. -/
inductive Keyword where
  | kBreak | kCase | kCatch | kClass | kConst | kContinue | kDebugger | kDefault | kDelete | kDo
  | kElse | kEnum | kExport | kExtends | kFalse | kFinally | kFor | kFunction | kIf | kImport
  | kIn | kInstanceOf | kNew | kNull | kReturn | kSuper | kSwitch | kThis | kThrow | kTrue | kTry
  | kTypeOf | kVar | kVoid | kWhile | kWith | kAsync | kAwait | kGet | kLet | kOf | kSet
  | kStatic | kYield
deriving DecidableEq, Repr

/-- The four shapes of a piece of a template literal. -/
inductive TemplatePart where
  | noSubstitution | head | middle | tail
deriving DecidableEq, Repr

inductive Kind where
  | unknown | endOfFile | number | string | regExp
  | template (part : TemplatePart)
  | identifier
  | punct (p : Punctuator)
  | word (k : Keyword)
deriving DecidableEq, Repr

namespace Punctuator

def chars : Punctuator → List Char
  | .openBrace => ['{']
  | .closeBrace => ['}']
  | .openParen => ['(']
  | .closeParen => [')']
  | .openBracket => ['[']
  | .closeBracket => [']']
  | .dot => ['.']
  | .ellipsis => ['.', '.', '.']
  | .semicolon => [';']
  | .comma => [',']
  | .questionDot => ['?', '.']
  | .less => ['<']
  | .greater => ['>']
  | .lessEquals => ['<', '=']
  | .greaterEquals => ['>', '=']
  | .equalsEquals => ['=', '=']
  | .bangEquals => ['!', '=']
  | .equalsEqualsEquals => ['=', '=', '=']
  | .bangEqualsEquals => ['!', '=', '=']
  | .arrow => ['=', '>']
  | .plus => ['+']
  | .minus => ['-']
  | .star => ['*']
  | .starStar => ['*', '*']
  | .slash => ['/']
  | .percent => ['%']
  | .plusPlus => ['+', '+']
  | .minusMinus => ['-', '-']
  | .shiftLeft => ['<', '<']
  | .shiftRight => ['>', '>']
  | .shiftRightZero => ['>', '>', '>']
  | .ampersand => ['&']
  | .bar => ['|']
  | .caret => ['^']
  | .bang => ['!']
  | .tilde => ['~']
  | .ampersandAmpersand => ['&', '&']
  | .barBar => ['|', '|']
  | .question => ['?']
  | .colon => [':']
  | .questionQuestion => ['?', '?']
  | .equals => ['=']
  | .plusEquals => ['+', '=']
  | .minusEquals => ['-', '=']
  | .starEquals => ['*', '=']
  | .starStarEquals => ['*', '*', '=']
  | .slashEquals => ['/', '=']
  | .percentEquals => ['%', '=']
  | .shiftLeftEquals => ['<', '<', '=']
  | .shiftRightEquals => ['>', '>', '=']
  | .shiftRightZeroEquals => ['>', '>', '>', '=']
  | .ampersandEquals => ['&', '=']
  | .barEquals => ['|', '=']
  | .caretEquals => ['^', '=']
  | .ampersandAmpersandEquals => ['&', '&', '=']
  | .barBarEquals => ['|', '|', '=']
  | .questionQuestionEquals => ['?', '?', '=']

/-- All punctuators, longer spellings first. -/
def all : List Punctuator := [
  .shiftRightZeroEquals, .ellipsis, .equalsEqualsEquals, .bangEqualsEquals, .shiftRightZero,
  .starStarEquals, .shiftLeftEquals, .shiftRightEquals, .ampersandAmpersandEquals, .barBarEquals,
  .questionQuestionEquals, .questionDot, .lessEquals, .greaterEquals, .equalsEquals, .bangEquals,
  .arrow, .starStar, .plusPlus, .minusMinus, .shiftLeft, .shiftRight, .ampersandAmpersand,
  .barBar, .questionQuestion, .plusEquals, .minusEquals, .starEquals, .slashEquals,
  .percentEquals, .ampersandEquals, .barEquals, .caretEquals, .openBrace, .closeBrace,
  .openParen, .closeParen, .openBracket, .closeBracket, .dot, .semicolon, .comma, .less,
  .greater, .plus, .minus, .star, .slash, .percent, .ampersand, .bar, .caret, .bang, .tilde,
  .question, .colon, .equals]

/-- `=` and the compound assignments. -/
def isAssignment : Punctuator → Bool
  | .equals | .plusEquals | .minusEquals | .starEquals | .starStarEquals | .slashEquals
  | .percentEquals | .shiftLeftEquals | .shiftRightEquals | .shiftRightZeroEquals
  | .ampersandEquals | .barEquals | .caretEquals | .ampersandAmpersandEquals | .barBarEquals
  | .questionQuestionEquals => true
  | _ => false

/-- Binding strength as a binary operator, higher binds tighter; 0 for all others. -/
def precedence : Punctuator → Nat
  | .questionQuestion => 1
  | .barBar => 2
  | .ampersandAmpersand => 3
  | .bar => 4
  | .caret => 5
  | .ampersand => 6
  | .equalsEquals | .bangEquals | .equalsEqualsEquals | .bangEqualsEquals => 7
  | .less | .greater | .lessEquals | .greaterEquals => 8
  | .shiftLeft | .shiftRight | .shiftRightZero => 9
  | .plus | .minus => 10
  | .star | .slash | .percent => 11
  | .starStar => 12
  | _ => 0

end Punctuator

namespace Keyword

def chars : Keyword → List Char
  | .kBreak => ['b', 'r', 'e', 'a', 'k']
  | .kCase => ['c', 'a', 's', 'e']
  | .kCatch => ['c', 'a', 't', 'c', 'h']
  | .kClass => ['c', 'l', 'a', 's', 's']
  | .kConst => ['c', 'o', 'n', 's', 't']
  | .kContinue => ['c', 'o', 'n', 't', 'i', 'n', 'u', 'e']
  | .kDebugger => ['d', 'e', 'b', 'u', 'g', 'g', 'e', 'r']
  | .kDefault => ['d', 'e', 'f', 'a', 'u', 'l', 't']
  | .kDelete => ['d', 'e', 'l', 'e', 't', 'e']
  | .kDo => ['d', 'o']
  | .kElse => ['e', 'l', 's', 'e']
  | .kEnum => ['e', 'n', 'u', 'm']
  | .kExport => ['e', 'x', 'p', 'o', 'r', 't']
  | .kExtends => ['e', 'x', 't', 'e', 'n', 'd', 's']
  | .kFalse => ['f', 'a', 'l', 's', 'e']
  | .kFinally => ['f', 'i', 'n', 'a', 'l', 'l', 'y']
  | .kFor => ['f', 'o', 'r']
  | .kFunction => ['f', 'u', 'n', 'c', 't', 'i', 'o', 'n']
  | .kIf => ['i', 'f']
  | .kImport => ['i', 'm', 'p', 'o', 'r', 't']
  | .kIn => ['i', 'n']
  | .kInstanceOf => ['i', 'n', 's', 't', 'a', 'n', 'c', 'e', 'o', 'f']
  | .kNew => ['n', 'e', 'w']
  | .kNull => ['n', 'u', 'l', 'l']
  | .kReturn => ['r', 'e', 't', 'u', 'r', 'n']
  | .kSuper => ['s', 'u', 'p', 'e', 'r']
  | .kSwitch => ['s', 'w', 'i', 't', 'c', 'h']
  | .kThis => ['t', 'h', 'i', 's']
  | .kThrow => ['t', 'h', 'r', 'o', 'w']
  | .kTrue => ['t', 'r', 'u', 'e']
  | .kTry => ['t', 'r', 'y']
  | .kTypeOf => ['t', 'y', 'p', 'e', 'o', 'f']
  | .kVar => ['v', 'a', 'r']
  | .kVoid => ['v', 'o', 'i', 'd']
  | .kWhile => ['w', 'h', 'i', 'l', 'e']
  | .kWith => ['w', 'i', 't', 'h']
  | .kAsync => ['a', 's', 'y', 'n', 'c']
  | .kAwait => ['a', 'w', 'a', 'i', 't']
  | .kGet => ['g', 'e', 't']
  | .kLet => ['l', 'e', 't']
  | .kOf => ['o', 'f']
  | .kSet => ['s', 'e', 't']
  | .kStatic => ['s', 't', 'a', 't', 'i', 'c']
  | .kYield => ['y', 'i', 'e', 'l', 'd']

def all : List Keyword := [
  .kBreak, .kCase, .kCatch, .kClass, .kConst, .kContinue, .kDebugger, .kDefault, .kDelete, .kDo,
  .kElse, .kEnum, .kExport, .kExtends, .kFalse, .kFinally, .kFor, .kFunction, .kIf, .kImport,
  .kIn, .kInstanceOf, .kNew, .kNull, .kReturn, .kSuper, .kSwitch, .kThis, .kThrow, .kTrue, .kTry,
  .kTypeOf, .kVar, .kVoid, .kWhile, .kWith, .kAsync, .kAwait, .kGet, .kLet, .kOf, .kSet, .kStatic,
  .kYield]

def isContextual : Keyword → Bool
  | .kAsync | .kAwait | .kGet | .kLet | .kOf | .kSet | .kStatic | .kYield => true
  | _ => false

def isReserved (k : Keyword) : Bool := !k.isContextual

def ofChars? (cs : List Char) : Option Keyword := all.find? (·.chars = cs)

/-- `in` is an operator only where `allowIn` holds. -/
def precedence (allowIn : Bool) : Keyword → Nat
  | .kInstanceOf => 8
  | .kIn => if allowIn then 8 else 0
  | _ => 0

theorem mem_all (k : Keyword) : k ∈ all := by cases k <;> decide

theorem ofChars?_chars (k : Keyword) : ofChars? k.chars = some k := by cases k <;> decide

theorem chars_of_ofChars? {cs : List Char} {k : Keyword} (h : ofChars? cs = some k) :
    k.chars = cs := by
  simpa using List.find?_some h

end Keyword

namespace Kind

def isReserved : Kind → Bool
  | .word k => k.isReserved
  | _ => false

def isContextual : Kind → Bool
  | .word k => k.isContextual
  | _ => false

def isKeyword : Kind → Bool
  | .word _ => true
  | _ => false

/-- Usable as a property name. -/
def isName : Kind → Bool
  | .identifier | .word _ => true
  | _ => false

def isAssignment : Kind → Bool
  | .punct p => p.isAssignment
  | _ => false

def precedence (allowIn : Bool) : Kind → Nat
  | .punct p => p.precedence
  | .word k => k.precedence allowIn
  | _ => 0

/-- The spelling of a fixed token, and a description of the others. -/
def chars : Kind → List Char
  | .unknown => "<unknown>".toList
  | .endOfFile => "end of file".toList
  | .number => "number".toList
  | .string => "string".toList
  | .regExp => "regular expression".toList
  | .template _ => "template".toList
  | .identifier => "identifier".toList
  | .punct p => p.chars
  | .word k => k.chars

def text (k : Kind) : String := String.ofList k.chars

end Kind

end LoopClosure.Token
