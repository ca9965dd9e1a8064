import LoopClosure.Comment
import LoopClosure.Text.CharClass
import LoopClosure.Token.Kind

/-!
# The lexer

`Lexer` is the state of a reader that moves over a text one token at a time. Two tokens depend on
their surroundings and are read again on request: `/`, which may begin a regular expression
(`rescanSlash`), and the brace that closes a substitution of a template (`rescanTemplate`). Comments
and malformed lexemes are recorded beside the tokens and never stop the reader.

Every scan is structural on the characters left, so the reader is total. Offsets are those of
`Text.Cursor`: in 32 bits they fit below `2 ^ 32` bytes.
-/

namespace LoopClosure.Token

open Text (Cursor isLineBreak isIdentifierStart isIdentifierPart isDigitOf)

/-- A malformed lexeme. -/
inductive LexError where
  | unclosedComment
  | unterminatedString
  | unterminatedTemplate
  | unterminatedRegExp
  | identifierAfterNumber
  | escapedIdentifier
  | invalidCharacter (c : Char)
deriving DecidableEq, Repr

def LexError.message : LexError → String
  | .unclosedComment => "'*/' expected"
  | .unterminatedString => "Unterminated string literal"
  | .unterminatedTemplate => "Unterminated template literal"
  | .unterminatedRegExp => "Unterminated regular expression literal"
  | .identifierAfterNumber => "An identifier cannot immediately follow a numeric literal"
  | .escapedIdentifier => "Unicode escapes in identifiers are not supported"
  | .invalidCharacter c => "Invalid character '" ++ String.singleton c ++ "'"

/-- A malformed lexeme and the bytes it is reported at. -/
structure LexDiagnostic where
  start : Nat
  length : Nat
  error : LexError
deriving DecidableEq, Repr

/-! ## Trivia -/

/-- What surrounds the next character: nothing, or a comment that began at `start`. -/
inductive TriviaMode where
  | between
  | line (start : Nat)
  | block (start : Nat)
deriving DecidableEq, Repr

/-- What was passed in front of a token. -/
structure Trivia where
  stop : Cursor
  lineBreak : Bool
  comments : List Comment
  errors : List LexDiagnostic
deriving DecidableEq, Repr

def Trivia.withBreak (t : Trivia) : Trivia := { t with lineBreak := true }

def Trivia.withComment (c : Comment) (t : Trivia) : Trivia := { t with comments := c :: t.comments }

/-- Blanks, line breaks and comments from offset `n` on. -/
def trivia (mode : TriviaMode) (n : Nat) : List Char → Trivia
  | [] =>
    match mode with
    | .between => ⟨⟨n, []⟩, false, [], []⟩
    | .line start => ⟨⟨n, []⟩, false, [⟨start, n, false⟩], []⟩
    | .block start => ⟨⟨n, []⟩, false, [⟨start, n, true⟩], [⟨start, n - start, .unclosedComment⟩]⟩
  | c :: cs =>
    match mode with
    | .between =>
      if isLineBreak c then (trivia .between (n + c.utf8Size) cs).withBreak
      else if Text.isWhiteSpace c || c = '\ufeff' then trivia .between (n + c.utf8Size) cs
      else if c = '/' then
        match cs with
        | '/' :: ds => trivia (.line n) (n + 2) ds
        | '*' :: ds => trivia (.block n) (n + 2) ds
        | _ => ⟨⟨n, c :: cs⟩, false, [], []⟩
      else ⟨⟨n, c :: cs⟩, false, [], []⟩
    | .line start =>
      if isLineBreak c then
        ((trivia .between (n + c.utf8Size) cs).withBreak).withComment ⟨start, n, false⟩
      else trivia (.line start) (n + c.utf8Size) cs
    | .block start =>
      if c = '*' then
        match cs with
        | '/' :: ds => (trivia .between (n + 2) ds).withComment ⟨start, n + 2, true⟩
        | ds => trivia (.block start) (n + 1) ds
      else if isLineBreak c then (trivia (.block start) (n + c.utf8Size) cs).withBreak
      else trivia (.block start) (n + c.utf8Size) cs

/-! ## Literals -/

/-- The end of a string literal, from behind its opening quote, and whether it was closed. A
backslash protects the next character, and a pair of carriage return and line feed as one. -/
def stringEnd (quote : Char) (n : Nat) : List Char → Cursor × Bool
  | [] => (⟨n, []⟩, false)
  | c :: cs =>
    if c = quote then (⟨n + 1, cs⟩, true)
    else if c = '\\' then
      match cs with
      | [] => (⟨n + 1, []⟩, false)
      | '\r' :: '\n' :: ds => stringEnd quote (n + 3) ds
      | d :: ds => stringEnd quote (n + 1 + d.utf8Size) ds
    else if c = '\n' || c = '\r' then (⟨n, c :: cs⟩, false)
    else stringEnd quote (n + c.utf8Size) cs

/-- How a piece of a template ends. -/
inductive TemplateEnd where
  | closed | substitution | unterminated
deriving DecidableEq, Repr

/-- The end of a piece of a template, from behind its opening backtick or brace. -/
def templateEnd (n : Nat) : List Char → Cursor × TemplateEnd
  | [] => (⟨n, []⟩, .unterminated)
  | c :: cs =>
    if c = '`' then (⟨n + 1, cs⟩, .closed)
    else if c = '$' then
      match cs with
      | '{' :: ds => (⟨n + 2, ds⟩, .substitution)
      | ds => templateEnd (n + 1) ds
    else if c = '\\' then
      match cs with
      | [] => (⟨n + 1, []⟩, .unterminated)
      | d :: ds => templateEnd (n + 1 + d.utf8Size) ds
    else templateEnd (n + c.utf8Size) cs

/-- The end of the body of a regular expression, and whether its closing slash was found. A slash
inside a class `[…]` does not close it. -/
def regExpEnd (inClass : Bool) (n : Nat) : List Char → Cursor × Bool
  | [] => (⟨n, []⟩, false)
  | c :: cs =>
    if isLineBreak c then (⟨n, c :: cs⟩, false)
    else if c = '\\' then
      match cs with
      | [] => (⟨n + 1, []⟩, false)
      | d :: ds =>
        if isLineBreak d then (⟨n + 1, d :: ds⟩, false)
        else regExpEnd inClass (n + 1 + d.utf8Size) ds
    else if c = '[' then regExpEnd true (n + 1) cs
    else if c = ']' then regExpEnd false (n + 1) cs
    else if c = '/' && !inClass then (⟨n + 1, cs⟩, true)
    else regExpEnd inClass (n + c.utf8Size) cs

/-- Digits of a radix, and underscores anywhere among them. -/
def digitsEnd (radix : Nat) (c : Cursor) : Cursor := c.skipWhile fun d => d = '_' || isDigitOf radix d

/-- The radix of the digits behind a leading zero, if a letter names one. -/
def radixOf? : List Char → Option Nat
  | '0' :: d :: _ =>
    if d = 'x' || d = 'X' then some 16
    else if d = 'o' || d = 'O' then some 8
    else if d = 'b' || d = 'B' then some 2
    else none
  | _ => none

/-- An exponent counts only if a digit follows its letter and sign. -/
def exponentEnd (c : Cursor) : Cursor :=
  match c.rest with
  | e :: s :: d :: _ =>
    if (e = 'e' || e = 'E') then
      if (s = '+' || s = '-') then if d.isDigit then digitsEnd 10 (c.skip 2) else c
      else if s.isDigit then digitsEnd 10 c.next else c
    else c
  | [e, s] => if (e = 'e' || e = 'E') && s.isDigit then digitsEnd 10 c.next else c
  | _ => c

/-- The end of a number, and whether an identifier may not follow at once. A literal with a radix
or the suffix `n` makes no such demand. -/
def numberEnd (c : Cursor) : Cursor × Bool :=
  match radixOf? c.rest with
  | some radix =>
    let e := digitsEnd radix (c.skip 2)
    (if e.peek? = some 'n' then e.next else e, false)
  | none =>
    let e := digitsEnd 10 c
    if e.peek? = some 'n' then (e.next, false)
    else
      let e := if e.peek? = some '.' then digitsEnd 10 e.next else e
      (exponentEnd e, true)

/-! ## Punctuators -/

/-- Whether the spelling of `p` begins `cs`. The mark `?.` is none in front of a digit, where it
is a conditional with a fraction. -/
def Punctuator.begins (p : Punctuator) (cs : List Char) : Bool :=
  p.chars.isPrefixOf cs &&
    !(p = .questionDot && (cs[2]?.map (·.isDigit)).getD false)

/-- The longest punctuator that begins `cs`. -/
def Punctuator.first? (cs : List Char) : Option Punctuator := all.find? (·.begins cs)

/-! ## The reader -/

structure Lexer where
  /-- Behind the current token. -/
  cursor : Cursor
  kind : Kind
  /-- At the first character of the current token. -/
  start : Cursor
  /-- Text of the current token; empty before the first. -/
  value : String
  /-- Whether a line break stands between the current token and the one before. -/
  lineBreak : Bool
  comments : Array Comment
  errors : Array LexDiagnostic
deriving DecidableEq, Repr

namespace Lexer

def ofText (cs : List Char) : Lexer :=
  ⟨.ofText cs, .unknown, .ofText cs, "", false, #[], #[]⟩

/-- Text from the start of the current token up to the cursor. -/
def text (l : Lexer) : String := String.ofList (l.start.upTo l.cursor.offset)

/-- A first line that begins with `#!` is passed over. -/
def skipShebang (l : Lexer) : Lexer :=
  match l.cursor with
  | ⟨0, '#' :: '!' :: _⟩ => { l with cursor := l.cursor.skipWhile fun c => !isLineBreak c }
  | _ => l

def report (l : Lexer) (start length : Nat) (e : LexError) : Lexer :=
  { l with errors := l.errors.push ⟨start, length, e⟩ }

def finish (l : Lexer) (kind : Kind) (stop : Cursor) : Lexer :=
  let l := { l with kind, cursor := stop }
  { l with value := l.text }

/-- The rest of a template piece from behind its first character; `opening` if that is a backtick. -/
def finishTemplate (l : Lexer) (opening : Bool) (first : Cursor) : Lexer :=
  let (stop, how) := templateEnd first.offset first.rest
  let last := if opening then TemplatePart.noSubstitution else .tail
  match how with
  | .closed => l.finish (.template last) stop
  | .substitution => l.finish (.template (if opening then .head else .middle)) stop
  | .unterminated =>
    (l.finish (.template last) stop).report l.start.offset (stop.offset - l.start.offset)
      .unterminatedTemplate

/-- The token that begins with `c` at the cursor. -/
def token (l : Lexer) (c : Char) : Lexer :=
  let cur := l.cursor
  if c = '"' || c = '\'' then
    let (stop, closed) := stringEnd c cur.next.offset cur.next.rest
    let l' := l.finish .string stop
    if closed then l' else l'.report cur.offset (stop.offset - cur.offset) .unterminatedString
  else if c = '`' then l.finishTemplate true cur.next
  else if c.isDigit || (c = '.' && (cur.next.peek?.map (·.isDigit)).getD false) then
    let (stop, bare) := numberEnd cur
    let l' := l.finish .number stop
    match stop.peek? with
    | some d =>
      if bare && isIdentifierStart d then l'.report stop.offset d.utf8Size .identifierAfterNumber
      else l'
    | none => l'
  else if isIdentifierStart c then
    let stop := cur.skipWhile isIdentifierPart
    match Keyword.ofChars? (cur.upTo stop.offset) with
    | some k => l.finish (.word k) stop
    | none => l.finish .identifier stop
  else if c = '\\' then (l.finish .unknown cur.next).report cur.offset 1 .escapedIdentifier
  else
    match Punctuator.first? cur.rest with
    | some p => l.finish (.punct p) (cur.skip p.chars.length)
    | none => (l.finish .unknown cur.next).report cur.offset c.utf8Size (.invalidCharacter c)

/-- Moves to the next token. At the end of the text it stays there. -/
def scan (l : Lexer) : Lexer :=
  let t := trivia .between l.cursor.offset l.cursor.rest
  let l : Lexer :=
    { cursor := t.stop, kind := .endOfFile, start := t.stop, value := "", lineBreak := t.lineBreak
      comments := l.comments ++ t.comments
      errors := l.errors ++ t.errors }
  match t.stop.peek? with
  | none => l
  | some c => l.token c

/-- Reads a `/` or `/=` again as a regular expression. -/
def rescanSlash (l : Lexer) : Lexer :=
  if l.kind = .punct .slash || l.kind = .punct .slashEquals then
    let first := l.start.next
    let (stop, closed) := regExpEnd false first.offset first.rest
    let l' := l.finish .regExp (stop.skipWhile isIdentifierPart)
    if closed then l'
    else l'.report l.start.offset (stop.offset - l.start.offset) .unterminatedRegExp
  else l

/-- Reads a closing brace again as the continuation of a template. -/
def rescanTemplate (l : Lexer) : Lexer :=
  if l.kind = .punct .closeBrace then l.finishTemplate false l.start.next else l

/-- Goes back to an earlier state. Comments and errors recorded since are dropped; those taken out
in the meantime stay out. -/
def restore (l saved : Lexer) : Lexer :=
  { saved with
    comments := l.comments.take saved.comments.size
    errors := l.errors.take saved.errors.size }

def takeComments (l : Lexer) : Lexer := { l with comments := #[] }

/-- The character behind the current token. -/
def nextChar? (l : Lexer) : Option Char := l.cursor.peek?

end Lexer

end LoopClosure.Token
