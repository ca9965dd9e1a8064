import LoopClosure.Proofs.Token.Literals

/-!
# Malformed tokens

What is wrong with a token is told by its characters and the one behind it (`Malformed`): a literal
without its closing delimiter (`Delimited`), a name right behind a number, a character that begins no
token. However the lexer reads a token, it reports what is wrong with it and nothing else
(`Lexer.Reads`, `token_reads`, `rescanSlash_reads`, `rescanTemplate_reads`).
-/

namespace LoopClosure.Token

open Text (Cursor isLineBreak isIdentifierStart isIdentifierPart size)
open Text.Cursor

/-! ## Malformed tokens -/

/-- What a piece of a template begins with, -/
def TemplatePart.opener : TemplatePart → Char
  | .noSubstitution | .head => '`'
  | .middle | .tail => '}'

/-- and what it ends with. -/
def TemplatePart.closer : TemplatePart → List Char
  | .noSubstitution | .tail => ['`']
  | .head | .middle => ['$', '{']

/-- The token has both of its delimiters. -/
inductive Delimited : Kind → List Char → Prop where
  | string {quote : Char} {body : List Char} (hquote : isQuote quote = true)
    (h : StringBody quote body) : Delimited .string (quote :: (body ++ [quote]))
  | template {part : TemplatePart} {body : List Char} (h : TemplateBody body) :
    Delimited (.template part) (part.opener :: (body ++ part.closer))
  | regExp {body flags : List Char} (h : RegExpBody false body)
    (hflags : ∀ c ∈ flags, isIdentifierPart c = true) :
    Delimited .regExp ('/' :: (body ++ '/' :: flags))

/-- What is reported of a literal without its closing delimiter. -/
def Kind.unterminated? : Kind → Option LexError
  | .string => some .unterminatedString
  | .template _ => some .unterminatedTemplate
  | .regExp => some .unterminatedRegExp
  | _ => none

/-- `Malformed n kind word rest d`: the token `word` at offset `n`, with `rest` behind it, is
malformed, and `d` tells how and where. -/
inductive Malformed (n : Nat) : Kind → List Char → List Char → LexDiagnostic → Prop where
  | unterminated {kind : Kind} {word rest : List Char} {e : LexError}
    (hkind : kind.unterminated? = some e) (hword : ¬ Delimited kind word) :
    Malformed n kind word rest ⟨n, size word, e⟩
  /-- A decimal number without a suffix, and a name that begins right behind it. -/
  | number {word rest : List Char} {c : Char} (hradix : radixOf? word = none)
    (hsuffix : word.getLast? ≠ some 'n') (hrest : rest.head? = some c)
    (hc : isIdentifierStart c = true) :
    Malformed n .number word rest ⟨n + size word, c.utf8Size, .identifierAfterNumber⟩
  | escape {rest : List Char} : Malformed n .unknown ['\\'] rest ⟨n, 1, .escapedIdentifier⟩
  | character {rest : List Char} {c : Char} (hc : c ≠ '\\') :
    Malformed n .unknown [c] rest ⟨n, c.utf8Size, .invalidCharacter c⟩

/-- The kinds of tokens that cannot be malformed. -/
def Kind.isPlain : Kind → Bool
  | .punct _ | .word _ | .identifier | .endOfFile => true
  | _ => false

variable {n : Nat} {kind : Kind} {word rest cs : List Char} {d : LexDiagnostic}

theorem not_malformed (h : kind.isPlain = true) : ¬ Malformed n kind word rest d := by
  intro hmalformed
  cases hmalformed with
  | unterminated hkind => cases kind <;> first | (cases hkind; done) | cases h
  | number | escape | character => exact nomatch h

theorem malformed_literal_iff {e : LexError} (hkind : kind.unterminated? = some e) :
    Malformed n kind word rest d ↔ ¬ Delimited kind word ∧ d = ⟨n, size word, e⟩ := by
  constructor
  · intro h
    cases h with
    | unterminated hkind' hword =>
      obtain rfl := Option.some.inj (hkind.symm.trans hkind')
      exact ⟨hword, rfl⟩
    | number | escape | character => cases hkind
  · rintro ⟨hword, rfl⟩
    exact .unterminated hkind hword

theorem malformed_number_iff : Malformed n .number word rest d ↔
    (radixOf? word = none ∧ word.getLast? ≠ some 'n') ∧ ∃ c, rest.head? = some c ∧
      isIdentifierStart c = true ∧ d = ⟨n + size word, c.utf8Size, .identifierAfterNumber⟩ := by
  constructor
  · intro h
    cases h with
    | unterminated hkind => cases hkind
    | number hradix hsuffix hrest hc => exact ⟨⟨hradix, hsuffix⟩, _, hrest, hc, rfl⟩
  · rintro ⟨⟨hradix, hsuffix⟩, c, hrest, hc, rfl⟩
    exact .number hradix hsuffix hrest hc

/-! ## Closing delimiters -/

section Delimited

variable {stop : Cursor} {passed : List Char} {closed : Bool}

/-- A string has both of its quotes exactly if its scan found the second one. -/
theorem delimited_string_iff {quote : Char} (hquote : isQuote quote = true)
    (h : stringEnd quote n (passed ++ stop.rest) = (stop, closed)) :
    closed = true ↔ Delimited .string (quote :: passed) := by
  constructor
  · rintro rfl
    obtain ⟨body, hbody, hpassed⟩ := body_of_stringEnd h
    have heq : passed ++ stop.rest = body ++ [quote] ++ stop.rest := by
      rw [hpassed, List.append_assoc, List.singleton_append]
    obtain rfl := List.append_cancel_right heq
    exact .string hquote hbody
  · generalize hword : quote :: passed = word
    rintro ⟨⟩
    next hbody =>
    obtain ⟨rfl, rfl⟩ := List.cons.inj hword
    have hclosed := stringEnd_of_body hquote hbody n stop.rest
    rw [List.append_assoc, List.singleton_append] at h
    rwa [h] at hclosed

/-- A piece of a template has both of its delimiters exactly if its scan ended with the second one. -/
theorem delimited_template_iff {part : TemplatePart} {how how' : TemplateEnd}
    (hcloser : how'.chars = part.closer) (hhow : how' ≠ .unterminated)
    (h : templateEnd n (passed ++ stop.rest) = (stop, how)) :
    how = how' ↔ Delimited (.template part) (part.opener :: passed) := by
  constructor
  · rintro rfl
    obtain ⟨body, hbody, hpassed⟩ := body_of_templateEnd hhow h
    have heq : passed ++ stop.rest = body ++ part.closer ++ stop.rest := by
      rw [hpassed, hcloser, List.append_assoc]
    obtain rfl := List.append_cancel_right heq
    exact .template hbody
  · generalize hword : part.opener :: passed = word
    rintro ⟨⟩
    next body hbody =>
    obtain rfl : passed = body ++ part.closer := (List.cons.inj hword).2
    have hend := templateEnd_of_body hhow hbody n stop.rest
    rw [← hcloser, List.append_assoc] at h
    rwa [h] at hend

/-- A regular expression has both of its slashes exactly if the scan of its body found the second
one. -/
theorem delimited_regExp_iff {flags : List Char}
    (hflags : stop.rest = flags ++ (stop.skipWhile isIdentifierPart).rest)
    (hall : ∀ c ∈ flags, isIdentifierPart c = true)
    (h : regExpEnd false n (passed ++ stop.rest) = (stop, closed)) :
    closed = true ↔ Delimited .regExp ('/' :: (passed ++ flags)) := by
  constructor
  · rintro rfl
    obtain ⟨body, hbody, hpassed⟩ := body_of_regExpEnd h
    have heq : passed ++ stop.rest = body ++ ['/'] ++ stop.rest := by
      rw [hpassed, List.append_assoc, List.singleton_append]
    obtain rfl := List.append_cancel_right heq
    rw [List.append_assoc, List.singleton_append]
    exact .regExp hbody hall
  · generalize hword : '/' :: (passed ++ flags) = word
    rintro ⟨⟩
    next body flags' hbody _ =>
    have hend := regExpEnd_of_body hbody n (flags' ++ (stop.skipWhile isIdentifierPart).rest)
    have hpassed : passed ++ flags = body ++ '/' :: flags' := (List.cons.inj hword).2
    have heq : body ++ '/' :: (flags' ++ (stop.skipWhile isIdentifierPart).rest) =
        passed ++ stop.rest := by
      rw [hflags, ← List.append_assoc passed, hpassed, List.append_assoc, List.cons_append]
    rwa [heq, h] at hend

end Delimited

/-! ## Reading a token -/

namespace Lexer

variable {l l' : Lexer} {error? : Option LexDiagnostic}

/-- From its start the token was read as `word`; what was reported on the way is what is wrong with
it. -/
structure Reads (l l' : Lexer) (word : List Char) (error? : Option LexDiagnostic) : Prop where
  text : l.start.rest = word ++ l'.cursor.rest
  stop : l'.cursor.offset = l.start.offset + size word
  errors : l'.errors.toList = l.errors.toList ++ error?.toList
  malformed : ∀ d, error? = some d ↔ Malformed l.start.offset l'.kind word l'.cursor.rest d

theorem finish_reads {stop : Cursor} (htext : l.start.rest = word ++ stop.rest)
    (hstop : stop.offset = l.start.offset + size word)
    (h : ∀ d, ¬ Malformed l.start.offset kind word stop.rest d) :
    l.Reads (l.finish kind stop) word none where
  text := htext
  stop := hstop
  errors := (List.append_nil _).symm
  malformed d := iff_of_false nofun (h d)

theorem finish_report_reads {stop : Cursor} {start length : Nat} {e : LexError}
    (htext : l.start.rest = word ++ stop.rest)
    (hstop : stop.offset = l.start.offset + size word)
    (h : ∀ d, Malformed l.start.offset kind word stop.rest d ↔ d = ⟨start, length, e⟩) :
    l.Reads ((l.finish kind stop).report start length e) word (some ⟨start, length, e⟩) where
  text := htext
  stop := hstop
  errors := Array.toList_push
  malformed d := by
    rw [Option.some_inj, eq_comm]
    exact (h d).symm

/-- A literal that is reported unless its closing delimiter was found. -/
theorem finish_literal_reads {stop : Cursor} {e : LexError} {closed : Bool} {length : Nat}
    (hkind : kind.unterminated? = some e) (htext : l.start.rest = word ++ stop.rest)
    (hstop : stop.offset = l.start.offset + size word)
    (hclosed : closed = true ↔ Delimited kind word) (hlength : closed = false → length = size word) :
    ∃ error?, l.Reads (if closed then l.finish kind stop
      else (l.finish kind stop).report l.start.offset length e) word error? := by
  cases closed with
  | true =>
    refine ⟨none, finish_reads htext hstop fun d h => ?_⟩
    exact ((malformed_literal_iff hkind).1 h).1 (hclosed.1 rfl)
  | false =>
    refine ⟨_, finish_report_reads htext hstop fun d => ?_⟩
    rw [malformed_literal_iff hkind, hlength rfl]
    exact and_iff_right fun hword => Bool.false_ne_true (hclosed.2 hword)

theorem exists_passed {a b : Cursor} (h : Reach a b) :
    ∃ word, a.rest = word ++ b.rest ∧ b.offset = a.offset + size word := ⟨_, h.rest_eq⟩

theorem next_eq {a : Cursor} {c : Char} {cs : List Char} (h : a.rest = c :: cs) :
    a.next = ⟨a.offset + c.utf8Size, cs⟩ := by
  rw [Cursor.next, h]

theorem string_reads {c : Char} {cs : List Char} {stop : Cursor} {closed : Bool}
    (hc : isQuote c = true) (htext : l.start.rest = c :: cs)
    (h : stringEnd c l.start.next.offset l.start.next.rest = (stop, closed)) :
    ∃ word error?, l.Reads (if closed then l.finish .string stop
      else (l.finish .string stop).report l.start.offset (stop.offset - l.start.offset)
        .unterminatedString) word error? := by
  have hsize : c.utf8Size = 1 := by
    rcases Bool.or_eq_true _ _ ▸ hc with hc | hc <;> rw [of_decide_eq_true hc] <;> rfl
  rw [next_eq htext] at h
  dsimp only at h
  have hreach := reach_stringEnd hsize (l.start.offset + c.utf8Size) cs
  rw [h] at hreach
  obtain ⟨passed, rfl, hstop⟩ := exists_passed hreach
  dsimp only at h hstop
  have hlength : stop.offset = l.start.offset + size (c :: passed) := by
    rw [hstop, size, Nat.add_assoc]
  refine ⟨c :: passed, finish_literal_reads rfl htext hlength (delimited_string_iff hc h) fun _ => ?_⟩
  omega

/-- A piece of a template is `last`, unless it ends at a substitution. -/
theorem template_reads (last inner : TemplatePart) {cs : List Char} {stop : Cursor}
    {how : TemplateEnd} (hopener : last.opener = inner.opener) (hlast : last.closer = ['`'])
    (hinner : inner.closer = ['$', '{']) (htext : l.start.rest = last.opener :: cs)
    (h : templateEnd l.start.next.offset l.start.next.rest = (stop, how)) :
    ∃ word error?, l.Reads (match how with
      | .closed => l.finish (.template last) stop
      | .substitution => l.finish (.template inner) stop
      | .unterminated => (l.finish (.template last) stop).report l.start.offset
          (stop.offset - l.start.offset) .unterminatedTemplate) word error? := by
  rw [next_eq htext] at h
  dsimp only at h
  have hreach := reach_templateEnd (l.start.offset + last.opener.utf8Size) cs
  rw [h] at hreach
  obtain ⟨passed, rfl, hstop⟩ := exists_passed hreach
  dsimp only at h hstop
  have hlength : stop.offset = l.start.offset + size (last.opener :: passed) := by
    rw [hstop, size, Nat.add_assoc]
  have hclosed : how = .closed ↔ Delimited (.template last) (last.opener :: passed) :=
    delimited_template_iff hlast.symm (by decide) h
  have hsubstitution : how = .substitution ↔ Delimited (.template inner) (inner.opener :: passed) :=
    delimited_template_iff hinner.symm (by decide) h
  refine ⟨last.opener :: passed, ?_⟩
  cases how with
  | closed =>
    refine ⟨none, finish_reads htext hlength fun d hd => ?_⟩
    exact ((malformed_literal_iff rfl).1 hd).1 (hclosed.1 rfl)
  | substitution =>
    refine ⟨none, finish_reads htext hlength fun d hd => ?_⟩
    exact ((malformed_literal_iff rfl).1 hd).1 (hopener ▸ hsubstitution.1 rfl)
  | unterminated =>
    refine ⟨_, finish_report_reads htext hlength fun d => ?_⟩
    rw [malformed_literal_iff rfl, hlength, Nat.add_sub_cancel_left]
    refine and_iff_right fun hword => ?_
    cases hclosed.2 hword

theorem finishTemplate_reads (opening : Bool) {cs : List Char}
    (htext : l.start.rest = (if opening then '`' else '}') :: cs) :
    ∃ word error?, l.Reads (l.finishTemplate opening l.start.next) word error? := by
  unfold finishTemplate
  cases opening with
  | true => exact template_reads .noSubstitution .head rfl rfl rfl htext rfl
  | false => exact template_reads .tail .middle rfl rfl rfl htext rfl

/-- A number may be one that an identifier follows at once. -/
theorem number_reads {stop : Cursor} {bare : Bool} (htext : l.start.rest = word ++ stop.rest)
    (hstop : stop.offset = l.start.offset + size word)
    (hbare : bare = true ↔ radixOf? word = none ∧ word.getLast? ≠ some 'n') :
    ∃ error?, l.Reads (match stop.peek? with
      | some d =>
        if bare && isIdentifierStart d then
          (l.finish .number stop).report stop.offset d.utf8Size .identifierAfterNumber
        else l.finish .number stop
      | none => l.finish .number stop) word error? := by
  have hnone : (∀ c ∈ stop.rest.head?, (bare && isIdentifierStart c) = false) →
      ∃ error?, l.Reads (l.finish .number stop) word error? := by
    refine fun h => ⟨none, finish_reads htext hstop fun d hd => ?_⟩
    obtain ⟨hword, c, hc, hident, -⟩ := malformed_number_iff.1 hd
    have := h c hc
    rw [hbare.2 hword, hident] at this
    cases this
  split
  · next c hc =>
    have hc : stop.rest.head? = some c := hc
    split
    · next hboth =>
      rw [Bool.and_eq_true, hbare] at hboth
      refine ⟨_, finish_report_reads htext hstop fun d => ?_⟩
      rw [malformed_number_iff, hstop, and_iff_right hboth.1]
      constructor
      · rintro ⟨c', hc', -, rfl⟩
        obtain rfl := Option.some.inj (hc.symm.trans hc')
        rfl
      · exact fun hd => ⟨c, hc, hboth.2, hd⟩
    · next hboth =>
      refine hnone fun c' hc' => ?_
      obtain rfl := Option.some.inj (hc.symm.trans hc')
      exact Bool.eq_false_iff.2 hboth
  · next hc =>
    have hc : stop.rest.head? = none := hc
    exact hnone fun c hc' => nomatch hc.symm.trans hc'

/-- A character that begins no token. -/
theorem unknown_reads {c : Char} {cs : List Char} {length : Nat} {e : LexError}
    (htext : l.start.rest = c :: cs)
    (h : c = '\\' ∧ length = 1 ∧ e = .escapedIdentifier ∨
      c ≠ '\\' ∧ length = c.utf8Size ∧ e = .invalidCharacter c) :
    ∃ word error?, l.Reads ((l.finish .unknown l.start.next).report l.start.offset length e) word
      error? := by
  rw [next_eq htext]
  refine ⟨[c], _, finish_report_reads htext rfl fun d => ⟨fun hd => ?_, ?_⟩⟩
  · rcases h with ⟨rfl, rfl, rfl⟩ | ⟨hc, rfl, rfl⟩
    · cases hd with
      | unterminated hkind => cases hkind
      | escape => rfl
      | character hc => exact absurd rfl hc
    · cases hd with
      | unterminated hkind => cases hkind
      | escape => exact absurd rfl hc
      | character => rfl
  · rintro rfl
    rcases h with ⟨rfl, rfl, rfl⟩ | ⟨hc, rfl, rfl⟩
    · exact .escape
    · exact .character hc

theorem not_identifierPart_of_lineBreak {c : Char} (h : isLineBreak c = true) :
    isIdentifierPart c = false := by
  have h : c = '\n' ∨ c = '\r' ∨ c = '\u2028' ∨ c = '\u2029' := by
    simpa [isLineBreak, or_assoc] using h
  rcases h with rfl | rfl | rfl | rfl <;> decide +kernel

theorem regExp_reads {cs : List Char} {stop : Cursor} {closed : Bool}
    (htext : l.start.rest = '/' :: cs)
    (h : regExpEnd false l.start.next.offset l.start.next.rest = (stop, closed)) :
    ∃ word error?, l.Reads
      (if closed then l.finish .regExp (stop.skipWhile isIdentifierPart)
        else (l.finish .regExp (stop.skipWhile isIdentifierPart)).report l.start.offset
          (stop.offset - l.start.offset) .unterminatedRegExp) word error? := by
  rw [next_eq htext] at h
  dsimp only at h
  have hreach := reach_regExpEnd false (l.start.offset + '/'.utf8Size) cs
  rw [h] at hreach
  obtain ⟨passed, rfl, hstop⟩ := exists_passed hreach
  obtain ⟨flags, hflags, hlast, hall⟩ := Passes.skipWhile isIdentifierPart stop
  dsimp only at h hstop
  have hlength : (stop.skipWhile isIdentifierPart).offset =
      l.start.offset + size ('/' :: (passed ++ flags)) := by
    rw [hlast, hstop, size, Text.size_append]
    omega
  have htext' : l.start.rest = '/' :: (passed ++ flags) ++ (stop.skipWhile isIdentifierPart).rest := by
    rw [htext, hflags, ← List.append_assoc]
    rfl
  refine ⟨'/' :: (passed ++ flags), finish_literal_reads rfl htext' hlength
    (delimited_regExp_iff hflags hall h) fun hopen => ?_⟩
  subst hopen
  -- The flags of an open one are none, since a line break ends it.
  obtain rfl : flags = [] := by
    cases flags with
    | nil => rfl
    | cons c flags =>
      have hbreak := regExpEnd_open h c (by rw [hflags]; rfl)
      have hpart := hall c List.mem_cons_self
      rw [not_identifierPart_of_lineBreak hbreak] at hpart
      cases hpart
  rw [hstop, List.append_nil, size]
  omega

theorem token_reads {c : Char} {cs : List Char} (hstart : l.start = l.cursor)
    (hc : l.start.rest = c :: cs) : ∃ word error?, l.Reads (l.token c) word error? := by
  unfold token
  extract_lets cur
  have hcur : cur = l.start := hstart.symm
  clear_value cur
  subst hcur
  split
  · next hquote =>
    split
    next stop closed heq => exact string_reads hquote hc heq
  split
  · next htick => exact finishTemplate_reads true (htick ▸ hc)
  split
  · next hnumber =>
    have hstop := reach_numberEnd l.start
    split
    next stop bare heq =>
    rw [heq] at hstop
    obtain ⟨word, htext, hoffset⟩ := exists_passed hstop
    exact ⟨word, number_reads htext hoffset (numberEnd_iff heq htext)⟩
  split
  · obtain ⟨word, htext, hoffset⟩ := exists_passed (reach_skipWhile isIdentifierPart l.start)
    split
    · exact ⟨word, none, finish_reads htext hoffset fun d => not_malformed rfl⟩
    · exact ⟨word, none, finish_reads htext hoffset fun d => not_malformed rfl⟩
  split
  · next hescape => exact unknown_reads hc (.inl ⟨hescape, rfl, rfl⟩)
  split
  · next p hp =>
    obtain ⟨word, htext, hoffset⟩ := exists_passed (reach_skip p.chars.length l.start)
    exact ⟨word, none, finish_reads htext hoffset fun d => not_malformed rfl⟩
  · next hescape _ _ => exact unknown_reads hc (.inr ⟨hescape, rfl, rfl⟩)

theorem rescanSlash_reads (hkind : l.kind = .punct .slash ∨ l.kind = .punct .slashEquals)
    {cs : List Char} (htext : l.start.rest = '/' :: cs) :
    ∃ word error?, l.Reads l.rescanSlash word error? := by
  unfold rescanSlash
  rw [if_pos (by simpa using hkind)]
  exact regExp_reads htext rfl

theorem rescanTemplate_reads (hkind : l.kind = .punct .closeBrace) {cs : List Char}
    (htext : l.start.rest = '}' :: cs) : ∃ word error?, l.Reads l.rescanTemplate word error? := by
  unfold rescanTemplate
  rw [if_pos hkind]
  exact finishTemplate_reads false htext

end Lexer

end LoopClosure.Token
