import LoopClosure.Proofs.Token.Progress

/-!
# The tokens of a text

`Lexed cs ks l`: the lexer `l` stands at a token of the text `cs`, and `ks` are the tokens passed on
the way to it. A slash or a closing brace may be read in another way as long as it is the current
token; once passed it is settled. `Tokens cs ks` says that `ks` are all the tokens up to the end of
the text. They follow one another, and none is empty (`Lexed.ordered`). A name spells no keyword
(`Lexed.named`).
-/

namespace LoopClosure

open Text (Cursor)

theorem Text.Cursor.Reach.slice? {cs : List Char} {a b : Cursor} (h : Reach (.ofText cs) a)
    (h' : Reach a b) : Text.slice? cs a.offset b.offset = some (a.upTo b.offset) := by
  obtain ⟨as, hcs, hsize⟩ := h.exists_passed
  obtain ⟨hrest, hoffset⟩ := h'.rest_eq
  refine slice?_eq_some_iff.2 ⟨as, b.rest, ?_, hsize, ?_⟩
  · rw [List.append_assoc, ← hrest]
    exact hcs
  · rw [hsize]
    exact hoffset.symm

namespace Token

open Text.Cursor

/-- A token in its place. -/
structure Lexeme where
  kind : Kind
  start : Nat
  stop : Nat
deriving DecidableEq, Repr

/-- Where the first token of a text is looked for: behind a first line that begins with `#!`. -/
def opening (cs : List Char) : Cursor := (Lexer.ofText cs).skipShebang.cursor

theorem reach_opening (cs : List Char) : Reach (.ofText cs) (opening cs) := by
  unfold opening Lexer.skipShebang
  split
  · exact reach_skipWhile _ _
  · exact .refl _

/-- The first token comes behind all of a first line that begins with `#!`. -/
theorem offset_opening {cs rest : List Char} (h : cs = '#' :: '!' :: rest) :
    (opening cs).offset = Text.size (cs.takeWhile fun c => !Text.isLineBreak c) := by
  subst h
  exact (offset_skipWhileFrom _ 0 _).trans (Nat.zero_add _)

/-- The current token in its place. -/
def Lexer.lexeme (l : Lexer) : Lexeme := ⟨l.kind, l.start.offset, l.cursor.offset⟩

/-- The lexer stands at a token of the text, behind the tokens of the list. -/
inductive Lexed (cs : List Char) : List Lexeme → Lexer → Prop where
  | first {l : Lexer} (h : l.cursor = opening cs) : Lexed cs [] l.scan
  | next {ks : List Lexeme} {l : Lexer} (h : Lexed cs ks l) (hk : l.kind ≠ .endOfFile) :
    Lexed cs (ks ++ [l.lexeme]) l.scan
  /-- The current token is read as a regular expression. -/
  | slash {ks : List Lexeme} {l : Lexer} (h : Lexed cs ks l) : Lexed cs ks l.rescanSlash
  /-- The current token is read as the continuation of a template. -/
  | template {ks : List Lexeme} {l : Lexer} (h : Lexed cs ks l) : Lexed cs ks l.rescanTemplate
  /-- What a lexer records beside its token is of no account. -/
  | same {ks : List Lexeme} {l l' : Lexer} (h : Lexed cs ks l) (start : l'.start = l.start)
    (cursor : l'.cursor = l.cursor) (kind : l'.kind = l.kind) (value : l'.value = l.value) :
    Lexed cs ks l'

/-- The tokens of a text, in one way to read it. -/
def Tokens (cs : List Char) (ks : List Lexeme) : Prop :=
  ∃ l : Lexer, Lexed cs ks l ∧ l.kind = .endOfFile

variable {cs : List Char} {ks : List Lexeme} {l l' : Lexer}

theorem Lexer.Ready.same (h : l.Ready) (hstart : l'.start = l.start)
    (hcursor : l'.cursor = l.cursor) (hkind : l'.kind = l.kind) (hvalue : l'.value = l.value) :
    l'.Ready := by
  obtain ⟨hreach, hlt, hrest, hval, hspelled⟩ := h
  refine ⟨?_, ?_, ?_, ?_, ?_⟩
  · rwa [hstart, hcursor]
  · rwa [hstart, hcursor, hkind]
  · rwa [hstart, hkind]
  · rwa [hvalue, hkind, Lexer.text, hstart, hcursor]
  · rwa [hstart, hcursor, hkind]

namespace Lexer

theorem kind_finishTemplate_ne (l : Lexer) (opening : Bool) (first : Cursor) :
    (l.finishTemplate opening first).kind ≠ .identifier := by
  unfold finishTemplate
  dsimp only
  split <;> exact fun h => nomatch h

/-- A name is spelled as no keyword. -/
def Named (l : Lexer) : Prop := l.kind = .identifier → Keyword.ofChars? l.value.toList = none

theorem token_named {c : Char} (hstart : l.start = l.cursor) : (l.token c).Named := by
  have hother {l' : Lexer} (h : l'.kind ≠ .identifier) : l'.Named := fun hk => absurd hk h
  unfold token
  dsimp only
  split
  · split <;> exact hother fun h => nomatch h
  split
  · exact hother (kind_finishTemplate_ne _ _ _)
  split
  · split
    · split <;> exact hother fun h => nomatch h
    · exact hother fun h => nomatch h
  split
  · split
    · exact hother fun h => nomatch h
    · next hnone =>
      intro _
      rw [finish, text, String.toList_ofList]
      dsimp only
      rwa [hstart]
  split
  · exact hother fun h => nomatch h
  split <;> exact hother fun h => nomatch h

theorem scan_named (l : Lexer) : l.scan.Named := by
  unfold scan
  extract_lets t l'
  split
  · exact fun h => nomatch h
  · exact token_named rfl

theorem kind_token_v {k : Keyword} (h : Keyword.ofChars?
    (l.cursor.upTo (l.cursor.skipWhile Text.isIdentifierPart).offset) = some k) :
    (l.token 'v').kind = .word k := by
  have hdigit : Char.isDigit 'v' = false := rfl
  have hletter : Text.isIdentifierStart 'v' = true := by decide
  simp [token, hdigit, hletter, h, finish]

/-- What is scanned where `var` comes next. -/
theorem kind_scan_var {rest : List Char} (h : l.cursor.rest = 'v' :: 'a' :: 'r' :: ' ' :: rest) :
    l.scan.kind = .word .kVar := by
  obtain ⟨⟨offset, _⟩, _⟩ := l
  cases h
  have hword : Cursor.upTo ⟨offset, 'v' :: 'a' :: 'r' :: ' ' :: rest⟩ (offset + 1 + 1 + 1) =
      Keyword.kVar.chars := by
    have hlt : offset < offset + 1 + 1 + 1 := by omega
    simp [Cursor.upTo, Cursor.charsUpTo, Char.utf8Size, Keyword.chars, hlt]
  have hkeyword := Keyword.ofChars?_chars .kVar
  rw [← hword] at hkeyword
  exact kind_token_v hkeyword

/-- A keyword is spelled as it should be. -/
theorem Ready.value_word {k : Keyword} (h : l.Ready) (hk : l.kind = .word k) :
    l.value.toList = k.chars := by
  have hfixed : l.kind.isFixed = true := by rw [hk]; rfl
  have hchars : l.kind.chars = k.chars := by rw [hk]; rfl
  obtain ⟨rest, hrest, hoffset⟩ := h.spelled hfixed
  obtain ⟨hpassed, hsize⟩ := h.reach.rest_eq
  rw [hchars] at hrest hoffset
  have hupTo := Text.takeBytes?_eq_some_iff.2 ⟨_, hpassed, rfl⟩
  have hword := Text.takeBytes?_eq_some_iff.2 ⟨_, hrest, size_eq_length k.utf8Size_chars⟩
  have hlength : Text.size (l.start.upTo l.cursor.offset) = k.chars.length := by omega
  rw [hlength, hword, Option.some.injEq] at hupTo
  rw [h.value (by simp [hk]), text, String.toList_ofList, hupTo]

end Lexer

namespace Lexed

theorem ready (h : Lexed cs ks l) : l.Ready := by
  induction h with
  | first | next => exact (Lexer.scan_ready _).1
  | slash _ ih => exact (Lexer.rescanSlash_ready ih).1
  | template _ ih => exact (Lexer.rescanTemplate_ready ih).1
  | same _ start cursor kind value ih => exact ih.same start cursor kind value

/-- The current token begins in the text behind its first line. -/
theorem reach_start (h : Lexed cs ks l) : Reach (opening cs) l.start := by
  induction h with
  | @first l hl => exact hl ▸ (Lexer.scan_ready l).2
  | @next _ l h _ ih => exact ih.trans (h.ready.reach.trans (Lexer.scan_ready l).2)
  | slash h ih => exact (Lexer.rescanSlash_ready h.ready).2 ▸ ih
  | template h ih => exact (Lexer.rescanTemplate_ready h.ready).2 ▸ ih
  | same _ start _ _ _ ih => exact start ▸ ih

theorem reach (h : Lexed cs ks l) : Reach (.ofText cs) l.start :=
  (reach_opening cs).trans h.reach_start

/-- The current token is spelled as the text there. -/
theorem slice_eq (h : Lexed cs ks l) (hk : l.kind ≠ .endOfFile) :
    Text.slice? cs l.start.offset l.cursor.offset = some l.value.toList := by
  rw [h.reach.slice? h.ready.reach, h.ready.value hk, Lexer.text, String.toList_ofList]

/-- The current token spells a keyword only if it is one. -/
theorem named (h : Lexed cs ks l) : l.Named := by
  induction h with
  | first | next => exact Lexer.scan_named _
  | @slash _ l _ ih =>
    unfold Lexer.rescanSlash
    dsimp only
    split
    · split <;> exact fun h => nomatch h
    · exact ih
  | @template _ l _ ih =>
    unfold Lexer.rescanTemplate
    split
    · exact fun hk => absurd hk (Lexer.kind_finishTemplate_ne _ _ _)
    · exact ih
  | same _ _ _ kind value ih =>
    rw [Lexer.Named, kind, value]
    exact ih

/-- A name that is spelled as a keyword is one. -/
theorem kind_of_value {k : Keyword} (h : Lexed cs ks l) (hname : l.kind.isName = true)
    (hvalue : l.value.toList = k.chars) : l.kind = .word k := by
  cases hk : l.kind with
  | identifier =>
    have hnone := h.named hk
    rw [hvalue, Keyword.ofChars?_chars] at hnone
    cases hnone
  | word k' =>
    have hsome := Keyword.ofChars?_chars k
    rw [← hvalue, h.ready.value_word hk, Keyword.ofChars?_chars] at hsome
    rw [Option.some.inj hsome]
  | _ =>
    rw [hk] at hname
    cases hname

/-- Tokens follow one another in front of the current one, and none is empty. -/
theorem ordered (h : Lexed cs ks l) :
    ks.Pairwise (fun k k' => k.stop ≤ k'.start) ∧
      ∀ k ∈ ks, k.start < k.stop ∧ k.stop ≤ l.start.offset := by
  induction h with
  | first => exact ⟨.nil, fun _ hk => absurd hk List.not_mem_nil⟩
  | @next ks l h hk ih =>
    have hle : l.start.offset ≤ l.cursor.offset := h.ready.reach.le
    have hscan : l.cursor.offset ≤ l.scan.start.offset := (Lexer.scan_ready l).2.le
    refine ⟨List.pairwise_append.2 ⟨ih.1, List.pairwise_singleton _ _, ?_⟩, fun k hmem => ?_⟩
    · intro k hmem k' hmem'
      obtain rfl := List.mem_singleton.1 hmem'
      exact (ih.2 k hmem).2
    · rcases List.mem_append.1 hmem with hmem | hmem
      · obtain ⟨hlt, hstop⟩ := ih.2 k hmem
        exact ⟨hlt, by omega⟩
      · obtain rfl := List.mem_singleton.1 hmem
        exact ⟨h.ready.lt hk, hscan⟩
  | slash h ih => rwa [(Lexer.rescanSlash_ready h.ready).2]
  | template h ih => rwa [(Lexer.rescanTemplate_ready h.ready).2]
  | same _ start _ _ _ ih => rwa [start]

end Lexed

/-- The tokens of a text follow one another, and none is empty. -/
theorem Tokens.ordered (h : Tokens cs ks) :
    ks.Pairwise (fun k k' => k.stop ≤ k'.start) ∧ ∀ k ∈ ks, k.start < k.stop := by
  obtain ⟨l, hl, -⟩ := h
  exact ⟨hl.ordered.1, fun k hk => (hl.ordered.2 k hk).1⟩

/-- All tokens come behind a first line that begins with `#!`. -/
theorem Tokens.opening_le (h : Tokens cs ks) {k : Lexeme} (hk : k ∈ ks) :
    (opening cs).offset ≤ k.start := by
  obtain ⟨l, hl, -⟩ := h
  induction hl with
  | first => cases hk
  | next hl _ ih =>
    rcases List.mem_append.1 hk with hk | hk
    · exact ih hk
    · obtain rfl := List.mem_singleton.1 hk
      exact hl.reach_start.le
  | slash _ ih | template _ ih | same _ _ _ _ _ ih => exact ih hk

end Token

end LoopClosure
