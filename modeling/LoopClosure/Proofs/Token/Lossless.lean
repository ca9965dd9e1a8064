import LoopClosure.Proofs.Token.Progress

/-!
# Scanning is lossless

Scanning a text token by token (`Scanning`) comes to the end of the text, and what it passed is the
text: gaps and tokens in turn (`Tiles`). A gap is white space and comments, as many as there are
(`Gap`); the comments that the lexer records are those of the gaps, and a token is marked to stand
behind a line break exactly if there is one in the gap in front of it.

`trivia_passed` says what one gap is, also from the midst of a comment on; `scan_tile` what one step
of the lexer passes; `exists_scanning` puts the steps together.
-/

namespace LoopClosure

open Text (Cursor isLineBreak size)

namespace Token

open Text.Cursor

/-! ## Gaps -/

/-- White space and the byte order mark. Line breaks are white space. -/
def isBlank (c : Char) : Bool := Text.isWhiteSpace c || c = '\ufeff'

/-- The text does not begin with a blank or a comment. -/
structure Gapless (cs : List Char) : Prop where
  blank : ∀ c ∈ cs.head?, isBlank c = false
  line : ¬ ['/', '/'] <+: cs
  block : ¬ ['/', '*'] <+: cs

/-- `Gap n gap comments rest`: the characters `gap` at offset `n`, with `rest` behind them, are
blanks and comments; `comments` are the ranges of the comments in order. Nothing of the kind follows
in `rest`. -/
inductive Gap : Nat → List Char → List Comment → List Char → Prop where
  | nil {n : Nat} {rest : List Char} (h : Gapless rest) : Gap n [] [] rest
  | blank {n : Nat} {c : Char} {gap rest : List Char} {comments : List Comment}
    (hc : isBlank c = true) (h : Gap (n + c.utf8Size) gap comments rest) :
    Gap n (c :: gap) comments rest
  /-- A line comment runs up to the next line break or the end of the text. -/
  | line {n : Nat} {b gap rest : List Char} {comments : List Comment}
    (hbody : ∀ c ∈ b, isLineBreak c = false)
    (hstop : ∀ c ∈ (gap ++ rest).head?, isLineBreak c = true)
    (h : Gap (n + 2 + size b) gap comments rest) :
    Gap n ('/' :: '/' :: (b ++ gap)) (⟨n, n + 2 + size b, false⟩ :: comments) rest
  /-- A block comment runs through the first `*/` behind its opening, -/
  | block {n : Nat} {b gap rest : List Char} {comments : List Comment}
    (hbody : ¬ ['*', '/'] <:+: b ++ ['*'])
    (h : Gap (n + 2 + size b + 2) gap comments rest) :
    Gap n ('/' :: '*' :: (b ++ '*' :: '/' :: gap))
      (⟨n, n + 2 + size b + 2, true⟩ :: comments) rest
  /-- and to the end of the text if there is none. -/
  | unclosed {n : Nat} {b : List Char} (hbody : ¬ ['*', '/'] <:+: b) :
    Gap n ('/' :: '*' :: b) [⟨n, n + 2 + size b, true⟩] []

/-- What `trivia` passes in a mode: a gap, and in front of it the rest of the comment it is in. -/
inductive Passed : TriviaMode → Nat → List Char → List Comment → List Char → Prop where
  | between {n : Nat} {gap rest : List Char} {comments : List Comment}
    (h : Gap n gap comments rest) : Passed .between n gap comments rest
  | line {start n : Nat} {b gap rest : List Char} {comments : List Comment}
    (hbody : ∀ c ∈ b, isLineBreak c = false)
    (hstop : ∀ c ∈ (gap ++ rest).head?, isLineBreak c = true)
    (h : Gap (n + size b) gap comments rest) :
    Passed (.line start) n (b ++ gap) (⟨start, n + size b, false⟩ :: comments) rest
  | block {start n : Nat} {b gap rest : List Char} {comments : List Comment}
    (hbody : ¬ ['*', '/'] <:+: b ++ ['*'])
    (h : Gap (n + size b + 2) gap comments rest) :
    Passed (.block start) n (b ++ '*' :: '/' :: gap)
      (⟨start, n + size b + 2, true⟩ :: comments) rest
  | unclosed {start n : Nat} {b : List Char} (hbody : ¬ ['*', '/'] <:+: b) :
    Passed (.block start) n b [⟨start, n + size b, true⟩] []

/-- What was passed in front of a token, told of the text it was read from. -/
structure Trivia.Of (t : Trivia) (mode : TriviaMode) (n : Nat) (gap cs : List Char) : Prop where
  text : cs = gap ++ t.stop.rest
  offset : t.stop.offset = n + size gap
  passed : Passed mode n gap t.comments t.stop.rest
  lineBreak : t.lineBreak = gap.any isLineBreak

variable {n k : Nat} {c : Char} {cs gap body rest : List Char} {comments : List Comment}
  {t : Trivia}

theorem isBlank_of_isLineBreak (h : isLineBreak c = true) : isBlank c = true := by
  simp [isBlank, Text.isLineBreak_isWhiteSpace h]

theorem not_infix_nil : ¬ ['*', '/'] <:+: ([] : List Char) := by simp

theorem not_infix_star : ¬ ['*', '/'] <:+: ['*'] := by decide

/-- A character in front makes `*/` only if it is a star in front of a slash. -/
theorem not_infix_cons (hc : c = '*' → cs.head? ≠ some '/') (h : ¬ ['*', '/'] <:+: cs) :
    ¬ ['*', '/'] <:+: c :: cs := by
  rw [List.infix_cons_iff, not_or]
  refine ⟨?_, h⟩
  rintro ⟨ds, hds⟩
  obtain ⟨rfl, rfl⟩ := List.cons.inj hds
  exact hc rfl rfl

theorem gapless_nil : Gapless [] := ⟨by simp, by simp, by simp⟩

namespace Passed

theorem gap_of_between (h : Passed .between n gap comments rest) : Gap n gap comments rest := by
  cases h
  assumption

/-- From the opening of a line comment on. -/
theorem gap_of_line (h : Passed (.line n) (n + 2) gap comments rest) :
    Gap n ('/' :: '/' :: gap) comments rest := by
  cases h with
  | line hbody hstop h => exact .line hbody hstop h

/-- From the opening of a block comment on. -/
theorem gap_of_block (h : Passed (.block n) (n + 2) gap comments rest) :
    Gap n ('/' :: '*' :: gap) comments rest := by
  cases h with
  | block hbody h => exact .block hbody h
  | unclosed hbody => exact .unclosed hbody

theorem cons_line {start : Nat} (hc : isLineBreak c = false)
    (h : Passed (.line start) (n + c.utf8Size) gap comments rest) :
    Passed (.line start) n (c :: gap) comments rest := by
  cases h with
  | @line _ _ body gap _ comments hbody hstop h =>
    have hsize : n + c.utf8Size + size body = n + size (c :: body) := by rw [size, Nat.add_assoc]
    rw [hsize] at h ⊢
    exact .line (b := c :: body) (List.forall_mem_cons.2 ⟨hc, hbody⟩) hstop h

/-- A character in a block comment that does not close it together with the next one. -/
theorem cons_block {start : Nat} (hc : c = '*' → (gap ++ rest).head? ≠ some '/')
    (h : Passed (.block start) (n + c.utf8Size) gap comments rest) :
    Passed (.block start) n (c :: gap) comments rest := by
  cases h with
  | @block _ _ body gap _ comments hbody h =>
    have hsize : n + c.utf8Size + size body = n + size (c :: body) := by rw [size, Nat.add_assoc]
    rw [hsize] at h ⊢
    refine .block (b := c :: body) (not_infix_cons (fun hstar hhead => hc hstar ?_) hbody) h
    cases body with
    | nil => exact absurd hhead (by decide)
    | cons d body => exact hhead
  | @unclosed _ _ body hbody =>
    have hsize : n + c.utf8Size + size gap = n + size (c :: gap) := by rw [size, Nat.add_assoc]
    rw [hsize]
    refine .unclosed (not_infix_cons (fun hstar hhead => hc hstar ?_) hbody)
    rwa [List.append_nil]

end Passed

/-- Passing characters in front of what is passed already. -/
theorem Trivia.Of.append {t' : Trivia} {mode mode' : TriviaMode} {p : List Char}
    (h : t.Of mode' (n + size p) gap cs) (hstop : t'.stop = t.stop)
    (hbreak : t'.lineBreak = (p.any isLineBreak || t.lineBreak))
    (hpassed : Passed mode n (p ++ gap) t'.comments t.stop.rest) :
    t'.Of mode n (p ++ gap) (p ++ cs) where
  text := by rw [hstop, List.append_assoc, ← h.text]
  offset := by rw [hstop, h.offset, Text.size_append, Nat.add_assoc]
  passed := hstop ▸ hpassed
  lineBreak := by rw [hbreak, h.lineBreak, List.any_append]

theorem Trivia.Of.cons {t' : Trivia} {mode mode' : TriviaMode}
    (h : t.Of mode' (n + c.utf8Size) gap cs) (hstop : t'.stop = t.stop)
    (hbreak : t'.lineBreak = (isLineBreak c || t.lineBreak))
    (hpassed : Passed mode n (c :: gap) t'.comments t.stop.rest) :
    t'.Of mode n (c :: gap) (c :: cs) := by
  have hsize : size [c] = c.utf8Size := rfl
  refine Trivia.Of.append (p := [c]) (hsize ▸ h) hstop ?_ hpassed
  rw [hbreak, List.any_cons, List.any_nil, Bool.or_false]

/-- What is passed in front of a token. -/
theorem trivia_passed (mode : TriviaMode) (n : Nat) (cs : List Char) :
    ∃ gap, (trivia mode n cs).Of mode n gap cs := by
  fun_induction trivia mode n cs with
  | case1 n => exact ⟨[], rfl, rfl, .between (.nil gapless_nil), rfl⟩
  | case2 n start =>
    exact ⟨[], rfl, rfl, .line (b := []) (by simp) (by simp) (.nil gapless_nil), rfl⟩
  | case3 n start => exact ⟨[], rfl, rfl, .unclosed not_infix_nil, rfl⟩
  | case4 n c cs hc ih =>
    obtain ⟨gap, h⟩ := ih
    refine ⟨c :: gap, h.cons rfl ?_ (.between (.blank ?_ h.passed.gap_of_between))⟩
    · rw [hc]
      rfl
    · exact isBlank_of_isLineBreak hc
  | case5 n c cs hc hblank ih =>
    obtain ⟨gap, h⟩ := ih
    refine ⟨c :: gap, h.cons rfl ?_ (.between (.blank hblank h.passed.gap_of_between))⟩
    rw [Bool.eq_false_iff.2 hc, Bool.false_or]
  | case6 n ds _ _ ih =>
    obtain ⟨gap, h⟩ := ih
    exact ⟨'/' :: '/' :: gap, h.append (p := ['/', '/']) rfl rfl (.between h.passed.gap_of_line)⟩
  | case7 n ds _ _ ih =>
    obtain ⟨gap, h⟩ := ih
    exact ⟨'/' :: '*' :: gap, h.append (p := ['/', '*']) rfl rfl (.between h.passed.gap_of_block)⟩
  | case8 n cs hline hblock _ hblank =>
    refine ⟨[], rfl, rfl, .between (.nil ⟨?_, ?_, ?_⟩), rfl⟩
    · simpa [isBlank] using hblank
    · rintro ⟨ds, hds⟩
      exact hline ds (List.cons.inj hds).2.symm
    · rintro ⟨ds, hds⟩
      exact hblock ds (List.cons.inj hds).2.symm
  | case9 n c cs _ hblank hslash =>
    refine ⟨[], rfl, rfl, .between (.nil ⟨?_, ?_, ?_⟩), rfl⟩
    · simpa [isBlank] using hblank
    all_goals
      rintro ⟨ds, hds⟩
      exact hslash (List.cons.inj hds).1.symm
  | case10 n c cs start hc ih =>
    obtain ⟨gap, h⟩ := ih
    have hgap : Gap n (c :: gap) _ _ := .blank (isBlank_of_isLineBreak hc) h.passed.gap_of_between
    refine ⟨c :: gap, h.cons rfl ?_ (.line (b := []) (by simp) (by simpa using hc) hgap)⟩
    rw [hc]
    rfl
  | case11 n c cs start hc ih =>
    obtain ⟨gap, h⟩ := ih
    have hc := Bool.eq_false_iff.2 hc
    exact ⟨c :: gap, h.cons rfl (by rw [hc, Bool.false_or]) (h.passed.cons_line hc)⟩
  | case12 n start ds ih =>
    obtain ⟨gap, h⟩ := ih
    refine ⟨'*' :: '/' :: gap, h.append (p := ['*', '/']) rfl rfl ?_⟩
    exact .block (b := []) not_infix_star h.passed.gap_of_between
  | case13 n start ds hds ih =>
    obtain ⟨gap, h⟩ := ih
    refine ⟨'*' :: gap, Trivia.Of.cons (c := '*') h rfl rfl (Passed.cons_block (fun _ => ?_) h.passed)⟩
    rw [← h.text]
    intro hhead
    obtain ⟨es, hes⟩ := List.head?_eq_some_iff.1 hhead
    exact hds es hes
  | case14 n c cs start hstar hc ih =>
    obtain ⟨gap, h⟩ := ih
    refine ⟨c :: gap, h.cons rfl ?_ (h.passed.cons_block fun heq => absurd heq hstar)⟩
    rw [hc]
    rfl
  | case15 n c cs start hstar hc ih =>
    obtain ⟨gap, h⟩ := ih
    refine ⟨c :: gap, h.cons rfl ?_ (h.passed.cons_block fun heq => absurd heq hstar)⟩
    rw [Bool.eq_false_iff.2 hc, Bool.false_or]

/-! ## One step -/

namespace Lexer

variable {l l' : Lexer} {ls : List Lexer} {word : List Char}

@[simp] theorem lineBreak_finishTemplate (l : Lexer) (opening : Bool) (first : Cursor) :
    (l.finishTemplate opening first).lineBreak = l.lineBreak := by
  unfold finishTemplate
  dsimp only
  split <;> rfl

@[simp] theorem comments_finishTemplate (l : Lexer) (opening : Bool) (first : Cursor) :
    (l.finishTemplate opening first).comments = l.comments := by
  unfold finishTemplate
  dsimp only
  split <;> rfl

theorem kind_finishTemplate (l : Lexer) (opening : Bool) (first : Cursor) :
    (l.finishTemplate opening first).kind ≠ .endOfFile := by
  unfold finishTemplate
  dsimp only
  split <;> exact fun h => nomatch h

@[simp] theorem lineBreak_token (l : Lexer) (c : Char) : (l.token c).lineBreak = l.lineBreak := by
  unfold token
  dsimp only
  repeat' split
  all_goals first | rfl | simp

@[simp] theorem comments_token (l : Lexer) (c : Char) : (l.token c).comments = l.comments := by
  unfold token
  dsimp only
  repeat' split
  all_goals first | rfl | simp

theorem kind_token (l : Lexer) (c : Char) : (l.token c).kind ≠ .endOfFile := by
  unfold token
  dsimp only
  repeat' split
  all_goals first | exact kind_finishTemplate _ _ _ | exact fun h => nomatch h

/-- The lexer stands at the token `word`, behind the gap that begins at offset `n`; the end of the
text is the one token without characters. -/
structure Behind (l : Lexer) (n : Nat) (gap word : List Char) : Prop where
  start : l.start.offset = n + size gap
  stop : l.cursor.offset = n + size gap + size word
  value : l.value = String.ofList word
  lineBreak : l.lineBreak = gap.any isLineBreak
  kind : l.kind = .endOfFile ↔ word = []

/-- What `scan` does, told of the trivia in front of the token. -/
theorem scan_eq (l : Lexer) {t : Trivia} (ht : trivia .between l.cursor.offset l.cursor.rest = t) :
    l.scan.start = t.stop ∧ l.scan.lineBreak = t.lineBreak ∧
      l.scan.comments = l.comments ++ t.comments ∧
      (l.scan.kind = .endOfFile → l.scan.cursor = t.stop ∧ l.scan.value = "" ∧ t.stop.rest = []) := by
  subst ht
  unfold scan
  extract_lets t l'
  split
  · next hend => exact ⟨rfl, rfl, rfl, fun _ => ⟨rfl, rfl, List.head?_eq_none_iff.1 hend⟩⟩
  · next c hc =>
    exact ⟨start_token _ _, lineBreak_token _ _, comments_token _ _,
      fun h => absurd h (kind_token _ _)⟩

/-- One step passes a gap and a token. -/
theorem scan_behind (l : Lexer) : ∃ gap word comments,
    l.cursor.rest = gap ++ (word ++ l.scan.cursor.rest) ∧
      Gap l.cursor.offset gap comments (word ++ l.scan.cursor.rest) ∧
      l.scan.Behind l.cursor.offset gap word ∧
      (word = [] → l.scan.cursor.rest = []) ∧
      l.scan.comments.toList = l.comments.toList ++ comments := by
  obtain ⟨gap, hgap⟩ := trivia_passed .between l.cursor.offset l.cursor.rest
  generalize ht : trivia .between l.cursor.offset l.cursor.rest = t at hgap
  obtain ⟨hstart, hbreak, hcomments, hend⟩ := l.scan_eq ht
  have hready := l.scan_ready.1
  obtain ⟨hrest, hoffset⟩ := hready.reach.rest_eq
  generalize hword : l.scan.start.upTo l.scan.cursor.offset = word at hrest hoffset
  have hpassed := hgap.passed.gap_of_between
  rw [hstart] at hrest hoffset
  have hkind : l.scan.kind = .endOfFile ↔ word = [] := by
    constructor
    · intro hk
      obtain ⟨-, -, hnil⟩ := hend hk
      exact (List.append_eq_nil_iff.1 (hrest.symm.trans hnil)).1
    · rintro rfl
      by_contra hk
      have hlt := hready.lt hk
      rw [hstart, hoffset] at hlt
      exact absurd hlt (Nat.lt_irrefl _)
  refine ⟨gap, word, t.comments, hrest ▸ hgap.text, hrest ▸ hpassed, ?_, ?_, ?_⟩
  · refine ⟨hstart ▸ hgap.offset, hgap.offset ▸ hoffset, ?_, hbreak.trans hgap.lineBreak, hkind⟩
    by_cases hk : l.scan.kind = .endOfFile
    · rw [(hend hk).2.1, hkind.1 hk]
    · rw [hready.value hk, text, hword]
  · intro hnil
    obtain ⟨hcursor, -, hrest⟩ := hend (hkind.2 hnil)
    rw [hcursor, hrest]
  · rw [hcomments, Array.toList_appendList]

end Lexer

/-! ## The whole text -/

/-- Repeating `scan` up to the end of the text; the readers at the tokens in turn. -/
inductive Scanning : Lexer → List Lexer → Prop where
  | done {l : Lexer} (h : l.scan.kind = .endOfFile) : Scanning l [l.scan]
  | more {l : Lexer} {ls : List Lexer} (h : l.scan.kind ≠ .endOfFile)
    (hrest : Scanning l.scan ls) : Scanning l (l.scan :: ls)

/-- `Tiles n cs comments ls last`: the characters `cs` from offset `n` on are gaps and tokens in
turn, at which the lexers `ls` stand, and a gap in front of the end of the text, at which `last`
stands. The comments of the gaps are `comments`. -/
inductive Tiles : Nat → List Char → List Comment → List Lexer → Lexer → Prop where
  | done {n : Nat} {gap : List Char} {comments : List Comment} {last : Lexer}
    (hgap : Gap n gap comments []) (hlast : last.Behind n gap []) :
    Tiles n gap comments [] last
  | more {n : Nat} {gap word rest : List Char} {comments comments' : List Comment}
    {l last : Lexer} {ls : List Lexer} (hgap : Gap n gap comments (word ++ rest))
    (hl : l.Behind n gap word) (hword : word ≠ [])
    (hrest : Tiles (n + size gap + size word) rest comments' ls last) :
    Tiles n (gap ++ (word ++ rest)) (comments ++ comments') (l :: ls) last

namespace Scanning

variable {l last : Lexer} {ls ls' : List Lexer}

/-- There is one way to scan a text. -/
theorem unique (h : Scanning l ls) (h' : Scanning l ls') : ls = ls' := by
  induction h generalizing ls' with
  | done hk =>
    cases h' with
    | done => rfl
    | more hk' => exact absurd hk hk'
  | more hk _ ih =>
    cases h' with
    | done hk' => exact absurd hk' hk
    | more _ hrest => rw [ih hrest]

end Scanning

/-- From any cursor on the lexer comes to the end of the text. -/
theorem exists_scanning (l : Lexer) : ∃ ls last comments, Scanning l (ls ++ [last]) ∧
    Tiles l.cursor.offset l.cursor.rest comments ls last ∧
    last.comments.toList = l.comments.toList ++ comments := by
  -- Every token but the last takes a character off the text.
  generalize hlength : l.cursor.rest.length = m
  induction m using Nat.strongRecOn generalizing l with
  | ind m ih =>
    obtain ⟨gap, word, comments, htext, hgap, hl, hend, hcomments⟩ := l.scan_behind
    by_cases hk : l.scan.kind = .endOfFile
    · have hword := hl.kind.1 hk
      rw [hword] at htext hgap hl
      rw [hend hword, List.append_nil] at htext hgap
      rw [List.append_nil] at htext
      exact ⟨[], l.scan, comments, .done hk, htext ▸ .done hgap hl, hcomments⟩
    · have hword : word ≠ [] := fun h => hk (hl.kind.2 h)
      have hlt : l.scan.cursor.rest.length < m := by
        have hpos := List.length_pos_iff.2 hword
        rw [← hlength, htext, List.length_append, List.length_append]
        omega
      obtain ⟨ls, last, comments', hscan, htiles, hlast⟩ := ih _ hlt l.scan rfl
      refine ⟨l.scan :: ls, last, comments ++ comments', .more hk hscan, ?_, ?_⟩
      · rw [htext]
        exact .more hgap hl hword (hl.stop ▸ htiles)
      · rw [hlast, hcomments, List.append_assoc]

namespace Tiles

variable {last : Lexer} {ls : List Lexer}

/-- There are no more tokens than bytes. -/
theorem length_le (h : Tiles n cs comments ls last) : ls.length ≤ size cs := by
  induction h with
  | done => exact Nat.zero_le _
  | @more n gap word rest _ _ _ _ _ _ _ hword _ ih =>
    have hpos : 0 < size word := Text.size_pos hword
    rw [List.length_cons, Text.size_append, Text.size_append]
    omega

/-- The last token is the end of the text. -/
theorem at_end (h : Tiles n cs comments ls last) : last.kind = .endOfFile ∧
    last.start.offset = n + size cs ∧ last.cursor.offset = n + size cs := by
  induction h with
  | done _ hlast => exact ⟨hlast.kind.2 rfl, hlast.start, hlast.stop⟩
  | more _ _ _ _ ih =>
    obtain ⟨hkind, hstart, hstop⟩ := ih
    simp only [Text.size_append]
    exact ⟨hkind, by omega, by omega⟩

/-- Tokens follow one another, and only the last one is empty. -/
theorem ordered (h : Tiles n cs comments ls last) :
    (ls ++ [last]).Pairwise (fun l l' => l.cursor.offset ≤ l'.start.offset) ∧
      (∀ l ∈ ls ++ [last], n ≤ l.start.offset) ∧
      ∀ l ∈ ls, l.kind ≠ .endOfFile ∧ l.start.offset < l.cursor.offset := by
  induction h with
  | @done n gap _ last _ hlast =>
    refine ⟨List.pairwise_singleton _ _, fun l hl => ?_, fun l hl => absurd hl List.not_mem_nil⟩
    obtain rfl := List.mem_singleton.1 hl
    exact hlast.start ▸ Nat.le_add_right n (size gap)
  | @more n gap word rest _ _ l last ls _ hl hword _ ih =>
    obtain ⟨hpairwise, hle, htokens⟩ := ih
    have hstart := hl.start
    have hstop := hl.stop
    have hpos : 0 < size word := Text.size_pos hword
    refine ⟨List.pairwise_cons.2 ⟨fun l' hl' => ?_, hpairwise⟩, List.forall_mem_cons.2 ⟨?_, ?_⟩,
      List.forall_mem_cons.2 ⟨⟨fun hk => hword (hl.kind.1 hk), ?_⟩, htokens⟩⟩
    · have := hle l' hl'
      omega
    · omega
    · intro l' hl'
      have := hle l' hl'
      omega
    · omega

end Tiles

/-- What scanning has to give back of a text: the tokens `ls` and the end of the text `last`. -/
structure Lossless (cs : List Char) (ls : List Lexer) (last : Lexer) : Prop where
  /-- No more tokens than bytes. -/
  length : ls.length ≤ size cs
  token : ∀ l ∈ ls, l.kind ≠ .endOfFile ∧ l.start.offset < l.cursor.offset
  ordered : (ls ++ [last]).Pairwise fun l l' => l.cursor.offset ≤ l'.start.offset
  kind : last.kind = .endOfFile
  start : last.start.offset = size cs
  stop : last.cursor.offset = size cs
  /-- Gaps and tokens make up the text, and the comments recorded are those of the gaps. -/
  tiles : Tiles 0 cs last.comments.toList ls last

/-- Scanning is lossless: it comes to the end of any text, and what it passed is the text (with
offsets in 32 bits, of any text below `2 ^ 32` bytes). -/
theorem exists_lossless_scanning (cs : List Char) :
    ∃ ls last, Scanning (.ofText cs) (ls ++ [last]) ∧ Lossless cs ls last := by
  obtain ⟨ls, last, comments, hscan, htiles, hcomments⟩ := exists_scanning (.ofText cs)
  have hcomments : comments = last.comments.toList := hcomments.symm
  subst hcomments
  have htiles : Tiles 0 cs last.comments.toList ls last := htiles
  obtain ⟨hkind, hstart, hstop⟩ := htiles.at_end
  rw [Nat.zero_add] at hstart hstop
  exact ⟨ls, last, hscan, htiles.length_le, htiles.ordered.2.2, htiles.ordered.1, hkind, hstart,
    hstop, htiles⟩

end Token

end LoopClosure
