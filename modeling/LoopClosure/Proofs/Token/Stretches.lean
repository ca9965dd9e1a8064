import LoopClosure.Proofs.Token.Lexemes
import LoopClosure.Proofs.Token.Lossless
import LoopClosure.Proofs.Token.Malformed

/-!
# Tokens with their gaps

A `Stretch` is a token with the gap in front of it. What may be wrong with it (`Stretch.Defect`) is
told by its characters: the comment that the gap ends in is not closed (`Unclosed`), or the token is
malformed. `Lexer.Stands` is a lexer at a stretch. One step of the lexer comes to the stretch behind
the cursor, and records the comments of its gap and its defect, if there is one (`scan_stands`);
reading the token again puts another stretch in its place (`Lexer.Rereads`). So what a lexer recorded
on its way along the text is what there is in the stretches (`Lexer.Along`), and wherever a string is
the current token and not closed, that has been reported (`Lexer.Told`).
-/

namespace LoopClosure.Token

open Text (Cursor isLineBreak size)
open Text.Cursor

attribute [ext] Text.Cursor

variable {n : Nat} {cs word rest : List Char} {d : LexDiagnostic}

/-! ## Gaps -/

/-- The gap at offset `n` ends inside its last comment; `d` tells where the comment begins. -/
def Unclosed (n : Nat) (gap : List Char) (comments : List Comment) (d : LexDiagnostic) : Prop :=
  ∃ front body, gap = front ++ '/' :: '*' :: body ∧ ¬ ['*', '/'] <:+: body ∧
    ⟨n + size front, n + size gap, true⟩ ∈ comments ∧
    d = ⟨n + size front, 2 + size body, .unclosedComment⟩

section Gaps

variable {gap : List Char} {comments : List Comment} {start m : Nat} {b : List Char}

theorem size_slash_cons (cs : List Char) : size ('/' :: cs) = 1 + size cs := rfl

theorem size_star_cons (cs : List Char) : size ('*' :: cs) = 1 + size cs := rfl

/-- The comments of a gap lie in it one behind the other. -/
theorem Gap.comments_ordered (h : Gap n gap comments rest) :
    comments.Pairwise (fun c c' => c.stop ≤ c'.start) ∧
      ∀ c ∈ comments, n ≤ c.start ∧ c.start < c.stop ∧ c.stop ≤ n + size gap := by
  induction h with
  | nil => exact ⟨.nil, fun c hc => absurd hc List.not_mem_nil⟩
  | blank _ _ ih =>
    refine ⟨ih.1, fun c hc => ?_⟩
    obtain ⟨hstart, hlt, hstop⟩ := ih.2 c hc
    rw [size]
    omega
  | line _ _ _ ih =>
    simp only [List.pairwise_cons, List.forall_mem_cons, size_slash_cons, Text.size_append]
    refine ⟨⟨fun c hc => (ih.2 c hc).1, ih.1⟩, by omega, fun c hc => ?_⟩
    obtain ⟨hstart, hlt, hstop⟩ := ih.2 c hc
    omega
  | block _ _ ih =>
    simp only [List.pairwise_cons, List.forall_mem_cons, size_slash_cons, size_star_cons,
      Text.size_append]
    refine ⟨⟨fun c hc => (ih.2 c hc).1, ih.1⟩, by omega, fun c hc => ?_⟩
    obtain ⟨hstart, hlt, hstop⟩ := ih.2 c hc
    omega
  | unclosed =>
    simp only [List.pairwise_singleton, List.forall_mem_singleton, size_slash_cons, size_star_cons,
      true_and]
    omega

/-- The body of a line comment adds nothing to the report, -/
theorem trivia_line (hbody : ∀ c ∈ b, isLineBreak c = false)
    (hstop : ∀ c ∈ cs.head?, isLineBreak c = true) :
    (trivia (.line start) m (b ++ cs)).errors = (trivia .between (m + size b) cs).errors := by
  induction b generalizing m with
  | nil =>
    cases cs with
    | nil => simp [trivia]
    | cons c cs =>
      have hc := hstop c rfl
      rw [List.nil_append, trivia.eq_def, trivia.eq_def .between]
      simp only [hc, if_true]
      rfl
  | cons c b ih =>
    rw [List.forall_mem_cons] at hbody
    rw [List.cons_append, trivia.eq_def]
    simp only [hbody.1, Bool.false_eq_true, if_false]
    rw [ih hbody.2, size, Nat.add_assoc]

/-- A character in a block comment that does not close it together with the next one. -/
theorem trivia_block_cons {c : Char} (hc : c = '*' → cs.head? ≠ some '/') :
    (trivia (.block start) m (c :: cs)).errors =
      (trivia (.block start) (m + c.utf8Size) cs).errors := by
  rw [trivia.eq_def]
  dsimp only
  split
  · next hstar =>
    subst hstar
    split
    · exact absurd rfl (hc rfl)
    · rfl
  · split <;> rfl

theorem not_infix_tail {c : Char} (h : ¬ ['*', '/'] <:+: c :: cs) :
    (c = '*' → cs.head? ≠ some '/') ∧ ¬ ['*', '/'] <:+: cs := by
  refine ⟨?_, fun hinfix => h (List.infix_cons hinfix)⟩
  rintro rfl hhead
  obtain ⟨ds, rfl⟩ := List.head?_eq_some_iff.1 hhead
  exact h ⟨[], ds, rfl⟩

/-- nor does that of a block comment which is closed; -/
theorem trivia_block (hbody : ¬ ['*', '/'] <:+: b ++ ['*']) :
    (trivia (.block start) m (b ++ '*' :: '/' :: cs)).errors =
      (trivia .between (m + size b + 2) cs).errors := by
  induction b generalizing m with
  | nil =>
    rw [List.nil_append, trivia.eq_def]
    rfl
  | cons c b ih =>
    obtain ⟨hc, hbody⟩ := not_infix_tail hbody
    have hhead : (b ++ '*' :: '/' :: cs).head? = (b ++ ['*']).head? := by cases b <;> rfl
    rw [List.cons_append, trivia_block_cons (hhead ▸ hc), ih hbody, size, Nat.add_assoc m]

/-- one that is not is reported. -/
theorem trivia_unclosed (hbody : ¬ ['*', '/'] <:+: b) :
    (trivia (.block start) m b).errors = [⟨start, m + size b - start, .unclosedComment⟩] := by
  induction b generalizing m with
  | nil =>
    rw [trivia.eq_def]
    rfl
  | cons c b ih =>
    obtain ⟨hc, hbody⟩ := not_infix_tail hbody
    rw [trivia_block_cons hc, ih hbody, size, Nat.add_assoc]

theorem trivia_of_gapless (h : Gapless cs) : trivia .between n cs = ⟨⟨n, cs⟩, false, [], []⟩ := by
  cases cs with
  | nil => rw [trivia.eq_def]
  | cons c cs =>
    have hblank := h.blank c rfl
    rw [isBlank, Bool.or_eq_false_iff] at hblank
    have hbreak : isLineBreak c = false := by
      by_contra hc
      have hspace := Text.isLineBreak_isWhiteSpace (Bool.of_not_eq_false hc)
      rw [hblank.1] at hspace
      cases hspace
    rw [trivia.eq_def]
    dsimp only
    rw [if_neg (Bool.eq_false_iff.1 hbreak), hblank.1, Bool.false_or,
      if_neg (Bool.eq_false_iff.1 hblank.2)]
    split
    · next hslash =>
      subst hslash
      split
      · exact absurd ⟨_, rfl⟩ h.line
      · exact absurd ⟨_, rfl⟩ h.block
      · rfl
    · rfl

theorem trivia_blank_cons {c : Char} (hc : isBlank c = true) :
    (trivia .between n (c :: cs)).errors = (trivia .between (n + c.utf8Size) cs).errors := by
  rw [isBlank] at hc
  rw [trivia.eq_def]
  dsimp only
  rw [if_pos hc]
  split <;> rfl

theorem trivia_line_opening :
    trivia .between n ('/' :: '/' :: cs) = trivia (.line n) (n + 2) cs := by
  rw [trivia.eq_def]
  rfl

theorem trivia_block_opening :
    trivia .between n ('/' :: '*' :: cs) = trivia (.block n) (n + 2) cs := by
  rw [trivia.eq_def]
  rfl

/-- Closed comments in front do not count. -/
theorem unclosed_append (p : List Char) (before : List Comment) {d : LexDiagnostic}
    (hbefore : ∀ c ∈ before, c.block = true → ∀ front body,
      p ++ gap = front ++ '/' :: '*' :: body → n + size front = c.start → ['*', '/'] <:+: body)
    (hcomments : ∀ c ∈ comments, n + size p ≤ c.start) :
    Unclosed n (p ++ gap) (before ++ comments) d ↔ Unclosed (n + size p) gap comments d := by
  constructor
  · rintro ⟨front, body, hgap, hbody, hmem, rfl⟩
    rcases List.mem_append.1 hmem with hmem | hmem
    · exact absurd (hbefore _ hmem rfl front body hgap rfl) hbody
    · have hle := hcomments _ hmem
      dsimp only at hle
      obtain ⟨mid, rfl, hmid⟩ := Text.exists_middle hgap (by omega)
      refine ⟨mid, body, hmid, hbody, ?_, ?_⟩
      · rw [Text.size_append, Text.size_append, ← Nat.add_assoc, ← Nat.add_assoc] at hmem
        exact hmem
      · rw [Text.size_append, Nat.add_assoc]
  · rintro ⟨front, body, rfl, hbody, hmem, rfl⟩
    refine ⟨p ++ front, body, (List.append_assoc _ _ _).symm, hbody, List.mem_append_right _ ?_, ?_⟩
    · rw [Text.size_append, Text.size_append, ← Nat.add_assoc, ← Nat.add_assoc]
      exact hmem
    · rw [Text.size_append, Nat.add_assoc]

theorem eq_nil_of_size (h : n + size cs = n) : cs = [] := by
  by_contra hne
  have hpos := Text.size_pos hne
  omega

/-- What is reported of a gap. -/
theorem Gap.exists_error (h : Gap n gap comments rest) :
    ∃ error? : Option LexDiagnostic, (trivia .between n (gap ++ rest)).errors = error?.toList ∧
      (∀ d, error? = some d ↔ Unclosed n gap comments d) ∧ (error? ≠ none → rest = []) := by
  induction h with
  | nil hrest =>
    refine ⟨none, ?_, fun d => iff_of_false nofun ?_, fun hne => absurd rfl hne⟩
    · rw [List.nil_append, trivia_of_gapless hrest]
      rfl
    · rintro ⟨_, _, hgap, -⟩
      simp at hgap
  | @blank n c gap rest comments hc h ih =>
    obtain ⟨error?, herror, hiff, hrest⟩ := ih
    refine ⟨error?, ?_, fun d => ?_, hrest⟩
    · rw [List.cons_append, trivia_blank_cons hc, herror]
    · have hsize : size [c] = c.utf8Size := rfl
      rw [hiff, ← hsize]
      refine (unclosed_append [c] [] (by simp) fun c' hc' => ?_).symm
      exact hsize ▸ (h.comments_ordered.2 c' hc').1
  | @line n b gap rest comments hbody hstop h ih =>
    obtain ⟨error?, herror, hiff, hrest⟩ := ih
    have hsize : n + 2 + size b = n + size ('/' :: '/' :: b) := by
      simp only [size_slash_cons]
      omega
    refine ⟨error?, ?_, fun d => ?_, hrest⟩
    · rw [← herror, ← trivia_line hbody hstop, ← trivia_line_opening]
      simp only [List.cons_append, List.append_assoc]
    · rw [hiff, hsize]
      refine (unclosed_append ('/' :: '/' :: b) [_] ?_ fun c' hc' => ?_).symm
      · simp
      · exact hsize ▸ (h.comments_ordered.2 c' hc').1
  | @block n b gap rest comments hbody h ih =>
    obtain ⟨error?, herror, hiff, hrest⟩ := ih
    have hgap : '/' :: '*' :: (b ++ '*' :: '/' :: gap) = '/' :: '*' :: (b ++ ['*', '/']) ++ gap := by
      simp
    have hsize : n + 2 + size b + 2 = n + size ('/' :: '*' :: (b ++ ['*', '/'])) := by
      have hclose : size ['*', '/'] = 2 := rfl
      rw [size_slash_cons, size_star_cons, Text.size_append, hclose]
      omega
    refine ⟨error?, ?_, fun d => ?_, hrest⟩
    · rw [← herror, ← trivia_block hbody, ← trivia_block_opening]
      simp only [List.cons_append, List.append_assoc]
    · rw [hiff, hgap, hsize]
      refine (unclosed_append _ [_] ?_ fun c' hc' => ?_).symm
      · rintro c hc - front body hfront hstart
        obtain rfl := List.mem_singleton.1 hc
        obtain rfl : front = [] := eq_nil_of_size hstart
        have hinfix : body = b ++ ['*', '/'] ++ gap := by
          simpa using (List.cons.inj (List.cons.inj hfront).2).2.symm
        exact hinfix ▸ ⟨b, gap, rfl⟩
      · exact hsize ▸ (h.comments_ordered.2 c' hc').1
  | @unclosed n b hbody =>
    have hsize : n + 2 + size b = n + size ('/' :: '*' :: b) := by
      simp only [size_slash_cons, size_star_cons]
      omega
    refine ⟨some ⟨n, 2 + size b, .unclosedComment⟩, ?_, fun d => ?_, fun _ => rfl⟩
    · rw [List.append_nil, trivia_block_opening, trivia_unclosed hbody, Nat.add_assoc,
        Nat.add_sub_cancel_left]
      rfl
    · rw [Option.some_inj]
      constructor
      · rintro rfl
        exact ⟨[], b, rfl, hbody, List.mem_singleton.2 (by rw [hsize]; rfl), rfl⟩
      · rintro ⟨front, body, hfront, -, hmem, rfl⟩
        have hstart : n + size front = n := congrArg Comment.start (List.mem_singleton.1 hmem)
        obtain rfl : front = [] := eq_nil_of_size hstart
        obtain rfl := (List.cons.inj (List.cons.inj hfront).2).2
        rfl

theorem Gap.not_unclosed (h : Gap n gap comments rest) (hrest : rest ≠ []) :
    ¬ Unclosed n gap comments d := by
  obtain ⟨error?, -, hiff, hend⟩ := h.exists_error
  exact fun hd => hrest (hend fun hnone => nomatch hnone.symm.trans ((hiff d).2 hd))

end Gaps

/-! ## Stretches -/

/-- A token with the gap in front of it. -/
structure Stretch where
  /-- Where the gap begins. -/
  offset : Nat
  gap : List Char
  comments : List Comment
  kind : Kind
  word : List Char
  /-- What is left of the text behind the token. -/
  rest : List Char
  error? : Option LexDiagnostic

namespace Stretch

def start (s : Stretch) : Nat := s.offset + size s.gap

def stop (s : Stretch) : Nat := s.start + size s.word

def lexeme (s : Stretch) : Lexeme := ⟨s.kind, s.start, s.stop⟩

/-- What is wrong with the gap or with the token. -/
def Defect (s : Stretch) (d : LexDiagnostic) : Prop :=
  Unclosed s.offset s.gap s.comments d ∨ Malformed s.start s.kind s.word s.rest d

/-- The stretch is one of a text: nothing but blanks and the comments is in the gap, nothing but the
end of the text is empty, and what is reported is what is wrong. -/
structure Sound (s : Stretch) : Prop where
  gap : Gap s.offset s.gap s.comments (s.word ++ s.rest)
  kind : s.kind = .endOfFile ↔ s.word = []
  rest : s.word = [] → s.rest = []
  error : ∀ d, s.error? = some d ↔ s.Defect d

/-- The stretches have the gap in common, and the text from there on. -/
structure Again (s s' : Stretch) : Prop where
  offset : s'.offset = s.offset
  gap : s'.gap = s.gap
  comments : s'.comments = s.comments
  text : s'.word ++ s'.rest = s.word ++ s.rest

theorem Again.refl (s : Stretch) : s.Again s := ⟨rfl, rfl, rfl, rfl⟩

/-- A token that cannot be malformed has a whole gap in front of it, unless it is the end of the
text. -/
theorem Sound.error_eq_none {s : Stretch} (h : s.Sound) (hkind : s.kind.isPlain = true)
    (hend : s.kind ≠ .endOfFile) : s.error? = none := by
  rw [Option.eq_none_iff_forall_ne_some]
  intro d hd
  have hrest : s.word ++ s.rest ≠ [] := fun hnil => hend (h.kind.2 (List.append_eq_nil_iff.1 hnil).1)
  exact ((h.error d).1 hd).elim (h.gap.not_unclosed hrest) (not_malformed hkind)

end Stretch

namespace Lexer

variable {l l' : Lexer} {s : Stretch}

/-- The lexer stands at the token of the stretch. -/
structure Stands (l : Lexer) (s : Stretch) : Prop where
  ready : l.Ready
  sound : s.Sound
  kind : s.kind = l.kind
  start : l.start = ⟨s.start, s.word ++ s.rest⟩
  cursor : l.cursor = ⟨s.stop, s.rest⟩

theorem Stands.lexeme (h : l.Stands s) : l.lexeme = s.lexeme := by
  rw [Lexer.lexeme, h.start, h.cursor, ← h.kind]
  rfl

theorem Ready.word_ne_nil (h : l.Ready) (hkind : l.kind ≠ .endOfFile)
    (hstop : l.cursor.offset = l.start.offset + size word) : word ≠ [] := by
  rintro rfl
  have hlt := h.lt hkind
  rw [hstop] at hlt
  exact absurd hlt (Nat.lt_irrefl _)

/-- A token behind a gap. -/
theorem Reads.stands {gap : List Char} {comments : List Comment} {error? : Option LexDiagnostic}
    (h : l.Reads l' word error?) (hready : l'.Ready) (hstart : l'.start = l.start)
    (hkind : l'.kind ≠ .endOfFile) (hoffset : l.start.offset = n + size gap)
    (hgap : Gap n gap comments l.start.rest) :
    l'.Stands ⟨n, gap, comments, l'.kind, word, l'.cursor.rest, error?⟩ := by
  have hword := hready.word_ne_nil hkind (hstart ▸ h.stop)
  rw [h.text] at hgap
  refine ⟨hready, ⟨hgap, iff_of_false hkind hword, fun hnil => absurd hnil hword, fun d => ?_⟩, rfl,
    Cursor.ext ?_ ?_, Cursor.ext ?_ rfl⟩
  · have hrest : word ++ l'.cursor.rest ≠ [] := fun hnil => hword (List.append_eq_nil_iff.1 hnil).1
    exact ((h.malformed d).trans (by rw [hoffset]; rfl)).trans
      (or_iff_right (hgap.not_unclosed hrest)).symm
  · rw [hstart, hoffset]
    rfl
  · rw [hstart, h.text]
  · rw [h.stop, hoffset]
    rfl

/-- At the end of the text, in front of the next token if there is one. -/
def pastGap (l : Lexer) : Lexer :=
  let t := trivia .between l.cursor.offset l.cursor.rest
  { cursor := t.stop, kind := .endOfFile, start := t.stop, value := "", lineBreak := t.lineBreak
    comments := l.comments ++ t.comments
    errors := l.errors ++ t.errors }

theorem scan_of_nil (h : l.pastGap.start.rest = []) : l.scan = l.pastGap := by
  have hpeek : l.pastGap.start.peek? = none := by rw [Cursor.peek?, h]; rfl
  unfold scan
  dsimp only
  split
  · rfl
  · next hc => exact nomatch hpeek.symm.trans hc

theorem scan_of_cons {c : Char} (h : l.pastGap.start.rest = c :: cs) :
    l.scan = l.pastGap.token c := by
  have hpeek : l.pastGap.start.peek? = some c := by rw [Cursor.peek?, h]; rfl
  unfold scan
  dsimp only
  split
  · next hc => exact nomatch hpeek.symm.trans hc
  · next hc =>
    obtain rfl := Option.some.inj (hpeek.symm.trans hc)
    rfl

/-- One step comes to the stretch behind the cursor. -/
theorem scan_stands (l : Lexer) : ∃ s : Stretch, l.scan.Stands s ∧ s.offset = l.cursor.offset ∧
    l.cursor.rest = s.gap ++ (s.word ++ s.rest) ∧
    l.scan.comments.toList = l.comments.toList ++ s.comments ∧
    l.scan.errors.toList = l.errors.toList ++ s.error?.toList := by
  obtain ⟨gap, hgap⟩ := trivia_passed .between l.cursor.offset l.cursor.rest
  have hpassed := hgap.passed.gap_of_between
  obtain ⟨gapError?, herrors, hunclosed, hend⟩ := hpassed.exists_error
  rw [← hgap.text] at herrors
  have hready := l.scan_ready.1
  have hcomments : l.pastGap.comments.toList = l.comments.toList ++ _ := Array.toList_appendList
  have herrors : l.pastGap.errors.toList = l.errors.toList ++ gapError?.toList :=
    herrors ▸ Array.toList_appendList
  have hstart : l.pastGap.start.offset = l.cursor.offset + size gap := hgap.offset
  have htext : l.cursor.rest = gap ++ l.pastGap.start.rest := hgap.text
  change Gap _ gap _ l.pastGap.start.rest at hpassed
  change gapError? ≠ none → l.pastGap.start.rest = [] at hend
  generalize (trivia .between l.cursor.offset l.cursor.rest).comments = comments at *
  cases hrest : l.pastGap.start.rest with
  | nil =>
    rw [scan_of_nil hrest] at hready ⊢
    rw [hrest] at hpassed
    refine ⟨⟨l.cursor.offset, gap, comments, .endOfFile, [], [], gapError?⟩,
      ⟨hready, ⟨hpassed, iff_of_true rfl rfl, fun _ => rfl, fun d => ?_⟩, rfl, ?_, ?_⟩, rfl, ?_,
      hcomments, herrors⟩
    · exact (hunclosed d).trans (or_iff_left (not_malformed rfl)).symm
    · exact Cursor.ext hstart hrest
    · exact Cursor.ext hstart hrest
    · rw [htext, hrest]
      rfl
  | cons c cs =>
    have hgapError : gapError? = none := by
      by_contra hne
      rw [hend hne] at hrest
      cases hrest
    rw [scan_of_cons hrest] at hready ⊢
    obtain ⟨word, error?, hreads⟩ := token_reads (l := l.pastGap) rfl hrest
    refine ⟨_, hreads.stands hready (start_token _ _) (kind_token _ _) hstart hpassed, rfl, ?_, ?_, ?_⟩
    · rw [htext, hreads.text]
    · rw [comments_token, hcomments]
    · rw [hreads.errors, herrors, hgapError]
      exact congrArg (· ++ _) (List.append_nil _)

theorem Stands.error_eq_none (h : l.Stands s) (hkind : l.kind.isPlain = true)
    (hend : l.kind ≠ .endOfFile) : s.error? = none :=
  h.sound.error_eq_none (h.kind ▸ hkind) (h.kind ▸ hend)

/-- The lexer `l'` stands at the current token of `l`, which it may take for another one. What was
reported of the token is replaced. -/
structure Rereads (l l' : Lexer) (s s' : Stretch) : Prop where
  stands : l'.Stands s'
  again : s.Again s'
  comments : l'.comments = l.comments
  errors : ∀ es, l.errors.toList = es ++ s.error?.toList → l'.errors.toList = es ++ s'.error?.toList

theorem Stands.rereads (h : l.Stands s) : Rereads l l s s := ⟨h, .refl s, rfl, fun _ => id⟩

theorem Reads.rereads {error? : Option LexDiagnostic} (hreads : l.Reads l' word error?)
    (h : l.Stands s) (hready : l'.Ready) (hstart : l'.start = l.start) (hkind : l'.kind ≠ .endOfFile)
    (hcomments : l'.comments = l.comments) (hnone : s.error? = none) : ∃ s', Rereads l l' s s' := by
  have htext : l.start.rest = s.word ++ s.rest := congrArg Cursor.rest h.start
  refine ⟨_, hreads.stands hready hstart hkind (congrArg Cursor.offset h.start) (htext ▸ h.sound.gap),
    ⟨rfl, rfl, rfl, ?_⟩, hcomments, fun es hes => ?_⟩
  · rw [← htext, hreads.text]
  · rw [hreads.errors, hes, hnone, Option.toList_none, List.append_nil]

theorem rescanSlash_rereads (h : l.Stands s) : ∃ s', Rereads l l.rescanSlash s s' := by
  by_cases hkind : l.kind = .punct .slash ∨ l.kind = .punct .slashEquals
  · obtain ⟨cs, htext⟩ : ∃ cs, l.start.rest = '/' :: cs := by
      rcases hkind with hkind | hkind
      all_goals
        obtain ⟨rest, hrest, -⟩ := h.ready.spelled (hkind ▸ rfl)
        rw [hkind] at hrest
        exact ⟨_, hrest⟩
    have hend : l.kind ≠ .endOfFile := by rcases hkind with hkind | hkind <;> exact hkind ▸ nofun
    have hplain : l.kind.isPlain = true := by rcases hkind with hkind | hkind <;> exact hkind ▸ rfl
    obtain ⟨hready, hstart⟩ := rescanSlash_ready h.ready
    obtain ⟨word, error?, hreads⟩ := rescanSlash_reads hkind htext
    refine hreads.rereads h hready hstart (rescanSlash_kind hend) ?_ (h.error_eq_none hplain hend)
    unfold rescanSlash
    dsimp only
    repeat' split
    all_goals rfl
  · have hsame : l.rescanSlash = l := if_neg (by simpa using hkind)
    exact ⟨s, hsame.symm ▸ h.rereads⟩

theorem rescanTemplate_rereads (h : l.Stands s) : ∃ s', Rereads l l.rescanTemplate s s' := by
  by_cases hkind : l.kind = .punct .closeBrace
  · obtain ⟨cs, hrest, -⟩ := h.ready.spelled (hkind ▸ rfl)
    have htext : l.start.rest = '}' :: cs := by
      rw [hkind] at hrest
      exact hrest
    have hend : l.kind ≠ .endOfFile := hkind ▸ nofun
    obtain ⟨hready, hstart⟩ := rescanTemplate_ready h.ready
    obtain ⟨word, error?, hreads⟩ := rescanTemplate_reads hkind htext
    refine hreads.rereads h hready hstart (rescanTemplate_kind hend) ?_
      (h.error_eq_none (hkind ▸ rfl) hend)
    rw [rescanTemplate, if_pos hkind, comments_finishTemplate]
  · have hsame : l.rescanTemplate = l := if_neg hkind
    exact ⟨s, hsame.symm ▸ h.rereads⟩

/-! ## Strings -/

/-- A string without its second quote has been reported. -/
def MissesQuote (l : Lexer) : Prop := ∃ d ∈ l.errors.toList, d.error = .unterminatedString

/-- A string that is the current token has both of its quotes, or has been reported. -/
def Told (l : Lexer) : Prop := l.kind = .string → Delimited .string l.text.toList ∨ l.MissesQuote

theorem scan_told (l : Lexer) : l.scan.Told := by
  intro hkind
  obtain ⟨s, hs, -, -, -, herrors⟩ := l.scan_stands
  have hstring : s.kind = .string := hs.kind.trans hkind
  have htext : l.scan.text.toList = s.word := by
    have hrest := hs.ready.reach.rest_eq.1
    rw [hs.start, hs.cursor] at hrest
    rw [text, hs.start, hs.cursor, String.toList_ofList]
    exact (List.append_cancel_right hrest).symm
  rw [htext]
  refine or_iff_not_imp_left.2 fun hopen => ?_
  let d : LexDiagnostic := ⟨s.start, size s.word, .unterminatedString⟩
  have hmalformed : Malformed s.start s.kind s.word s.rest d :=
    hstring ▸ .unterminated rfl (hstring ▸ hopen)
  refine ⟨d, ?_, rfl⟩
  rw [herrors, (hs.sound.error d).2 (.inr hmalformed)]
  exact List.mem_append_right _ (List.mem_singleton_self d)

theorem rescanSlash_told (h : l.Told) : l.rescanSlash.Told := by
  unfold rescanSlash
  dsimp only
  repeat' split
  · exact fun hkind => nomatch hkind
  · exact fun hkind => nomatch hkind
  · exact h

theorem finishTemplate_told (opening : Bool) (first : Cursor) :
    (l.finishTemplate opening first).Told := by
  unfold finishTemplate
  dsimp only
  split <;> exact fun hkind => nomatch hkind

theorem rescanTemplate_told (h : l.Told) : l.rescanTemplate.Told := by
  unfold rescanTemplate
  split
  · exact finishTemplate_told _ _
  · exact h

theorem MissesQuote.scan (h : l.MissesQuote) : l.scan.MissesQuote := by
  obtain ⟨d, hd, herror⟩ := h
  obtain ⟨s, -, -, -, -, herrors⟩ := l.scan_stands
  exact ⟨d, herrors ▸ List.mem_append_left _ hd, herror⟩

end Lexer

/-- Between its quotes a closed string can be cut out. -/
theorem Delimited.exists_slice? (h : Delimited .string word) :
    ∃ body, Text.slice? word 1 (max (size word - 1) 1) = some body := by
  cases h with
  | @string quote body hquote h =>
    have hquote : quote.utf8Size = 1 := by
      rcases Bool.or_eq_true _ _ ▸ hquote with hc | hc <;> rw [of_decide_eq_true hc] <;> rfl
    refine ⟨body, Text.slice?_eq_some_iff.2 ⟨[quote], [quote], by simp, hquote, ?_⟩⟩
    have hone : size [quote] = 1 := hquote
    have hsize : size (quote :: (body ++ [quote])) = 1 + (size body + 1) := by
      rw [size, Text.size_append, hquote, hone]
    omega

/-! ## Along the text -/

/-- The stretches, the latest first, lie one behind the other between the two cursors. -/
inductive Laid (first : Cursor) : List Stretch → Cursor → Prop where
  | nil : Laid first [] first
  | cons {s : Stretch} {ss : List Stretch} {last : Cursor} (h : Laid first ss last) (hs : s.Sound)
    (hoffset : s.offset = last.offset) (htext : last.rest = s.gap ++ (s.word ++ s.rest)) :
    Laid first (s :: ss) ⟨s.stop, s.rest⟩

namespace Laid

variable {first last : Cursor} {ss : List Stretch}

theorem sound (h : Laid first ss last) : ∀ s ∈ ss, s.Sound := by
  induction h with
  | nil => exact fun s hs => absurd hs List.not_mem_nil
  | cons _ hs _ _ ih => exact List.forall_mem_cons.2 ⟨hs, ih⟩

theorem stop_le (h : Laid first ss last) : ∀ s ∈ ss, s.stop ≤ last.offset := by
  induction h with
  | nil => exact fun s hs => absurd hs List.not_mem_nil
  | @cons s ss last _ _ hoffset _ ih =>
    refine List.forall_mem_cons.2 ⟨Nat.le_refl _, fun s' hs' => ?_⟩
    have hle := ih s' hs'
    simp only [Stretch.stop, Stretch.start] at hle ⊢
    omega

/-- The comments of all the gaps, in order. -/
theorem comments_ordered (h : Laid first ss last) :
    (ss.reverse.flatMap (·.comments)).Pairwise (fun c c' => c.stop ≤ c'.start) ∧
      ∀ c ∈ ss.reverse.flatMap (·.comments), c.start < c.stop ∧ c.stop ≤ last.offset ∧
        ∀ s ∈ ss, c.stop ≤ s.start ∨ s.stop ≤ c.start := by
  induction h with
  | nil => exact ⟨.nil, fun c hc => absurd hc List.not_mem_nil⟩
  | @cons s ss last h hs hoffset _ ih =>
    obtain ⟨hordered, hwithin⟩ := hs.gap.comments_ordered
    have hstart : s.start = s.offset + size s.gap := rfl
    have hstop : s.start ≤ s.stop := Nat.le_add_right _ _
    simp only [List.reverse_cons, List.flatMap_append, List.flatMap_singleton, List.mem_append,
      List.pairwise_append, List.forall_mem_cons]
    refine ⟨⟨ih.1, hordered, fun c hc c' hc' => ?_⟩, ?_⟩
    · have := (ih.2 c hc).2.1
      have := (hwithin c' hc').1
      omega
    · rintro c (hc | hc)
      · obtain ⟨hlt, hle, hapart⟩ := ih.2 c hc
        exact ⟨hlt, by omega, .inl (by omega), hapart⟩
      · obtain ⟨hge, hlt, hle⟩ := hwithin c hc
        refine ⟨hlt, by omega, .inl (by omega), fun s' hs' => .inr ?_⟩
        have := h.stop_le s' hs'
        omega

theorem mem_errors_iff (h : Laid first ss last) {d : LexDiagnostic} :
    d ∈ ss.reverse.flatMap (·.error?.toList) ↔ ∃ s ∈ ss, s.Defect d := by
  simp only [List.mem_flatMap, List.mem_reverse, Option.mem_toList]
  constructor
  · rintro ⟨s, hs, hd⟩
    exact ⟨s, hs, ((h.sound s hs).error d).1 hd⟩
  · rintro ⟨s, hs, hd⟩
    exact ⟨s, hs, ((h.sound s hs).error d).2 hd⟩

end Laid

/-- The lexer came along the stretches, the latest first, and recorded what there is in them. -/
structure Lexer.Along (first : Cursor) (l : Lexer) (ss : List Stretch) : Prop where
  laid : Laid first ss l.cursor
  current : ∀ s ∈ ss.head?, l.Stands s
  idle : ss = [] → l.kind = .unknown
  comments : l.comments.toList = ss.reverse.flatMap (·.comments)
  errors : l.errors.toList = ss.reverse.flatMap (·.error?.toList)

namespace Lexer.Along

variable {first : Cursor} {l : Lexer} {ss : List Stretch} {s : Stretch}

theorem scan (h : l.Along first ss) : ∃ s, l.scan.Along first (s :: ss) := by
  obtain ⟨s, hs, hoffset, htext, hcomments, herrors⟩ := l.scan_stands
  refine ⟨s, ?_, ?_, nofun, ?_, ?_⟩
  · rw [hs.cursor]
    exact .cons h.laid hs.sound hoffset htext
  · rintro _ ⟨⟩
    exact hs
  · simp [hcomments, h.comments]
  · simp [herrors, h.errors]

/-- The latest token read in another way. -/
theorem reread {l' : Lexer} (h : l.Along first (s :: ss)) (hreads : ∃ s', Rereads l l' s s') :
    ∃ s', l'.Along first (s' :: ss) := by
  obtain ⟨s', hs', hagain, hcomments, herrors⟩ := hreads
  have hlaid : Laid first (s' :: ss) ⟨s'.stop, s'.rest⟩ := by
    have hlaid := h.laid
    generalize l.cursor = last at hlaid
    cases hlaid with
    | cons hlaid _ hoffset htext =>
      refine .cons hlaid hs'.sound (hagain.offset.trans hoffset) ?_
      rw [htext, hagain.gap, hagain.text]
  refine ⟨s', hs'.cursor ▸ hlaid, ?_, nofun, ?_, ?_⟩
  · rintro _ ⟨⟩
    exact hs'
  · rw [hcomments, h.comments]
    simp [hagain.comments]
  · have hes := h.errors
    rw [List.reverse_cons, List.flatMap_append, List.flatMap_singleton] at hes ⊢
    exact herrors _ hes

end Lexer.Along

end LoopClosure.Token
