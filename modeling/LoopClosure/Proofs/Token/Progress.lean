import LoopClosure.Proofs.Text.Bytes
import LoopClosure.Token.Lexer

/-!
# The lexer moves on

Reading leads from cursor to cursor within one text (`Cursor.Reach`). A token begins where the one
before ended, or behind that, and unless it is the end of the text it is not empty (`Lexer.Ready`,
`scan_ready`). Reading a token in another way keeps its start (`rescanSlash_ready`,
`rescanTemplate_ready`).
-/

namespace LoopClosure

open Text (Cursor)

namespace Text.Cursor

variable {a b c : Cursor} {n k : Nat} {d e : Char} {ds : List Char}

/-- Passing characters leads from one cursor to the other. -/
inductive Reach : Cursor → Cursor → Prop where
  | refl (c : Cursor) : Reach c c
  | step {n : Nat} {d : Char} {ds : List Char} {c : Cursor} (h : Reach ⟨n + d.utf8Size, ds⟩ c) :
    Reach ⟨n, d :: ds⟩ c

theorem Reach.passed (hd : d.utf8Size = k) (h : Reach ⟨n + k, ds⟩ c) : Reach ⟨n, d :: ds⟩ c :=
  .step (hd ▸ h)

theorem Reach.two (hd : d.utf8Size = 1) (he : e.utf8Size = 1) (h : Reach ⟨n + 2, ds⟩ c) :
    Reach ⟨n, d :: e :: ds⟩ c :=
  .passed hd (.passed he h)

theorem Reach.trans (h : Reach a b) (h' : Reach b c) : Reach a c := by
  induction h with
  | refl => exact h'
  | step _ ih => exact .step (ih h')

theorem Reach.le (h : Reach a b) : a.offset ≤ b.offset := by
  induction h with
  | refl => exact Nat.le_refl _
  | step _ ih => exact Nat.le_trans (Nat.le_add_right _ _) ih

theorem reach_next (c : Cursor) : Reach c c.next := by
  unfold next
  split
  · exact .refl _
  · next heq =>
    cases c
    cases heq
    exact .step (.refl _)

theorem offset_lt_next (h : c.rest ≠ []) : c.offset < c.next.offset := by
  unfold next
  split
  · exact absurd ‹_› h
  · exact Nat.lt_add_of_pos_right (utf8Size_pos _)

theorem reach_skip (n : Nat) (c : Cursor) : Reach c (skip n c) := by
  induction n generalizing c with
  | zero => exact .refl _
  | succ n ih => exact (reach_next c).trans (ih _)

theorem offset_lt_skip (hn : 0 < n) (h : c.rest ≠ []) : c.offset < (skip n c).offset := by
  cases n with
  | zero => exact absurd hn (Nat.lt_irrefl _)
  | succ n => exact Nat.lt_of_lt_of_le (offset_lt_next h) (reach_skip n _).le

theorem reach_skipWhileFrom (p : Char → Bool) (n : Nat) (cs : List Char) :
    Reach ⟨n, cs⟩ (skipWhileFrom p n cs) := by
  induction cs generalizing n with
  | nil => exact .refl _
  | cons d ds ih =>
    unfold skipWhileFrom
    split
    · exact .step (ih _)
    · exact .refl _

theorem offset_skipWhileFrom (p : Char → Bool) (n : Nat) (cs : List Char) :
    (skipWhileFrom p n cs).offset = n + size (cs.takeWhile p) := by
  induction cs generalizing n with
  | nil => rfl
  | cons c cs ih =>
    rw [skipWhileFrom, List.takeWhile_cons]
    split
    · rw [ih, size, Nat.add_assoc]
    · rfl

theorem reach_skipWhile (p : Char → Bool) (c : Cursor) : Reach c (c.skipWhile p) :=
  reach_skipWhileFrom p c.offset c.rest

theorem offset_lt_skipWhile {p : Char → Bool} (h : c.rest = d :: ds) (hd : p d = true) :
    c.offset < (c.skipWhile p).offset := by
  rw [skipWhile, h, skipWhileFrom, if_pos hd]
  exact Nat.lt_of_lt_of_le (Nat.lt_add_of_pos_right (utf8Size_pos d)) (reach_skipWhileFrom _ _ _).le

/-- What is passed on the way to a cursor. -/
theorem Reach.rest_eq (h : Reach a b) :
    a.rest = a.upTo b.offset ++ b.rest ∧ b.offset = a.offset + size (a.upTo b.offset) := by
  induction h with
  | refl c =>
    have hnone : c.upTo c.offset = [] := by
      unfold upTo
      cases c.rest with
      | nil => rfl
      | cons d ds => rw [charsUpTo, if_neg (Nat.lt_irrefl _)]
    rw [hnone]
    exact ⟨rfl, rfl⟩
  | @step n d ds c h ih =>
    obtain ⟨hrest, hoffset⟩ := ih
    have hle := h.le
    have hlt : n < c.offset := Nat.lt_of_lt_of_le (Nat.lt_add_of_pos_right (utf8Size_pos d)) hle
    have hupTo : upTo ⟨n, d :: ds⟩ c.offset = d :: upTo ⟨n + d.utf8Size, ds⟩ c.offset := by
      rw [upTo, charsUpTo, if_pos hlt]
      rfl
    rw [hupTo]
    refine ⟨congrArg (List.cons d) hrest, ?_⟩
    rw [size, ← Nat.add_assoc]
    exact hoffset

theorem size_eq_length {cs : List Char} (h : ∀ d ∈ cs, d.utf8Size = 1) : size cs = cs.length := by
  induction cs with
  | nil => rfl
  | cons d ds ih =>
    rw [List.forall_mem_cons] at h
    rw [size, h.1, ih h.2, List.length_cons, Nat.add_comm]

theorem Reach.exists_passed {cs : List Char} (h : Reach (.ofText cs) c) :
    ∃ as, cs = as ++ c.rest ∧ size as = c.offset := by
  obtain ⟨hrest, hoffset⟩ := h.rest_eq
  have hzero : (ofText cs).offset = 0 := rfl
  rw [hzero, Nat.zero_add] at hoffset
  exact ⟨_, hrest, hoffset.symm⟩

/-- A cursor stands between two characters of its text, -/
theorem Reach.isBoundary {cs : List Char} (h : Reach (.ofText cs) c) :
    isBoundary cs c.offset = true := by
  obtain ⟨as, hcs, hsize⟩ := h.exists_passed
  exact isBoundary_iff.2 ⟨as, c.rest, hcs, hsize⟩

/-- and where characters of one byte each follow so does what is near it. -/
theorem Reach.isBoundary_add {cs es : List Char} (h : Reach (.ofText cs) c)
    (hrest : c.rest = ds ++ es) (hds : ∀ d ∈ ds, d.utf8Size = 1) (hk : k ≤ ds.length) :
    Text.isBoundary cs (c.offset + k) = true := by
  obtain ⟨as, hcs, hsize⟩ := h.exists_passed
  have htake : ∀ d ∈ ds.take k, d.utf8Size = 1 := fun d hd => hds d (List.mem_of_mem_take hd)
  refine isBoundary_iff.2 ⟨as ++ ds.take k, ds.drop k ++ es, ?_, ?_⟩
  · rw [List.append_assoc, ← List.append_assoc (ds.take k), List.take_append_drop, ← hrest]
    exact hcs
  · rw [size_append, size_eq_length htake, List.length_take, Nat.min_eq_left hk, hsize]

/-- Passing characters of one byte each. -/
theorem skip_append {cs : List Char} (h : ∀ d ∈ cs, d.utf8Size = 1) (n : Nat) :
    skip cs.length ⟨n, cs ++ ds⟩ = ⟨n + cs.length, ds⟩ := by
  induction cs generalizing n with
  | nil => rfl
  | cons d cs ih =>
    rw [List.forall_mem_cons] at h
    have hnext : (Cursor.mk n (d :: cs ++ ds)).next = ⟨n + 1, cs ++ ds⟩ := by
      rw [← h.1]
      rfl
    rw [List.length_cons, skip, hnext, ih h.2, Nat.add_assoc, Nat.add_comm 1]

end Text.Cursor

namespace Token

open Text.Cursor

theorem reach_trivia (mode : TriviaMode) (n : Nat) (cs : List Char) :
    Reach ⟨n, cs⟩ (trivia mode n cs).stop := by
  fun_induction trivia mode n cs with
  | case1 | case2 | case3 => exact .refl _
  | case4 _ _ _ _ ih | case5 _ _ _ _ _ ih => exact .step ih
  | case6 _ _ _ ds ih | case7 _ _ _ ds ih => exact .two rfl rfl ih
  | case8 | case9 => exact .refl _
  | case10 _ _ _ _ _ ih | case11 _ _ _ _ _ ih => exact .step ih
  | case12 _ _ _ ih => exact .two rfl rfl ih
  | case13 _ _ _ _ ih => exact .passed rfl ih
  | case14 _ _ _ _ _ _ ih | case15 _ _ _ _ _ _ ih => exact .step ih

theorem reach_stringEnd {quote : Char} (hquote : quote.utf8Size = 1) (n : Nat) (cs : List Char) :
    Reach ⟨n, cs⟩ (stringEnd quote n cs).1 := by
  fun_induction stringEnd quote n cs with
  | case1 => exact .refl _
  | case2 => exact .passed hquote (.refl _)
  | case3 => exact .passed rfl (.refl _)
  | case4 _ _ _ ih => exact .passed rfl (.two rfl rfl ih)
  | case5 _ _ _ _ _ ih => exact .passed rfl (.step ih)
  | case6 => exact .refl _
  | case7 _ _ _ _ _ _ ih => exact .step ih

theorem reach_templateEnd (n : Nat) (cs : List Char) : Reach ⟨n, cs⟩ (templateEnd n cs).1 := by
  fun_induction templateEnd n cs with
  | case1 => exact .refl _
  | case2 => exact .passed rfl (.refl _)
  | case3 => exact .two rfl rfl (.refl _)
  | case4 _ _ _ _ ih => exact .passed rfl ih
  | case5 => exact .passed rfl (.refl _)
  | case6 _ _ _ _ _ ih => exact .passed rfl (.step ih)
  | case7 _ _ _ _ _ _ ih => exact .step ih

theorem reach_regExpEnd (inClass : Bool) (n : Nat) (cs : List Char) :
    Reach ⟨n, cs⟩ (regExpEnd inClass n cs).1 := by
  fun_induction regExpEnd inClass n cs with
  | case1 | case2 => exact .refl _
  | case3 => exact .passed rfl (.refl _)
  | case4 => exact .passed rfl (.refl _)
  | case5 _ _ _ _ _ _ ih => exact .passed rfl (.step ih)
  | case6 _ _ _ _ _ ih | case7 _ _ _ _ _ _ ih => exact .passed rfl ih
  | case8 _ _ _ _ _ _ _ _ h =>
    have hslash := (Bool.and_eq_true ..).mp h
    exact .passed (of_decide_eq_true hslash.1 ▸ rfl) (.refl _)
  | case9 _ _ _ _ _ _ _ _ _ ih => exact .step ih

theorem reach_digitsEnd (radix : Nat) (c : Cursor) : Reach c (digitsEnd radix c) :=
  reach_skipWhile _ c

theorem reach_exponentEnd (c : Cursor) : Reach c (exponentEnd c) := by
  have hnext := (reach_next c).trans (reach_digitsEnd 10 c.next)
  have hskip := (reach_skip 2 c).trans (reach_digitsEnd 10 (c.skip 2))
  unfold exponentEnd
  split
  · split
    · split
      · split
        · exact hskip
        · exact .refl _
      · split
        · exact hnext
        · exact .refl _
    · exact .refl _
  · split
    · exact hnext
    · exact .refl _
  · exact .refl _

theorem reach_numberEnd (c : Cursor) : Reach c (numberEnd c).1 := by
  unfold numberEnd
  split
  · next radix _ =>
    have hdigits := (reach_skip 2 c).trans (reach_digitsEnd radix (c.skip 2))
    dsimp only
    split
    · exact hdigits.trans (reach_next _)
    · exact hdigits
  · extract_lets e f
    have hdigits : Reach c e := reach_digitsEnd 10 c
    have hfraction : Reach e f := by
      dsimp only [f]
      split
      · exact (reach_next e).trans (reach_digitsEnd 10 e.next)
      · exact .refl _
    split
    · exact hdigits.trans (reach_next e)
    · exact hdigits.trans (hfraction.trans (reach_exponentEnd f))

/-- A number without radix moves on: at a digit at once, else at the point. -/
theorem offset_lt_plainNumber {c : Cursor} {d : Char} {ds : List Char} (h : c.rest = d :: ds)
    (hd : d.isDigit = true ∨ d = '.') : c.offset < (digitsEnd 10 c).offset ∨
      digitsEnd 10 c = ⟨c.offset, '.' :: ds⟩ := by
  rcases hd with hd | rfl
  · refine .inl (offset_lt_skipWhile h ?_)
    have hbounds : 48 ≤ d.toNat ∧ d.toNat ≤ 57 := Char.isDigit_iff_toNat.1 hd
    have hlt : d.toNat - 48 < 10 := by omega
    simp [Text.isDigitOf, hd, hlt]
  · right
    rw [digitsEnd, skipWhile, h]
    rfl

theorem offset_lt_numberEnd {c : Cursor} {d : Char} {ds : List Char} (h : c.rest = d :: ds)
    (hd : d.isDigit = true ∨ d = '.') : c.offset < (numberEnd c).1.offset := by
  have hne : c.rest ≠ [] := by simp [h]
  unfold numberEnd
  split
  · next radix _ =>
    have hskip := offset_lt_skip Nat.two_pos hne
    have hdigits := Nat.lt_of_lt_of_le hskip (reach_digitsEnd radix (c.skip 2)).le
    dsimp only
    split
    · exact Nat.lt_of_lt_of_le hdigits (reach_next _).le
    · exact hdigits
  · extract_lets e f
    have hexponent := (reach_exponentEnd f).le
    rcases offset_lt_plainNumber h hd with hlt | hpoint
    · have hnext := (reach_next e).le
      have hfraction : e.offset ≤ f.offset := by
        dsimp only [f]
        split
        · exact Nat.le_trans hnext (reach_digitsEnd 10 e.next).le
        · exact Nat.le_refl _
      have hlt : c.offset < e.offset := hlt
      split
      · exact Nat.lt_of_lt_of_le hlt hnext
      · exact Nat.lt_of_lt_of_le hlt (Nat.le_trans hfraction hexponent)
    · have he : e = ⟨c.offset, '.' :: ds⟩ := hpoint
      have hf : f = digitsEnd 10 e.next := by
        dsimp only [f]
        rw [he]
        rfl
      have hlt : c.offset < e.next.offset := by
        rw [he]
        exact offset_lt_next (c := ⟨c.offset, '.' :: ds⟩) (by simp)
      split
      · exact hlt
      · have hdigits := (reach_digitsEnd 10 e.next).le
        rw [← hf] at hdigits
        exact Nat.lt_of_lt_of_le hlt (Nat.le_trans hdigits hexponent)

theorem Punctuator.length_chars_pos (p : Punctuator) : 0 < p.chars.length := by
  cases p <;> decide

theorem Punctuator.utf8Size_chars (p : Punctuator) : ∀ d ∈ p.chars, d.utf8Size = 1 := by
  have hall : (p.chars.all fun d => d.utf8Size = 1) = true := by cases p <;> decide
  exact fun d hd => of_decide_eq_true (List.all_eq_true.1 hall d hd)

theorem Keyword.utf8Size_chars (k : Keyword) : ∀ d ∈ k.chars, d.utf8Size = 1 := by
  have hall : (k.chars.all fun d => d.utf8Size = 1) = true := by cases k <;> decide
  exact fun d hd => of_decide_eq_true (List.all_eq_true.1 hall d hd)

/-- All tokens of the kind are spelled alike. -/
def Kind.isFixed : Kind → Bool
  | .punct _ | .word _ => true
  | _ => false

theorem Kind.utf8Size_chars {k : Kind} (h : k.isFixed = true) : ∀ d ∈ k.chars, d.utf8Size = 1 := by
  cases k with
  | punct p => exact p.utf8Size_chars
  | word k => exact k.utf8Size_chars
  | _ => cases h

theorem Punctuator.prefix_of_first? {cs : List Char} {p : Punctuator} (h : first? cs = some p) :
    ∃ rest, cs = p.chars ++ rest := by
  have hbegins := List.find?_some h
  simp only [begins, Bool.and_eq_true, List.isPrefixOf_iff_prefix] at hbegins
  obtain ⟨rest, hrest⟩ := hbegins.1
  exact ⟨rest, hrest.symm⟩

namespace Lexer

/-- The current token is not empty, unless it is the end of the text. -/
structure Ready (l : Lexer) : Prop where
  reach : Reach l.start l.cursor
  lt : l.kind ≠ .endOfFile → l.start.offset < l.cursor.offset
  rest : l.kind ≠ .endOfFile → l.start.rest ≠ []
  value : l.kind ≠ .endOfFile → l.value = l.text
  spelled : l.kind.isFixed = true → ∃ rest, l.start.rest = l.kind.chars ++ rest ∧
    l.cursor.offset = l.start.offset + l.kind.chars.length

variable {l : Lexer}

theorem text_ne_empty (hrest : l.start.rest ≠ []) (hlt : l.start.offset < l.cursor.offset) :
    l.text ≠ "" := by
  unfold text Cursor.upTo
  obtain ⟨d, ds, hd⟩ := List.exists_cons_of_ne_nil hrest
  rw [hd, Cursor.charsUpTo, if_pos hlt]
  simp

theorem Ready.value_ne_empty (h : l.Ready) (hk : l.kind ≠ .endOfFile) : l.value ≠ "" :=
  h.value hk ▸ text_ne_empty (h.rest hk) (h.lt hk)

/-- A token that ends behind the first character it begins with. -/
theorem finish_ready {kind : Kind} {first stop : Cursor} (hrest : l.start.rest ≠ [])
    (hfirst : Reach l.start first) (hlt : l.start.offset < first.offset)
    (hstop : Reach first stop)
    (hspelled : kind.isFixed = true → ∃ rest, l.start.rest = kind.chars ++ rest ∧
      stop.offset = l.start.offset + kind.chars.length) :
    (l.finish kind stop).Ready :=
  have hlt := Nat.lt_of_lt_of_le hlt hstop.le
  ⟨hfirst.trans hstop, fun _ => hlt, fun _ => hrest, fun _ => rfl, hspelled⟩

theorem Ready.report (h : l.Ready) (start length : Nat) (e : LexError) :
    (l.report start length e).Ready := ⟨h.reach, h.lt, h.rest, h.value, h.spelled⟩

theorem finishTemplate_ready (opening : Bool) {first : Cursor} (hrest : l.start.rest ≠ [])
    (hfirst : Reach l.start first) (hlt : l.start.offset < first.offset) :
    (l.finishTemplate opening first).Ready := by
  unfold finishTemplate
  have hstop := reach_templateEnd first.offset first.rest
  extract_lets last
  split
  next stop how heq =>
  rw [heq] at hstop
  split
  · exact finish_ready hrest hfirst hlt hstop fun h => nomatch h
  · refine finish_ready hrest hfirst hlt hstop fun h => ?_
    split at h <;> cases h
  · refine Ready.report (finish_ready hrest hfirst hlt hstop ?_) _ _ _
    exact fun h => nomatch h

theorem token_ready {c : Char} {cs : List Char} (hstart : l.start = l.cursor)
    (hc : l.cursor.rest = c :: cs) : (l.token c).Ready := by
  have hrest : l.start.rest ≠ [] := by simp [hstart, hc]
  have hnext : l.start.offset < l.cursor.next.offset := by
    rw [hstart]
    exact offset_lt_next (by simp [hc])
  have hfirst : Reach l.start l.cursor.next := hstart ▸ reach_next l.cursor
  unfold token
  extract_lets cur
  split
  · next hquote =>
    have hquote : c.utf8Size = 1 := by
      rcases Bool.or_eq_true _ _ ▸ hquote with hc | hc <;> rw [of_decide_eq_true hc] <;> rfl
    have hstop := reach_stringEnd hquote cur.next.offset cur.next.rest
    split
    next stop closed heq =>
    rw [heq] at hstop
    have hready : (l.finish .string stop).Ready :=
      finish_ready hrest hfirst hnext hstop fun h => nomatch h
    split
    · exact hready
    · exact hready.report _ _ _
  split
  · exact finishTemplate_ready true hrest hfirst hnext
  split
  · next hnumber =>
    have hlt := offset_lt_numberEnd hc (by simp at hnumber; tauto)
    have hstop := reach_numberEnd cur
    split
    next stop bare heq =>
    rw [heq] at hlt hstop
    have hready : (l.finish .number stop).Ready :=
      finish_ready hrest (hstart ▸ hstop) (hstart ▸ hlt) (.refl _) fun h => nomatch h
    split
    · split
      · exact hready.report _ _ _
      · exact hready
    · exact hready
  split
  · rename_i stop _ _ _ hident
    have hlt : cur.offset < stop.offset :=
      offset_lt_skipWhile hc (Text.isIdentifierPart_of_start hident)
    have hstop : Reach cur stop := reach_skipWhile Text.isIdentifierPart cur
    split
    · next k hk =>
      refine finish_ready hrest (hstart ▸ hstop) (hstart ▸ hlt) (.refl _) fun _ => ?_
      obtain ⟨hpassed, hoffset⟩ := hstop.rest_eq
      rw [← Keyword.chars_of_ofChars? hk] at hpassed hoffset
      rw [size_eq_length k.utf8Size_chars] at hoffset
      exact ⟨stop.rest, hstart ▸ hpassed, hstart ▸ hoffset⟩
    · exact finish_ready hrest (hstart ▸ hstop) (hstart ▸ hlt) (.refl _) fun h => nomatch h
  split
  · refine Ready.report (finish_ready hrest hfirst hnext (.refl _) ?_) _ _ _
    exact fun h => nomatch h
  split
  · next p hp =>
    have hlt := offset_lt_skip (c := cur) p.length_chars_pos (by simp [cur, hc])
    obtain ⟨rest, hpassed⟩ := Punctuator.prefix_of_first? hp
    have hskip : cur.skip p.chars.length = ⟨cur.offset + p.chars.length, rest⟩ := by
      rw [← skip_append p.utf8Size_chars, ← hpassed]
    exact finish_ready hrest (hstart ▸ reach_skip _ cur) (hstart ▸ hlt) (.refl _)
      fun _ => ⟨rest, hstart ▸ hpassed, by rw [hskip, hstart]; rfl⟩
  · refine Ready.report (finish_ready hrest hfirst hnext (.refl _) ?_) _ _ _
    exact fun h => nomatch h

@[simp] theorem start_report (l : Lexer) (start length : Nat) (e : LexError) :
    (l.report start length e).start = l.start := rfl

@[simp] theorem start_finish (l : Lexer) (kind : Kind) (stop : Cursor) :
    (l.finish kind stop).start = l.start := rfl

@[simp] theorem start_finishTemplate (l : Lexer) (opening : Bool) (first : Cursor) :
    (l.finishTemplate opening first).start = l.start := by
  unfold finishTemplate
  dsimp only
  split <;> rfl

@[simp] theorem start_token (l : Lexer) (c : Char) : (l.token c).start = l.start := by
  unfold token
  dsimp only
  repeat' split
  all_goals simp

/-- The next token begins behind the current one. -/
theorem scan_ready (l : Lexer) : l.scan.Ready ∧ Reach l.cursor l.scan.start := by
  have hstart := reach_trivia .between l.cursor.offset l.cursor.rest
  unfold scan
  extract_lets t l'
  split
  · refine ⟨⟨.refl _, ?_, ?_, ?_, fun h => nomatch h⟩, hstart⟩
    · exact fun h => absurd rfl h
    · exact fun h => absurd rfl h
    · exact fun h => absurd rfl h
  · next c hc =>
    obtain ⟨cs, hcs⟩ := List.head?_eq_some_iff.1 hc
    exact ⟨token_ready rfl hcs, by rw [start_token]; exact hstart⟩

theorem rescanSlash_ready (h : l.Ready) : l.rescanSlash.Ready ∧ l.rescanSlash.start = l.start := by
  unfold rescanSlash
  split
  · next hkind =>
    have hne : l.kind ≠ .endOfFile := by
      intro heq
      rw [heq] at hkind
      simp at hkind
    have hlt := offset_lt_next (h.rest hne)
    have hbody := reach_regExpEnd false l.start.next.offset l.start.next.rest
    extract_lets first
    split
    next stop closed heq =>
    rw [heq] at hbody
    have hstop := Reach.trans hbody (reach_skipWhile Text.isIdentifierPart stop)
    have hready : (l.finish .regExp (stop.skipWhile Text.isIdentifierPart)).Ready :=
      finish_ready (h.rest hne) (reach_next _) hlt hstop fun h => nomatch h
    dsimp only
    split
    · exact ⟨hready, rfl⟩
    · exact ⟨hready.report _ _ _, rfl⟩
  · exact ⟨h, rfl⟩

theorem rescanSlash_kind (h : l.kind ≠ .endOfFile) : l.rescanSlash.kind ≠ .endOfFile := by
  unfold rescanSlash
  dsimp only
  split
  · split
    all_goals exact fun heq => nomatch heq
  · exact h

theorem rescanTemplate_ready (h : l.Ready) :
    l.rescanTemplate.Ready ∧ l.rescanTemplate.start = l.start := by
  unfold rescanTemplate
  split
  · next hkind =>
    have hne : l.kind ≠ .endOfFile := by rw [hkind]; simp
    have hlt := offset_lt_next (h.rest hne)
    exact ⟨finishTemplate_ready false (h.rest hne) (reach_next _) hlt, by simp⟩
  · exact ⟨h, rfl⟩

theorem rescanTemplate_kind (h : l.kind ≠ .endOfFile) : l.rescanTemplate.kind ≠ .endOfFile := by
  unfold rescanTemplate finishTemplate
  dsimp only
  split
  · split
    · exact fun heq => nomatch heq
    · split <;> exact fun heq => nomatch heq
    · exact fun heq => nomatch heq
  · exact h

end Lexer

end Token

end LoopClosure
