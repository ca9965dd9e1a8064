import LoopClosure.Proofs.Token.Progress

/-!
# The forms of literals

What may stand between the delimiters of a literal, told without the scanner: `StringBody`,
`TemplateBody` and `RegExpBody`. The scan of a literal finds the closing delimiter in front of which
there is such a body (`stringEnd_of_body`), and in front of the one that it finds there is a body
(`body_of_stringEnd`); so it is for the three of them. A number tells by its characters whether an
identifier may follow at once (`numberEnd_iff`).
-/

namespace LoopClosure.Token

open Text (Cursor isLineBreak)

variable {quote : Char} {n : Nat} {cs body : List Char} {stop : Cursor}

/-! ## Strings -/

/-- Between the quotes of a string. -/
inductive StringBody (quote : Char) : List Char → Prop where
  | nil : StringBody quote []
  | escape {c : Char} {body : List Char} (h : StringBody quote body) :
    StringBody quote ('\\' :: c :: body)
  /-- A backslash continues the line also where two characters break it. -/
  | pair {body : List Char} (h : StringBody quote body) :
    StringBody quote ('\\' :: '\r' :: '\n' :: body)
  | plain {c : Char} {body : List Char} (hquote : c ≠ quote) (hescape : c ≠ '\\') (hn : c ≠ '\n')
    (hr : c ≠ '\r') (h : StringBody quote body) : StringBody quote (c :: body)

theorem StringBody.head_ne (h : StringBody quote cs) : cs.head? ≠ some '\n' := by
  cases h with
  | nil => exact nofun
  | escape => exact nofun
  | pair => exact nofun
  | plain _ _ hn => exact fun heq => hn (Option.some.inj heq)

/-- What opens and closes a string. -/
def isQuote (c : Char) : Bool := c = '"' || c = '\''

theorem stringEnd_of_body (hquote : isQuote quote = true) (h : StringBody quote body) (n : Nat)
    (rest : List Char) : (stringEnd quote n (body ++ quote :: rest)).2 = true := by
  have hescape : '\\' ≠ quote := by
    rintro rfl
    exact absurd hquote (by decide)
  induction h generalizing n with
  | nil =>
    rw [List.nil_append, stringEnd.eq_def]
    exact congrArg Prod.snd (if_pos rfl)
  | @escape c body h ih =>
    rw [List.cons_append, List.cons_append, stringEnd.eq_def]
    dsimp only
    rw [if_neg hescape, if_pos rfl]
    split
    · next heq => cases heq
    · next ds heq =>
      -- A line feed begins neither a body nor the quote.
      obtain ⟨-, htail⟩ := List.cons.inj heq
      have hhead : (body ++ quote :: rest).head? = some '\n' := by rw [htail]; rfl
      cases body with
      | nil =>
        obtain rfl : quote = '\n' := Option.some.inj hhead
        exact absurd hquote (by decide)
      | cons d body => exact absurd hhead h.head_ne
    · next heq =>
      obtain ⟨rfl, rfl⟩ := List.cons.inj heq
      exact ih _
  | pair _ ih =>
    simp only [List.cons_append, stringEnd, if_neg hescape, if_true]
    exact ih _
  | @plain c body hq he hn hr _ ih =>
    rw [List.cons_append, stringEnd.eq_def]
    dsimp only
    rw [if_neg hq, if_neg he, if_neg (by simp [hn, hr])]
    exact ih _

theorem body_of_stringEnd (h : stringEnd quote n cs = (stop, true)) :
    ∃ body, StringBody quote body ∧ cs = body ++ quote :: stop.rest := by
  fun_induction stringEnd quote n cs with
  | case1 => cases h
  | case2 n c =>
    cases h
    exact ⟨[], .nil, rfl⟩
  | case3 => cases h
  | case4 _ _ _ ih =>
    obtain ⟨body, hbody, rfl⟩ := ih h
    exact ⟨_, .pair hbody, rfl⟩
  | case5 _ _ d _ _ ih =>
    obtain ⟨body, hbody, rfl⟩ := ih h
    exact ⟨_, .escape hbody, rfl⟩
  | case6 => cases h
  | case7 _ c _ hquote hescape hbreak ih =>
    obtain ⟨body, hbody, rfl⟩ := ih h
    simp only [Bool.or_eq_true, decide_eq_true_eq, not_or] at hbreak
    exact ⟨_, .plain hquote hescape hbreak.1 hbreak.2 hbody, rfl⟩

/-! ## Templates -/

/-- Between the delimiters of a piece of a template. -/
inductive TemplateBody : List Char → Prop where
  | nil : TemplateBody []
  | escape {c : Char} {body : List Char} (h : TemplateBody body) : TemplateBody ('\\' :: c :: body)
  /-- A dollar sign that opens no substitution. -/
  | dollar {body : List Char} (hbrace : body.head? ≠ some '{') (h : TemplateBody body) :
    TemplateBody ('$' :: body)
  | plain {c : Char} {body : List Char} (htick : c ≠ '`') (hdollar : c ≠ '$') (hescape : c ≠ '\\')
    (h : TemplateBody body) : TemplateBody (c :: body)

/-- What the piece ends with. -/
def TemplateEnd.chars : TemplateEnd → List Char
  | .closed => ['`']
  | .substitution => ['$', '{']
  | .unterminated => []

theorem templateEnd_of_body {how : TemplateEnd} (hhow : how ≠ .unterminated) (h : TemplateBody body)
    (n : Nat) (rest : List Char) : (templateEnd n (body ++ (how.chars ++ rest))).2 = how := by
  induction h generalizing n with
  | nil =>
    cases how with
    | closed =>
      rw [List.nil_append, templateEnd.eq_def]
      rfl
    | substitution =>
      rw [List.nil_append, templateEnd.eq_def]
      rfl
    | unterminated => exact absurd rfl hhow
  | escape _ ih =>
    rw [List.cons_append, List.cons_append, templateEnd.eq_def]
    exact ih _
  | @dollar body hbrace _ ih =>
    rw [List.cons_append, templateEnd.eq_def]
    dsimp only
    rw [if_neg (by decide), if_pos rfl]
    split
    · next ds heq =>
      -- A brace begins neither the body nor a delimiter.
      have hhead : (body ++ (how.chars ++ rest)).head? = some '{' := by rw [heq]; rfl
      cases body with
      | nil => cases how <;> first | exact absurd rfl hhow | cases hhead
      | cons d body => exact absurd hhead hbrace
    · exact ih _
  | @plain c body htick hdollar hescape _ ih =>
    rw [List.cons_append, templateEnd.eq_def]
    dsimp only
    rw [if_neg htick, if_neg hdollar, if_neg hescape]
    exact ih _

theorem body_of_templateEnd {how : TemplateEnd} (hhow : how ≠ .unterminated)
    (h : templateEnd n cs = (stop, how)) :
    ∃ body, TemplateBody body ∧ cs = body ++ (how.chars ++ stop.rest) := by
  fun_induction templateEnd n cs with
  | case1 =>
    cases h
    exact absurd rfl hhow
  | case2 =>
    cases h
    exact ⟨[], .nil, rfl⟩
  | case3 =>
    cases h
    exact ⟨[], .nil, rfl⟩
  | case4 n ds hds _ ih =>
    obtain ⟨body, hbody, rfl⟩ := ih h
    refine ⟨'$' :: body, .dollar (fun hhead => ?_) hbody, rfl⟩
    obtain ⟨es, rfl⟩ := List.head?_eq_some_iff.1 hhead
    exact hds _ rfl
  | case5 =>
    cases h
    exact absurd rfl hhow
  | case6 _ _ _ _ _ ih =>
    obtain ⟨body, hbody, rfl⟩ := ih h
    exact ⟨_, .escape hbody, rfl⟩
  | case7 _ c _ htick hdollar hescape ih =>
    obtain ⟨body, hbody, rfl⟩ := ih h
    exact ⟨_, .plain htick hdollar hescape hbody, rfl⟩

/-! ## Regular expressions -/

/-- Between the slashes of a regular expression; `inClass` if the body begins inside a class. -/
inductive RegExpBody : Bool → List Char → Prop where
  | nil : RegExpBody false []
  | escape {inClass : Bool} {c : Char} {body : List Char} (hc : isLineBreak c = false)
    (h : RegExpBody inClass body) : RegExpBody inClass ('\\' :: c :: body)
  | opens {inClass : Bool} {body : List Char} (h : RegExpBody true body) :
    RegExpBody inClass ('[' :: body)
  | closes {inClass : Bool} {body : List Char} (h : RegExpBody false body) :
    RegExpBody inClass (']' :: body)
  /-- A slash in a class. -/
  | slash {body : List Char} (h : RegExpBody true body) : RegExpBody true ('/' :: body)
  | plain {inClass : Bool} {c : Char} {body : List Char} (hbreak : isLineBreak c = false)
    (hescape : c ≠ '\\') (hopens : c ≠ '[') (hcloses : c ≠ ']') (hslash : c ≠ '/')
    (h : RegExpBody inClass body) : RegExpBody inClass (c :: body)

theorem regExpEnd_of_body {inClass : Bool} (h : RegExpBody inClass body) (n : Nat)
    (rest : List Char) : (regExpEnd inClass n (body ++ '/' :: rest)).2 = true := by
  induction h generalizing n with
  | nil =>
    rw [List.nil_append, regExpEnd.eq_def]
    rfl
  | @escape inClass c body hc _ ih =>
    rw [List.cons_append, List.cons_append, regExpEnd.eq_def]
    dsimp only
    rw [if_neg (by decide), if_pos rfl, if_neg (Bool.eq_false_iff.1 hc)]
    exact ih _
  | opens _ ih | closes _ ih | slash _ ih =>
    rw [List.cons_append, regExpEnd.eq_def]
    exact ih _
  | @plain inClass c body hbreak hescape hopens hcloses hslash _ ih =>
    rw [List.cons_append, regExpEnd.eq_def]
    dsimp only
    rw [if_neg (Bool.eq_false_iff.1 hbreak), if_neg hescape, if_neg hopens, if_neg hcloses,
      if_neg (by simp [hslash])]
    exact ih _

theorem body_of_regExpEnd {inClass : Bool} (h : regExpEnd inClass n cs = (stop, true)) :
    ∃ body, RegExpBody inClass body ∧ cs = body ++ '/' :: stop.rest := by
  fun_induction regExpEnd inClass n cs with
  | case1 => cases h
  | case2 => cases h
  | case3 => cases h
  | case4 => cases h
  | case5 _ _ _ _ hbreak _ ih =>
    obtain ⟨body, hbody, rfl⟩ := ih h
    exact ⟨_, .escape (Bool.eq_false_iff.2 hbreak) hbody, rfl⟩
  | case6 _ _ _ _ _ ih =>
    obtain ⟨body, hbody, rfl⟩ := ih h
    exact ⟨_, .opens hbody, rfl⟩
  | case7 _ _ _ _ _ _ ih =>
    obtain ⟨body, hbody, rfl⟩ := ih h
    exact ⟨_, .closes hbody, rfl⟩
  | case8 inClass _ c _ _ _ _ _ hslash =>
    cases h
    simp only [Bool.and_eq_true, decide_eq_true_eq, Bool.not_eq_true'] at hslash
    obtain ⟨rfl, rfl⟩ := hslash
    exact ⟨[], .nil, rfl⟩
  | case9 inClass _ c _ hbreak hescape hopens hcloses hslash ih =>
    obtain ⟨body, hbody, rfl⟩ := ih h
    refine ⟨c :: body, ?_, rfl⟩
    by_cases hc : c = '/'
    · subst hc
      cases inClass with
      | true => exact .slash hbody
      | false => exact absurd rfl hslash
    · exact .plain (Bool.eq_false_iff.2 hbreak) hescape hopens hcloses hc hbody

/-- A regular expression without a closing slash ends with its line. -/
theorem regExpEnd_open {inClass : Bool} (h : regExpEnd inClass n cs = (stop, false)) :
    ∀ c ∈ stop.rest.head?, isLineBreak c = true := by
  fun_induction regExpEnd inClass n cs with
  | case1 | case3 =>
    cases h
    simp
  | case2 _ _ _ _ hbreak | case4 _ _ _ _ hbreak =>
    cases h
    simpa using hbreak
  | case5 _ _ _ _ _ _ ih | case6 _ _ _ _ _ ih | case7 _ _ _ _ _ _ ih => exact ih h
  | case8 => cases h
  | case9 _ _ _ _ _ _ _ _ _ ih => exact ih h

/-! ## Numbers -/

/-- Between the two cursors lie characters with a property. -/
def Passes (p : Char → Bool) (a b : Cursor) : Prop :=
  ∃ ds, a.rest = ds ++ b.rest ∧ b.offset = a.offset + Text.size ds ∧ ∀ d ∈ ds, p d = true

namespace Passes

variable {p q : Char → Bool} {a b c : Cursor}

theorem refl (a : Cursor) : Passes p a a := ⟨[], rfl, rfl, fun _ hd => absurd hd List.not_mem_nil⟩

theorem trans (h : Passes p a b) (h' : Passes p b c) : Passes p a c := by
  obtain ⟨ds, hrest, hoffset, hds⟩ := h
  obtain ⟨es, hrest', hoffset', hes⟩ := h'
  refine ⟨ds ++ es, ?_, ?_, fun d hd => (List.mem_append.1 hd).elim (hds d) (hes d)⟩
  · rw [hrest, hrest', List.append_assoc]
  · rw [hoffset', hoffset, Text.size_append, Nat.add_assoc]

theorem mono (h : Passes p a b) (hpq : ∀ d, p d = true → q d = true) : Passes q a b := by
  obtain ⟨ds, hrest, hoffset, hds⟩ := h
  exact ⟨ds, hrest, hoffset, fun d hd => hpq d (hds d hd)⟩

theorem next {d : Char} {ds : List Char} (h : a.rest = d :: ds) (hd : p d = true) :
    Passes p a a.next := by
  refine ⟨[d], ?_, ?_, fun e he => List.mem_singleton.1 he ▸ hd⟩
  all_goals
    rw [Cursor.next, h]
    rfl

theorem skipWhile (p : Char → Bool) (a : Cursor) : Passes p a (a.skipWhile p) := by
  obtain ⟨n, cs⟩ := a
  induction cs generalizing n with
  | nil => exact .refl _
  | cons d ds ih =>
    have hstep : (Cursor.mk n (d :: ds)).skipWhile p =
        if p d then (Cursor.mk (n + d.utf8Size) ds).skipWhile p else ⟨n, d :: ds⟩ := rfl
    rw [hstep]
    split
    · next hd => exact (next (a := ⟨n, d :: ds⟩) rfl hd).trans (ih _)
    · exact .refl _

end Passes

/-- No suffix. -/
def noSuffix (c : Char) : Bool := c ≠ 'n'

theorem passes_digitsEnd (c : Cursor) : Passes noSuffix c (digitsEnd 10 c) := by
  refine (Passes.skipWhile _ c).mono fun d hd => ?_
  by_contra hn
  obtain rfl : d = 'n' := by simpa [noSuffix] using hn
  exact absurd hd (by decide)

theorem passes_exponentEnd (c : Cursor) : Passes noSuffix c (exponentEnd c) := by
  have hletter : ∀ {e : Char}, (e = 'e' ∨ e = 'E') → noSuffix e = true := by
    rintro e (rfl | rfl) <;> rfl
  have hsign : ∀ {s : Char}, (s = '+' ∨ s = '-') → noSuffix s = true := by
    rintro s (rfl | rfl) <;> rfl
  obtain ⟨n, cs⟩ := c
  unfold exponentEnd
  split
  · next e s d ds hcs =>
    obtain rfl : cs = e :: s :: d :: ds := hcs
    split
    · next he =>
      have hnext : Passes noSuffix ⟨n, e :: s :: d :: ds⟩ (Cursor.mk n (e :: s :: d :: ds)).next :=
        .next rfl (hletter (by simpa using he))
      split
      · next hs =>
        split
        · have hsecond : Passes noSuffix ⟨n + e.utf8Size, s :: d :: ds⟩ _ :=
            .next rfl (hsign (by simpa using hs))
          exact hnext.trans (hsecond.trans (passes_digitsEnd _))
        · exact .refl _
      · split
        · exact hnext.trans (passes_digitsEnd _)
        · exact .refl _
    · exact .refl _
  · next e s hcs =>
    obtain rfl : cs = [e, s] := hcs
    split
    · next he =>
      simp only [Bool.and_eq_true, Bool.or_eq_true, decide_eq_true_eq] at he
      exact (Passes.next rfl (hletter he.1)).trans (passes_digitsEnd _)
    · exact .refl _
  · exact .refl _

theorem radixOf?_append {word rest : List Char} {r : Nat} (h : radixOf? word = some r) :
    radixOf? (word ++ rest) = some r := by
  unfold radixOf? at h
  split at h
  · exact h
  · cases h

/-- A number that an identifier may not follow at once is one without a radix and a suffix. -/
theorem numberEnd_iff {c : Cursor} {word : List Char} {bare : Bool} (h : numberEnd c = (stop, bare))
    (hword : c.rest = word ++ stop.rest) :
    bare = true ↔ radixOf? word = none ∧ word.getLast? ≠ some 'n' := by
  unfold numberEnd at h
  split at h
  · next radix hradix =>
    -- The two characters that tell the radix are passed first.
    obtain ⟨d, ds, hrest⟩ : ∃ d ds, c.rest = '0' :: d :: ds := by
      unfold radixOf? at hradix
      split at hradix
      · exact ⟨_, _, ‹_›⟩
      · cases hradix
    have hskip : (c.skip 2).rest = ds := by simp [Cursor.skip, Cursor.next, hrest]
    have hdigits := reach_digitsEnd radix (c.skip 2)
    obtain ⟨hstop, rfl⟩ : Cursor.Reach (c.skip 2) stop ∧ bare = false := by
      dsimp only at h
      split at h
      all_goals
        cases h
      · exact ⟨hdigits.trans (Cursor.reach_next _), rfl⟩
      · exact ⟨hdigits, rfl⟩
    obtain ⟨hds, -⟩ := hstop.rest_eq
    generalize (c.skip 2).upTo stop.offset = w at hds
    have heq : word ++ stop.rest = '0' :: d :: w ++ stop.rest := by
      rw [← hword, hrest, ← hskip, hds]
      rfl
    obtain rfl := List.append_cancel_right heq
    rw [hrest] at hradix
    refine iff_of_false Bool.false_ne_true fun hnone => ?_
    have hnone : radixOf? ('0' :: d :: ds) = none := hnone.1
    rw [hnone] at hradix
    cases hradix
  · next hradix =>
    have hword' : radixOf? word = none := by
      by_contra hsome
      obtain ⟨r, hr⟩ := Option.ne_none_iff_exists'.1 hsome
      rw [hword, radixOf?_append hr] at hradix
      cases hradix
    have hdigits := passes_digitsEnd c
    dsimp only at h
    generalize digitsEnd 10 c = e at h hdigits
    split at h
    · next hn =>
      cases h
      obtain ⟨ds, hpeek⟩ := List.head?_eq_some_iff.1 hn
      have hnext : e.next.rest = ds := by rw [Cursor.next, hpeek]
      obtain ⟨as, hrest, -, -⟩ := hdigits
      have heq : word ++ e.next.rest = as ++ ['n'] ++ e.next.rest := by
        rw [← hword, hrest, hpeek, hnext, List.append_assoc]
        rfl
      obtain rfl := List.append_cancel_right heq
      exact iff_of_false Bool.false_ne_true fun hlast => hlast.2 List.getLast?_concat
    · cases h
      refine iff_of_true rfl ⟨hword', fun hlast => ?_⟩
      have hfraction : Passes noSuffix e (if e.peek? = some '.' then digitsEnd 10 e.next else e) := by
        split
        · next hpoint =>
          obtain ⟨ds, hpeek⟩ := List.head?_eq_some_iff.1 hpoint
          exact (Passes.next hpeek rfl).trans (passes_digitsEnd _)
        · exact .refl _
      obtain ⟨as, hrest, -, has⟩ := hdigits.trans (hfraction.trans (passes_exponentEnd _))
      obtain rfl : word = as := List.append_cancel_right (hword.symm.trans hrest)
      exact absurd (has _ (List.mem_of_getLast? hlast)) (by decide)

end LoopClosure.Token
