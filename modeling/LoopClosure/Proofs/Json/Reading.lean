import LoopClosure.Json.Read
import LoopClosure.Proofs.Json.Lexemes
import Mathlib.Data.List.TakeDrop

/-!
# What the reader takes is JSON

The leaves come first: blanks, strings, numbers and names. A value, the items of an array and the
members of an object follow together, by induction on the fuel.

- `Takes ls cs rest`: in front of the rest, the text has these lexemes.
- `read?_grammar`: a text that is read is a value of the grammar.
-/

namespace LoopClosure.Json

variable {ls ms : List Lexeme} {cs ds mid rest : List Char} {c : Char}

/-! ## Blanks -/

theorem skipBlanks_spec (cs : List Char) : ∃ gap, Blank gap ∧ cs = gap ++ skipBlanks cs := by
  refine ⟨cs.takeWhile isBlank, fun c hc => ?_, (List.takeWhile_append_dropWhile ..).symm⟩
  simpa [isBlank, or_assoc] using List.mem_takeWhile_imp hc

theorem blank_of_skipBlanks (h : skipBlanks cs = []) : Blank cs := by
  obtain ⟨gap, hgap, hcs⟩ := skipBlanks_spec cs
  rw [h, List.append_nil] at hcs
  exact hcs ▸ hgap

/-! ## Numbers -/

theorem digits?_some (h : digits? cs = some (ds, rest)) : cs = ds ++ rest ∧ IsDigits ds := by
  rw [digits?, List.span_eq_takeWhile_dropWhile] at h
  split at h
  · cases h
  · next hne heq =>
    cases h
    obtain ⟨rfl, rfl⟩ := Prod.mk.inj heq
    exact ⟨(List.takeWhile_append_dropWhile ..).symm, hne, fun _ => List.mem_takeWhile_imp⟩

theorem integer?_some (h : integer? cs = some (ds, rest)) : cs = ds ++ rest ∧ IsWhole ds := by
  rw [integer?.eq_def] at h
  split at h
  · cases h
    exact ⟨rfl, .inl rfl⟩
  · next hzero =>
    obtain ⟨rfl, hdigits⟩ := digits?_some h
    refine ⟨rfl, .inr ⟨hdigits, fun hhead => ?_⟩⟩
    obtain ⟨ds, rfl⟩ := List.head?_eq_some_iff.1 hhead
    exact hzero _ rfl

theorem fraction?_some (h : fraction? cs = some (ds, rest)) : cs = ds ++ rest ∧ IsFraction ds := by
  rw [fraction?.eq_def] at h
  split at h
  · obtain ⟨⟨ds, rest⟩, hread, heq⟩ := Option.map_eq_some_iff.1 h
    cases heq
    obtain ⟨rfl, hdigits⟩ := digits?_some hread
    exact ⟨rfl, .inr ⟨ds, rfl, hdigits⟩⟩
  · cases h
    exact ⟨rfl, .inl rfl⟩

theorem exponent?_some (h : exponent? cs = some (ds, rest)) : cs = ds ++ rest ∧ IsExponent ds := by
  rw [exponent?.eq_def] at h
  split at h
  · split at h
    · next e _ he =>
      have he : e = 'e' ∨ e = 'E' := by simpa using he
      split at h
      · next s _ =>
        split at h
        · next hs =>
          have hs : s = '+' ∨ s = '-' := by simpa using hs
          obtain ⟨⟨ds, rest⟩, hread, heq⟩ := Option.map_eq_some_iff.1 h
          cases heq
          obtain ⟨rfl, hdigits⟩ := digits?_some hread
          refine ⟨rfl, .inr ⟨e, [s], ds, rfl, he, .inr ?_, hdigits⟩⟩
          simpa using hs
        · obtain ⟨⟨ds, rest⟩, hread, heq⟩ := Option.map_eq_some_iff.1 h
          cases heq
          obtain ⟨hcs, hdigits⟩ := digits?_some hread
          exact ⟨by rw [hcs, List.cons_append], .inr ⟨e, [], ds, rfl, he, .inl rfl, hdigits⟩⟩
      · cases h
    · cases h
      exact ⟨rfl, .inl rfl⟩
  · cases h
    exact ⟨rfl, .inl rfl⟩

theorem number?_some {spelling : String} (h : number? cs = some (spelling, rest)) :
    ∃ ds, cs = ds ++ rest ∧ IsNumber ds := by
  obtain ⟨sign, unsigned, hsign, rfl, hunsigned⟩ : ∃ sign unsigned,
      (sign = [] ∨ sign = ['-']) ∧ cs = sign ++ unsigned ∧
      (if cs.head? = some '-' then (['-'], cs.tail) else ([], cs)) = (sign, unsigned) := by
    by_cases hminus : cs.head? = some '-'
    · obtain ⟨tail, rfl⟩ := List.head?_eq_some_iff.1 hminus
      exact ⟨_, _, .inr rfl, rfl, if_pos hminus⟩
    · exact ⟨_, _, .inl rfl, rfl, if_neg hminus⟩
  simp only [number?, hunsigned] at h
  obtain ⟨⟨whole, afterWhole⟩, hreadWhole, h⟩ := Option.bind_eq_some_iff.1 h
  obtain ⟨⟨fraction, afterFraction⟩, hreadFraction, h⟩ := Option.bind_eq_some_iff.1 h
  obtain ⟨⟨exponent, afterExponent⟩, hreadExponent, h⟩ := Option.bind_eq_some_iff.1 h
  cases h
  obtain ⟨rfl, hwhole⟩ := integer?_some hreadWhole
  obtain ⟨rfl, hfraction⟩ := fraction?_some hreadFraction
  obtain ⟨rfl, hexponent⟩ := exponent?_some hreadExponent
  exact ⟨_, by simp only [List.append_assoc], .intro hsign hwhole hfraction hexponent⟩

/-! ## Strings -/

theorem isHexDigit_of_hexDigit? {n : Nat} (h : hexDigit? c = some n) : IsHexDigit c := by
  rw [hexDigit?] at h
  split at h
  · exact .inl ‹_›
  split at h
  · exact .inr (.inl ‹_›)
  split at h
  · exact .inr (.inr ‹_›)
  · cases h

theorem isHexDigit_of_hexUnit? {a b c d : Char} {n : Nat} (h : hexUnit? a b c d = some n) :
    IsHexDigit a ∧ IsHexDigit b ∧ IsHexDigit c ∧ IsHexDigit d := by
  rw [hexUnit?] at h
  obtain ⟨_, ha, h⟩ := Option.bind_eq_some_iff.1 h
  obtain ⟨_, hb, h⟩ := Option.bind_eq_some_iff.1 h
  obtain ⟨_, hc, h⟩ := Option.bind_eq_some_iff.1 h
  obtain ⟨_, hd, _⟩ := Option.bind_eq_some_iff.1 h
  exact ⟨isHexDigit_of_hexDigit? ha, isHexDigit_of_hexDigit? hb, isHexDigit_of_hexDigit? hc,
    isHexDigit_of_hexDigit? hd⟩

theorem mem_of_escape? {e : Char} (h : escape? e = some c) :
    e ∈ ['"', '\\', '/', 'b', 'f', 'n', 'r', 't'] := by
  rw [escape?.eq_def] at h
  split at h <;> first | decide | cases h

theorem stringRest?_some {s s' : Spelled} (h : stringRest? s cs = some (s', rest)) :
    ∃ body, cs = body ++ '"' :: rest ∧ StringBody body := by
  fun_induction stringRest? s cs with
  | case1 => cases h
  | case2 s a b c d tail n hunit ih =>
    obtain ⟨body, rfl, hbody⟩ := ih h
    obtain ⟨ha, hb, hc, hd⟩ := isHexDigit_of_hexUnit? hunit
    exact ⟨_, rfl, .unit ha hb hc hd hbody⟩
  | case3 => cases h
  | case4 s e tail _ c hescape ih =>
    obtain ⟨body, rfl, hbody⟩ := ih h
    exact ⟨_, rfl, .escape (mem_of_escape? hescape) hbody⟩
  | case5 => cases h
  | case6 =>
    cases h
    exact ⟨[], rfl, .nil⟩
  | case7 => cases h
  | case8 s c tail _ _ hquote hplain ih =>
    obtain ⟨body, rfl, hbody⟩ := ih h
    obtain ⟨hcontrol, hslash⟩ : 0x20 ≤ c.toNat ∧ c ≠ '\\' := by simpa using hplain
    exact ⟨_, rfl, .char hquote hslash hcontrol hbody⟩

/-! ## Lexemes off the front -/

/-- In front of the rest, the text has these lexemes and blanks. -/
def Takes (ls : List Lexeme) (cs rest : List Char) : Prop :=
  ∃ text, Written Blank ls text ∧ cs = text ++ rest

theorem Takes.lexeme (l : Lexeme) (rest : List Char) : Takes [l] (l.text ++ rest) rest := by
  have hnil : Blank [] := by simp [Blank]
  exact ⟨_, .cons hnil (.nil hnil), by simp⟩

theorem Takes.blanks (h : Takes ls (skipBlanks cs) rest) : Takes ls cs rest := by
  obtain ⟨gap, hgap, hcs⟩ := skipBlanks_spec cs
  obtain ⟨text, htext, hskip⟩ := h
  rw [hskip, ← List.append_assoc] at hcs
  exact ⟨_, htext.gap (fun _ _ => Blank.append) hgap, hcs⟩

theorem Takes.append (h : Takes ls cs mid) (h' : Takes ms mid rest) :
    Takes (ls ++ ms) cs rest := by
  obtain ⟨as, has, rfl⟩ := h
  obtain ⟨bs, hbs, rfl⟩ := h'
  exact ⟨_, has.append (fun _ _ => Blank.append) hbs, (List.append_assoc ..).symm⟩

theorem Takes.cons (l : Lexeme) (h : Takes ls cs rest) : Takes (l :: ls) (l.text ++ cs) rest :=
  (lexeme l cs).append h

theorem word?_some {word : List Char} (h : word? word cs = some rest) : cs = word ++ rest := by
  rw [word?] at h
  split at h
  · next hprefix =>
    cases h
    exact (List.prefix_iff_eq_append.1 (List.isPrefixOf_iff_prefix.1 hprefix)).symm
  · cases h

theorem takes_number {spelling : String} (h : number? cs = some (spelling, rest)) :
    ∃ ls, Value ls ∧ Takes ls cs rest := by
  obtain ⟨ds, rfl, hds⟩ := number?_some h
  exact ⟨_, .word (.inr hds), .lexeme (.word ds) rest⟩

theorem takes_stringLiteral {s : Option String} (h : stringLiteral? cs = some (s, rest)) :
    ∃ body, StringBody body ∧ Takes [.string body] cs rest := by
  rw [stringLiteral?.eq_def] at h
  split at h
  · obtain ⟨⟨s, rest⟩, hrest, heq⟩ := Option.map_eq_some_iff.1 h
    cases heq
    obtain ⟨body, rfl, hbody⟩ := stringRest?_some hrest
    exact ⟨body, hbody, by simpa [Lexeme.text] using Takes.lexeme (.string body) rest⟩
  · cases h

/-! ## Values -/

/-- What the readers of this fuel take is written in lexemes of the grammar. -/
structure Sound (n : Nat) : Prop where
  value : ∀ {cs rest v}, value? n cs = some (v, rest) → ∃ ls, Value ls ∧ Takes ls cs rest
  items : ∀ {done cs rest vs}, items? n done cs = some (vs, rest) →
    ∃ ls, Items ls ∧ Takes (ls ++ [.closing .square]) cs rest
  members : ∀ {done cs rest vs}, members? n done cs = some (vs, rest) →
    ∃ ls, Members ls ∧ Takes (ls ++ [.closing .curly]) cs rest

theorem takes_word {α : Type} {v v' : α} {word : List Char}
    (hword : word ∈ [['n', 'u', 'l', 'l'], ['t', 'r', 'u', 'e'], ['f', 'a', 'l', 's', 'e']])
    (h : (word? word cs).map (v, ·) = some (v', rest)) : ∃ ls, Value ls ∧ Takes ls cs rest := by
  obtain ⟨rest, hrest, heq⟩ := Option.map_eq_some_iff.1 h
  cases heq
  obtain rfl := word?_some hrest
  exact ⟨_, .word (.inl hword), .lexeme (.word word) rest⟩

namespace Sound

variable {n : Nat}

theorem value_succ (hn : Sound n) {v : Json} (h : value? (n + 1) cs = some (v, rest)) :
    ∃ ls, Value ls ∧ Takes ls cs rest := by
  suffices hskip : ∃ ls, Value ls ∧ Takes ls (skipBlanks cs) rest by
    obtain ⟨ls, hls, htakes⟩ := hskip
    exact ⟨ls, hls, htakes.blanks⟩
  rw [value?] at h
  generalize skipBlanks cs = cs at h ⊢
  dsimp only at h
  split at h
  · exact takes_word (by simp) h
  · exact takes_word (by simp) h
  · exact takes_word (by simp) h
  · obtain ⟨⟨s, rest⟩, hstring, heq⟩ := Option.map_eq_some_iff.1 h
    cases heq
    obtain ⟨body, hbody, htakes⟩ := takes_stringLiteral hstring
    exact ⟨_, .string hbody, htakes⟩
  · next tail =>
    split at h
    · next rest' hskip =>
      cases h
      have hclose : Takes [.closing .square] tail rest := .blanks (hskip ▸ .lexeme _ rest)
      exact ⟨_, .empty .square, hclose.cons (.opening .square)⟩
    · obtain ⟨⟨vs, rest⟩, hitems, heq⟩ := Option.map_eq_some_iff.1 h
      cases heq
      obtain ⟨ls, hls, htakes⟩ := hn.items hitems
      exact ⟨_, .array hls, htakes.blanks.cons (.opening .square)⟩
  · next tail =>
    split at h
    · next rest' hskip =>
      cases h
      have hclose : Takes [.closing .curly] tail rest := .blanks (hskip ▸ .lexeme _ rest)
      exact ⟨_, .empty .curly, hclose.cons (.opening .curly)⟩
    · obtain ⟨⟨vs, rest⟩, hmembers, heq⟩ := Option.map_eq_some_iff.1 h
      cases heq
      obtain ⟨ls, hls, htakes⟩ := hn.members hmembers
      exact ⟨_, .object hls, htakes.blanks.cons (.opening .curly)⟩
  · obtain ⟨⟨s, rest⟩, hnumber, heq⟩ := Option.map_eq_some_iff.1 h
    cases heq
    exact takes_number hnumber

theorem items_succ (hn : Sound n) {done vs : List Json}
    (h : items? (n + 1) done cs = some (vs, rest)) :
    ∃ ls, Items ls ∧ Takes (ls ++ [.closing .square]) cs rest := by
  rw [items?] at h
  split at h
  · cases h
  · next mid hvalue =>
    obtain ⟨ls, hls, htakes⟩ := hn.value hvalue
    split at h
    · next tail hskip =>
      obtain ⟨ms, hms, htail⟩ := hn.items h
      have hcomma : Takes (.comma :: (ms ++ [.closing .square])) mid rest :=
        .blanks (hskip ▸ htail.cons .comma)
      exact ⟨_, .more hls hms, by simpa using htakes.append hcomma⟩
    · next tail hskip =>
      cases h
      have hclose : Takes [.closing .square] mid rest := .blanks (hskip ▸ .lexeme _ rest)
      exact ⟨_, .last hls, htakes.append hclose⟩
    · cases h

theorem members_succ (hn : Sound n) {done vs : List (Option String × Json)}
    (h : members? (n + 1) done cs = some (vs, rest)) :
    ∃ ls, Members ls ∧ Takes (ls ++ [.closing .curly]) cs rest := by
  rw [members?] at h
  split at h
  · cases h
  next name afterName hname =>
  split at h
  · next afterColon hcolon =>
    split at h
    · cases h
    next mid hvalue =>
    obtain ⟨body, hbody, hstring⟩ := takes_stringLiteral hname
    obtain ⟨ls, hls, htakes⟩ := hn.value hvalue
    have hnamed : Takes (.string body :: .colon :: ls) cs mid := by
      have hcolon : Takes (.colon :: ls) afterName mid := .blanks (hcolon ▸ htakes.cons .colon)
      exact hstring.blanks.append hcolon
    split at h
    · next tail hskip =>
      obtain ⟨ms, hms, htail⟩ := hn.members h
      have hcomma : Takes (.comma :: (ms ++ [.closing .curly])) mid rest :=
        .blanks (hskip ▸ htail.cons .comma)
      exact ⟨_, .more hbody hls hms, by simpa using hnamed.append hcomma⟩
    · next tail hskip =>
      cases h
      have hclose : Takes [.closing .curly] mid rest := .blanks (hskip ▸ .lexeme _ rest)
      exact ⟨_, .last hbody hls, hnamed.append hclose⟩
    · cases h
  · cases h

end Sound

theorem sound (n : Nat) : Sound n := by
  induction n with
  | zero =>
    refine ⟨fun h => ?_, fun h => ?_, fun h => ?_⟩
    · simp [value?] at h
    · simp [items?] at h
    · simp [members?] at h
  | succ n ih => exact ⟨ih.value_succ, ih.items_succ, ih.members_succ⟩

/-- A text that is read is a value of the grammar, with blanks between its lexemes. -/
theorem read?_grammar {v : Json} (h : read? cs = some v) : ∃ ls, Value ls ∧ Written Blank ls cs := by
  rw [read?] at h
  obtain ⟨⟨v', rest⟩, hvalue, hend⟩ := Option.bind_eq_some_iff.1 h
  obtain ⟨ls, hls, text, htext, rfl⟩ := (sound _).value hvalue
  dsimp only at hend
  split at hend
  · next hskip =>
    have hblank : Written Blank [] rest := .nil (blank_of_skipBlanks hskip)
    refine ⟨ls, hls, ?_⟩
    rw [← List.append_nil ls]
    exact htext.append (fun _ _ => Blank.append) hblank
  · cases hend

end LoopClosure.Json
