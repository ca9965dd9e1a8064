import LoopClosure.Json.Comments
import LoopClosure.Proofs.Json.Reading

/-!
# Taking out comments and trailing commas

- `Gap`: white space and comments.
- `Trailed ls ms`: the lexemes `ms` are `ls` with a comma in front of some closing brackets, none of
  them directly behind an opening one.
- `squeeze cs`: the text without the white space outside of strings.
- `clean_recovers`: of a JSON text and what was put into it, the text is left.
-/

namespace LoopClosure.Json

open Text (White isWhiteSpace)

variable {ls ms : List Lexeme} {as bs cs text : List Char} {l : Lexeme} {c : Char}

/-- White space and comments. A line comment has its line feed, and a block comment ends with its
first closing mark. -/
inductive Gap : List Char → Prop
  | nil : Gap []
  | space {c : Char} {cs : List Char} (hc : isWhiteSpace c = true) (h : Gap cs) : Gap (c :: cs)
  | line {body cs : List Char} (hbody : '\n' ∉ body) (h : Gap cs) :
    Gap ('/' :: '/' :: (body ++ '\n' :: cs))
  | block {body cs : List Char} (hbody : ¬['*', '/'] <:+: body) (h : Gap cs) :
    Gap ('/' :: '*' :: (body ++ '*' :: '/' :: cs))

/-- The second lexemes are the first ones with one comma more in front of some closing brackets. -/
inductive Trailed : List Lexeme → List Lexeme → Prop
  | nil : Trailed [] []
  | keep {ls ms : List Lexeme} (l : Lexeme) (h : Trailed ls ms) : Trailed (l :: ls) (l :: ms)
  | comma {ls ms : List Lexeme} {l m : Lexeme} (hl : l.isOpening = false) (hm : m.isClosing = true)
    (h : Trailed (m :: ls) ms) : Trailed (l :: m :: ls) (l :: .comma :: ms)

def squeezeFrom : Region → List Char → List Char
  | _, [] => []
  | .string, c :: cs =>
    c :: squeezeFrom (if c = '\\' then .escape else if c = '"' then .code else .string) cs
  | .escape, c :: cs => c :: squeezeFrom .string cs
  | r, c :: cs =>
    if isWhiteSpace c then squeezeFrom r cs
    else c :: squeezeFrom (if c = '"' then .string else r) cs

/-- A text without the white space outside of strings. -/
def squeeze (cs : List Char) : List Char := squeezeFrom .code cs

/-! ## Readers that copy lexemes -/

/-- A reader of texts that copies strings and ordinary characters. -/
structure Copies (F : Region → List Char → List Char) : Prop where
  ordinary : ∀ {c : Char} (cs : List Char), IsOrdinary c → F .code (c :: cs) = c :: F .code cs
  bracket : ∀ {c : Char} (cs : List Char), c = ']' ∨ c = '\x7d' → F .code (c :: cs) = c :: F .code cs
  quote : ∀ cs : List Char, F .code ('"' :: cs) = '"' :: F .string cs
  string : ∀ (c : Char) (cs : List Char), F .string (c :: cs) =
    c :: F (if c = '\\' then .escape else if c = '"' then .code else .string) cs
  escape : ∀ (c : Char) (cs : List Char), F .escape (c :: cs) = c :: F .string cs

theorem IsHexDigit.ne (h : IsHexDigit c) : c ≠ '\\' ∧ c ≠ '"' := by
  constructor <;> rintro rfl <;> exact absurd h (by decide)

namespace Copies

variable {F : Region → List Char → List Char}

theorem char (hF : Copies F) (hslash : c ≠ '\\') (hquote : c ≠ '"') (cs : List Char) :
    F .string (c :: cs) = c :: F .string cs := by
  rw [hF.string, if_neg hslash, if_neg hquote]

theorem body (hF : Copies F) {body : List Char} (h : StringBody body) (cs : List Char) :
    F .string (body ++ '"' :: cs) = body ++ '"' :: F .code cs := by
  induction h with
  | nil => exact hF.string '"' cs
  | char hquote hslash _ _ ih => rw [List.cons_append, hF.char hslash hquote, ih, List.cons_append]
  | escape _ _ ih =>
    rw [List.cons_append, List.cons_append, hF.string, if_pos rfl, hF.escape, ih, List.cons_append,
      List.cons_append]
  | unit ha hb hc hd _ ih =>
    simp only [List.cons_append]
    rw [hF.string, if_pos rfl, hF.escape, hF.char ha.ne.1 ha.ne.2, hF.char hb.ne.1 hb.ne.2,
      hF.char hc.ne.1 hc.ne.2, hF.char hd.ne.1 hd.ne.2, ih]

theorem word (hF : Copies F) (h : ∀ c ∈ as, IsOrdinary c) (cs : List Char) :
    F .code (as ++ cs) = as ++ F .code cs := by
  induction as with
  | nil => rfl
  | cons a as ih =>
    obtain ⟨ha, has⟩ := List.forall_mem_cons.1 h
    rw [List.cons_append, hF.ordinary _ ha, ih has, List.cons_append]

/-- All lexemes but commas are copied. -/
theorem lexeme (hF : Copies F) (hl : l.WellFormed) (hcomma : l ≠ .comma) (cs : List Char) :
    F .code (l.text ++ cs) = l.text ++ F .code cs := by
  cases l with
  | opening b => cases b <;> exact hF.ordinary cs (by decide)
  | closing b =>
    cases b
    · exact hF.bracket cs (.inl rfl)
    · exact hF.bracket cs (.inr rfl)
  | comma => exact absurd rfl hcomma
  | colon => exact hF.ordinary cs (by decide)
  | string body =>
    rw [Lexeme.text, List.cons_append, List.append_assoc, hF.quote, List.singleton_append,
      hF.body hl, List.cons_append, List.append_assoc, List.singleton_append]
  | word spelling => exact hF.word (IsWord.isOrdinary hl) cs

end Copies

theorem copies_stripCommentsFrom : Copies stripCommentsFrom where
  ordinary cs h := stripCommentsFrom_code h.2.1 h.2.2.2.1 cs
  bracket cs h := by rcases h with rfl | rfl <;> rfl
  quote cs := rfl
  string c cs := by rw [stripCommentsFrom]
  escape c cs := by rw [stripCommentsFrom]

theorem copies_dropTrailingCommasFrom : Copies dropTrailingCommasFrom where
  ordinary cs h := dropTrailingCommasFrom_code h.2.2.2.1 fun hcomma => absurd hcomma h.2.2.1
  bracket cs h := by rcases h with rfl | rfl <;> rfl
  quote cs := rfl
  string c cs := rfl
  escape c cs := rfl

theorem copies_squeezeFrom : Copies squeezeFrom where
  ordinary cs h := by
    rw [squeezeFrom, if_neg (by simp [h.1]), if_neg h.2.2.2.1] <;> simp
  bracket cs h := by rcases h with rfl | rfl <;> rfl
  quote cs := rfl
  string c cs := rfl
  escape c cs := rfl

/-! ## Comments -/

theorem stripCommentsFrom_white (h : White as) (cs : List Char) :
    stripCommentsFrom .code (as ++ cs) = as ++ stripCommentsFrom .code cs := by
  induction as with
  | nil => rfl
  | cons a as ih =>
    obtain ⟨ha, has⟩ := List.forall_mem_cons.1 h
    have hne {c : Char} (hc : isWhiteSpace c = false) : a ≠ c := by
      rintro rfl
      exact absurd ha (by simp [hc])
    rw [List.cons_append, stripCommentsFrom_code (hne (by decide)) (hne (by decide)), ih has,
      List.cons_append]

theorem stripCommentsFrom_line {body : List Char} (h : '\n' ∉ body) (cs : List Char) :
    stripCommentsFrom .lineComment (body ++ '\n' :: cs) = '\n' :: stripCommentsFrom .code cs := by
  induction body with
  | nil => rfl
  | cons c body ih =>
    obtain ⟨hc, hbody⟩ := not_or.1 (mt List.mem_cons.2 h)
    rw [List.cons_append, stripCommentsFrom, if_neg (Ne.symm hc), ih hbody]

/-- Of a block comment the line feeds are left. -/
theorem stripCommentsFrom_block {body : List Char} (h : ¬['*', '/'] <:+: body) :
    ∃ bs, White bs ∧ ∀ cs, stripCommentsFrom .blockComment (body ++ '*' :: '/' :: cs) =
      bs ++ stripCommentsFrom .code cs := by
  induction body with
  | nil => exact ⟨[], by simp [White], fun _ => rfl⟩
  | cons c body ih =>
    obtain ⟨bs, hbs, hstrip⟩ := ih fun hin => h (hin.trans (List.suffix_cons c body).isInfix)
    have hstep (cs : List Char) : stripCommentsFrom .blockComment (c :: (body ++ '*' :: '/' :: cs)) =
        if c = '\n' then c :: stripCommentsFrom .blockComment (body ++ '*' :: '/' :: cs)
        else stripCommentsFrom .blockComment (body ++ '*' :: '/' :: cs) := by
      rw [stripCommentsFrom]
      -- The mark that closes the comment does not begin in the body.
      rintro ds rfl hds
      cases body with
      | nil => cases hds
      | cons d body =>
        obtain rfl : d = '/' := (List.cons.inj hds).1
        exact h ⟨[], body, rfl⟩
    by_cases hc : c = '\n'
    · refine ⟨c :: bs, List.forall_mem_cons.2 ⟨hc ▸ by decide, hbs⟩, fun cs => ?_⟩
      rw [List.cons_append, hstep, if_pos hc, hstrip, List.cons_append]
    · refine ⟨bs, hbs, fun cs => ?_⟩
      rw [List.cons_append, hstep, if_neg hc, hstrip]

/-- Of a gap only white space is left. -/
theorem Gap.strip (h : Gap as) : ∃ bs, White bs ∧
    ∀ cs, stripCommentsFrom .code (as ++ cs) = bs ++ stripCommentsFrom .code cs := by
  induction h with
  | nil => exact ⟨[], by simp [White], fun _ => rfl⟩
  | @space c as hc _ ih =>
    obtain ⟨bs, hbs, hstrip⟩ := ih
    have hwhite : White [c] := List.forall_mem_singleton.2 hc
    refine ⟨c :: bs, List.forall_mem_cons.2 ⟨hc, hbs⟩, fun cs => ?_⟩
    rw [List.cons_append, ← List.singleton_append, stripCommentsFrom_white hwhite, hstrip,
      List.singleton_append, List.cons_append]
  | @line body as hbody _ ih =>
    obtain ⟨bs, hbs, hstrip⟩ := ih
    refine ⟨'\n' :: bs, List.forall_mem_cons.2 ⟨by decide, hbs⟩, fun cs => ?_⟩
    have hline := stripCommentsFrom_line hbody (as ++ cs)
    rw [hstrip] at hline
    rw [List.cons_append, List.cons_append, List.append_assoc, List.cons_append, List.cons_append,
      ← hline]
    rfl
  | @block body as hbody _ ih =>
    obtain ⟨bs, hbs, hstrip⟩ := ih
    obtain ⟨ds, hds, hblock⟩ := stripCommentsFrom_block hbody
    refine ⟨ds ++ bs, hds.append hbs, fun cs => ?_⟩
    have hall := hblock (as ++ cs)
    rw [hstrip] at hall
    rw [List.cons_append, List.cons_append, List.append_assoc, List.cons_append, List.cons_append,
      List.append_assoc, ← hall]
    rfl

theorem stripCommentsFrom_lexeme (hl : l.WellFormed) (cs : List Char) :
    stripCommentsFrom .code (l.text ++ cs) = l.text ++ stripCommentsFrom .code cs := by
  by_cases hcomma : l = .comma
  · subst hcomma
    rfl
  · exact copies_stripCommentsFrom.lexeme hl hcomma cs

/-- Taking out comments leaves the lexemes, with white space between them. -/
theorem written_stripComments (hwf : ∀ l ∈ ls, l.WellFormed) (h : Written Gap ls text) :
    Written White ls (stripComments text) := by
  induction h with
  | nil hgap =>
    obtain ⟨bs, hbs, hstrip⟩ := hgap.strip
    have hnil := hstrip []
    rw [List.append_nil, stripCommentsFrom_nil, List.append_nil] at hnil
    rw [stripComments, hnil]
    exact .nil hbs
  | cons hgap _ ih =>
    obtain ⟨hl, hls⟩ := List.forall_mem_cons.1 hwf
    obtain ⟨bs, hbs, hstrip⟩ := hgap.strip
    rw [stripComments, hstrip, stripCommentsFrom_lexeme hl]
    exact .cons hbs (ih hls)

/-- A text without comments stays as it is. -/
theorem stripComments_eq_self (hwf : ∀ l ∈ ls, l.WellFormed) (h : Written White ls text) :
    stripComments text = text := by
  induction h with
  | @nil gap hgap =>
    have hnil := stripCommentsFrom_white hgap []
    rwa [List.append_nil, stripCommentsFrom_nil, List.append_nil] at hnil
  | cons hgap _ ih =>
    obtain ⟨hl, hls⟩ := List.forall_mem_cons.1 hwf
    rw [stripComments, stripCommentsFrom_white hgap, stripCommentsFrom_lexeme hl, ← stripComments,
      ih hls]

/-! ## Trailing commas -/

/-- What a lexeme begins with tells whether it is a closing bracket. -/
theorem Lexeme.exists_text (hl : l.WellFormed) : ∃ c rest, l.text = c :: rest ∧
    isWhiteSpace c = false ∧ (l.isClosing = true ↔ c = '\x7d' ∨ c = ']') := by
  cases l with
  | opening b => cases b <;> exact ⟨_, _, rfl, by decide, by simp [isClosing]⟩
  | closing b => cases b <;> exact ⟨_, _, rfl, by decide, by simp [isClosing]⟩
  | comma => exact ⟨_, _, rfl, by decide, by simp [isClosing]⟩
  | colon => exact ⟨_, _, rfl, by decide, by simp [isClosing]⟩
  | string body => exact ⟨_, _, rfl, by decide, by simp [isClosing]⟩
  | word spelling =>
    obtain ⟨c, rest, rfl⟩ := List.exists_cons_of_ne_nil (IsWord.ne_nil hl)
    have hc := IsWord.isOrdinary hl c List.mem_cons_self
    exact ⟨c, rest, rfl, hc.1, by simp [isClosing, hc.2.2.2.2]⟩

/-- Whether a bracket closes next is told by the next lexeme. -/
theorem closesNext_iff (hwf : ∀ l ∈ ls, l.WellFormed) (h : Written White ls text) :
    closesNext text = true ↔ ∃ l ∈ ls.head?, l.isClosing = true := by
  cases h with
  | nil hgap =>
    have hfind : text.find? (fun c => !isWhiteSpace c) = none :=
      List.find?_eq_none.2 fun c hc => by simp [hgap c hc]
    simp [closesNext, hfind]
  | @cons gap cs l ls hgap _ =>
    obtain ⟨c, rest, htext, hc, hiff⟩ := Lexeme.exists_text (hwf l List.mem_cons_self)
    have hgap : gap.find? (fun c => !isWhiteSpace c) = none :=
      List.find?_eq_none.2 fun c hc => by simp [hgap c hc]
    have hfind : (gap ++ (l.text ++ cs)).find? (fun c => !isWhiteSpace c) = some c := by
      rw [List.find?_append, hgap, htext, List.cons_append, List.find?_cons_of_pos (by simp [hc])]
      rfl
    simp [closesNext, hfind, hiff]

theorem dropTrailingCommasFrom_white (h : White as) (cs : List Char) :
    dropTrailingCommasFrom .code (as ++ cs) = as ++ dropTrailingCommasFrom .code cs := by
  induction as with
  | nil => rfl
  | cons a as ih =>
    obtain ⟨ha, has⟩ := List.forall_mem_cons.1 h
    have hne {c : Char} (hc : isWhiteSpace c = false) : a ≠ c := by
      rintro rfl
      exact absurd ha (by simp [hc])
    have hcomma : a ≠ ',' := hne (by decide)
    rw [List.cons_append, dropTrailingCommasFrom_code (hne (by decide)) fun h => absurd h hcomma,
      ih has, List.cons_append]

/-- A lexeme is copied, a comma where no bracket closes next. -/
theorem dropTrailingCommasFrom_lexeme (hl : l.WellFormed)
    (h : l = .comma → closesNext cs = false) :
    dropTrailingCommasFrom .code (l.text ++ cs) = l.text ++ dropTrailingCommasFrom .code cs := by
  by_cases hcomma : l = .comma
  · have hnext := h hcomma
    subst hcomma
    exact dropTrailingCommasFrom_code (by decide) fun _ => hnext
  · exact copies_dropTrailingCommasFrom.lexeme hl hcomma cs

theorem Trailed.head? (h : Trailed ls ms) : ms.head? = ls.head? := by
  cases h <;> rfl

theorem Trailed.wellFormed (h : Trailed ls ms) (hwf : ∀ l ∈ ls, l.WellFormed) :
    ∀ l ∈ ms, l.WellFormed := by
  induction h with
  | nil => exact hwf
  | keep l _ ih =>
    obtain ⟨hl, hls⟩ := List.forall_mem_cons.1 hwf
    exact List.forall_mem_cons.2 ⟨hl, ih hls⟩
  | comma _ _ _ ih =>
    obtain ⟨hl, hls⟩ := List.forall_mem_cons.1 hwf
    exact List.forall_mem_cons.2 ⟨hl, List.forall_mem_cons.2 ⟨trivial, ih hls⟩⟩

/-- Behind a comma of the grammar no bracket closes. -/
theorem closesNext_of_mayFollow (hwf : ∀ l ∈ ms, l.WellFormed) (h : Written White ms cs)
    (hfollow : ∀ m ∈ ms.head?, MayFollow l m) (hl : l = .comma) : closesNext cs = false := by
  refine Bool.eq_false_iff.2 fun hcloses => ?_
  obtain ⟨m, hm, hclosing⟩ := (closesNext_iff hwf h).1 hcloses
  exact absurd (hfollow m hm hl) (by simp [hclosing])

/-- Taking out trailing commas leaves the lexemes without them. -/
theorem written_dropTrailingCommas (htrailed : Trailed ls ms) (hchain : ls.IsChain MayFollow)
    (hwf : ∀ l ∈ ls, l.WellFormed) (h : Written White ms text) :
    Written White ls (dropTrailingCommas text) := by
  induction htrailed generalizing text with
  | nil =>
    cases h with
    | nil hgap =>
      have hnil := dropTrailingCommasFrom_white hgap []
      rw [List.append_nil, dropTrailingCommasFrom_nil, List.append_nil] at hnil
      rw [dropTrailingCommas, hnil]
      exact .nil hgap
  | @keep ls ms l htrailed ih =>
    obtain ⟨hfollow, hchain⟩ := List.isChain_cons.1 hchain
    obtain ⟨hl, hls⟩ := List.forall_mem_cons.1 hwf
    cases h with
    | cons hgap h =>
      have hnext := closesNext_of_mayFollow (htrailed.wellFormed hls) h
        (htrailed.head? ▸ hfollow)
      rw [dropTrailingCommas, dropTrailingCommasFrom_white hgap,
        dropTrailingCommasFrom_lexeme hl hnext]
      exact .cons hgap (ih hchain hls h)
  | @comma ls ms l m hl hm htrailed ih =>
    obtain ⟨hfollow, hchain⟩ := List.isChain_cons.1 hchain
    obtain ⟨hwl, hls⟩ := List.forall_mem_cons.1 hwf
    have hcomma : l ≠ .comma := fun he => by
      have := hfollow m rfl he
      rw [hm] at this
      cases this
    cases h with
    | cons hgap h =>
      cases h with
      | cons hgap' h =>
        have hcloses := (closesNext_iff (htrailed.wellFormed hls) h).2
          ⟨m, htrailed.head?.trans rfl, hm⟩
        rw [dropTrailingCommas, dropTrailingCommasFrom_white hgap,
          dropTrailingCommasFrom_lexeme hwl fun he => absurd he hcomma,
          dropTrailingCommasFrom_white hgap', Lexeme.text, List.singleton_append,
          dropTrailingCommasFrom_comma hcloses]
        exact .cons hgap ((ih hchain hls h).gap (fun _ _ => White.append) hgap')

/-- A text without trailing commas stays as it is. -/
theorem dropTrailingCommas_eq_self (hchain : ls.IsChain MayFollow)
    (hwf : ∀ l ∈ ls, l.WellFormed) (h : Written White ls text) :
    dropTrailingCommas text = text := by
  induction h with
  | @nil gap hgap =>
    have hnil := dropTrailingCommasFrom_white hgap []
    rwa [List.append_nil, dropTrailingCommasFrom_nil, List.append_nil] at hnil
  | cons hgap h ih =>
    obtain ⟨hfollow, hchain⟩ := List.isChain_cons.1 hchain
    obtain ⟨hl, hls⟩ := List.forall_mem_cons.1 hwf
    rw [dropTrailingCommas, dropTrailingCommasFrom_white hgap,
      dropTrailingCommasFrom_lexeme hl (closesNext_of_mayFollow hls h hfollow),
      ← dropTrailingCommas, ih hchain hls]

/-! ## White space -/

theorem squeezeFrom_white (h : White as) (cs : List Char) :
    squeezeFrom .code (as ++ cs) = squeezeFrom .code cs := by
  induction as with
  | nil => rfl
  | cons a as ih =>
    obtain ⟨ha, has⟩ := List.forall_mem_cons.1 h
    rw [List.cons_append, squeezeFrom, if_pos ha, ih has] <;> simp

theorem squeezeFrom_lexeme (hl : l.WellFormed) (cs : List Char) :
    squeezeFrom .code (l.text ++ cs) = l.text ++ squeezeFrom .code cs := by
  by_cases hcomma : l = .comma
  · subst hcomma
    rfl
  · exact copies_squeezeFrom.lexeme hl hcomma cs

/-- Without white space a text is its lexemes. -/
theorem squeeze_written (hwf : ∀ l ∈ ls, l.WellFormed) (h : Written White ls text) :
    squeeze text = ls.flatMap Lexeme.text := by
  induction h with
  | @nil gap hgap =>
    have hnil := squeezeFrom_white hgap []
    rwa [List.append_nil] at hnil
  | cons hgap _ ih =>
    obtain ⟨hl, hls⟩ := List.forall_mem_cons.1 hwf
    rw [squeeze, squeezeFrom_white hgap, squeezeFrom_lexeme hl, ← squeeze, ih hls,
      List.flatMap_cons]

/-! ## The text that is left -/

/-- The reader takes values of the grammar only. A value is not changed by taking out comments and
trailing commas. With comments and trailing commas put into it, its lexemes are left, with white
space between them. -/
theorem clean_recovers :
    (∀ text v, read? text = some v → ∃ ls, Value ls ∧ Written Blank ls text) ∧
    ∀ ls ms text decorated, Value ls → Written Blank ls text → Trailed ls ms →
      Written Gap ms decorated →
        dropTrailingCommas (stripComments text) = text ∧
        Written White ls (dropTrailingCommas (stripComments decorated)) ∧
        squeeze (dropTrailingCommas (stripComments decorated)) = squeeze text := by
  refine ⟨fun _ _ => read?_grammar, fun ls ms text decorated hvalue htext htrailed hdecorated => ?_⟩
  have hwf := hvalue.wellFormed
  have hchain := hvalue.joined.1.chain
  have htext : Written White ls text := htext.mono fun _ => Blank.white
  have hclean : Written White ls (dropTrailingCommas (stripComments decorated)) :=
    written_dropTrailingCommas htrailed hchain hwf
      (written_stripComments (htrailed.wellFormed hwf) hdecorated)
  refine ⟨?_, hclean, ?_⟩
  · rw [stripComments_eq_self hwf htext, dropTrailingCommas_eq_self hchain hwf htext]
  · rw [squeeze_written hwf hclean, squeeze_written hwf htext]

/-- Comments with a quote and a bracket, a string with the marks of a comment and a comma before a
bracket. -/
theorem clean_recovers_commented :
    squeeze (dropTrailingCommas (stripComments "[ \"//,]\", // \"]\n1,/*]*/ ]".toList)) =
      "[\"//,]\",1]".toList := by
  let ls : List Lexeme := [.opening .square, .string ['/', '/', ',', ']'], .comma, .word ['1'],
    .closing .square]
  let ms : List Lexeme := [.opening .square, .string ['/', '/', ',', ']'], .comma, .word ['1'],
    .comma, .closing .square]
  have hbody : StringBody ['/', '/', ',', ']'] :=
    .char (by decide) (by decide) (by decide) (.char (by decide) (by decide) (by decide)
      (.char (by decide) (by decide) (by decide) (.char (by decide) (by decide) (by decide) .nil)))
  have hone : IsNumber ([] ++ ['1'] ++ [] ++ []) :=
    .intro (.inl rfl) (.inr ⟨⟨by decide, List.forall_mem_singleton.2 rfl⟩, by decide⟩) (.inl rfl)
      (.inl rfl)
  have hvalue : Value ls := .array (.more (.string hbody) (.last (.word (.inr hone))))
  have hnil : Blank [] := by simp [Blank]
  have htext : Written Blank ls "[\"//,]\",1]".toList :=
    .cons hnil (.cons hnil (.cons hnil (.cons hnil (.cons hnil (.nil hnil)))))
  have htrailed : Trailed ls ms :=
    .keep _ (.keep _ (.keep _ (.comma rfl rfl (.keep _ .nil))))
  have hline : Gap (' ' :: '/' :: '/' :: ([' ', '"', ']'] ++ ['\n'])) :=
    .space rfl (.line (by decide) .nil)
  have hblock : Gap ('/' :: '*' :: ([']'] ++ ['*', '/', ' '])) :=
    .block (by decide) (.space rfl .nil)
  have hdecorated : Written Gap ms "[ \"//,]\", // \"]\n1,/*]*/ ]".toList :=
    .cons .nil (.cons (.space rfl .nil) (.cons .nil (.cons hline (.cons .nil (.cons hblock
      (.nil .nil))))))
  exact (clean_recovers.2 ls ms _ _ hvalue htext htrailed hdecorated).2.2

end LoopClosure.Json
