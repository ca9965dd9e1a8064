import LoopClosure.Json.Basic
import LoopClosure.Proofs.Text.Split
import Mathlib.Data.List.Chain

/-!
# The grammar of JSON

A JSON text is written lexeme by lexeme, with gaps between them.

- `StringBody`, `IsWord`: how strings, numbers and the three names are spelled.
- `Value ls`: the lexemes are a value.
- `Written G ls cs`: the text has these lexemes, and gaps in `G` before, between and behind them.

In a value no closing bracket stands directly behind a comma (`Value.isChain`).
-/

namespace LoopClosure.Json

/-! ## Lexemes -/

inductive Bracket where
  | square | curly
deriving DecidableEq, Repr

/-- A lexeme. A string is given by what stands between its quotes; a number, `true`, `false` and
`null` are words. -/
inductive Lexeme where
  | opening (b : Bracket)
  | closing (b : Bracket)
  | comma
  | colon
  | string (body : List Char)
  | word (spelling : List Char)
deriving DecidableEq, Repr

namespace Lexeme

def text : Lexeme → List Char
  | opening .square => ['[']
  | opening .curly => ['\x7b']
  | closing .square => [']']
  | closing .curly => ['\x7d']
  | comma => [',']
  | colon => [':']
  | string body => '"' :: (body ++ ['"'])
  | word spelling => spelling

def isClosing : Lexeme → Bool
  | closing _ => true
  | _ => false

def isOpening : Lexeme → Bool
  | opening _ => true
  | _ => false

end Lexeme

/-! ## Strings, numbers and names -/

def IsHexDigit (c : Char) : Prop := c.isDigit = true ∨ ('a' ≤ c ∧ c ≤ 'f') ∨ ('A' ≤ c ∧ c ≤ 'F')

instance (c : Char) : Decidable (IsHexDigit c) := inferInstanceAs (Decidable (_ ∨ _))

/-- What may stand between the quotes of a string. -/
inductive StringBody : List Char → Prop
  | nil : StringBody []
  | char {c : Char} {cs : List Char} (hquote : c ≠ '"') (hslash : c ≠ '\\')
    (hcontrol : 0x20 ≤ c.toNat) (h : StringBody cs) : StringBody (c :: cs)
  | escape {c : Char} {cs : List Char} (hc : c ∈ ['"', '\\', '/', 'b', 'f', 'n', 'r', 't'])
    (h : StringBody cs) : StringBody ('\\' :: c :: cs)
  | unit {a b c d : Char} {cs : List Char} (ha : IsHexDigit a) (hb : IsHexDigit b)
    (hc : IsHexDigit c) (hd : IsHexDigit d) (h : StringBody cs) :
    StringBody ('\\' :: 'u' :: a :: b :: c :: d :: cs)

def IsDigits (cs : List Char) : Prop := cs ≠ [] ∧ ∀ c ∈ cs, c.isDigit = true

/-- Digits without a superfluous leading zero. -/
def IsWhole (cs : List Char) : Prop := cs = ['0'] ∨ IsDigits cs ∧ cs.head? ≠ some '0'

def IsFraction (cs : List Char) : Prop := cs = [] ∨ ∃ ds, cs = '.' :: ds ∧ IsDigits ds

def IsExponent (cs : List Char) : Prop :=
  cs = [] ∨ ∃ e sign ds, cs = e :: (sign ++ ds) ∧ (e = 'e' ∨ e = 'E') ∧
    (sign = [] ∨ sign = ['+'] ∨ sign = ['-']) ∧ IsDigits ds

inductive IsNumber : List Char → Prop
  | intro {sign whole fraction exponent : List Char} (hsign : sign = [] ∨ sign = ['-'])
    (hwhole : IsWhole whole) (hfraction : IsFraction fraction) (hexponent : IsExponent exponent) :
    IsNumber (sign ++ whole ++ fraction ++ exponent)

def IsWord (cs : List Char) : Prop :=
  cs ∈ [['n', 'u', 'l', 'l'], ['t', 'r', 'u', 'e'], ['f', 'a', 'l', 's', 'e']] ∨ IsNumber cs

/-! ## Values -/

mutual

inductive Value : List Lexeme → Prop
  | word {spelling : List Char} (h : IsWord spelling) : Value [.word spelling]
  | string {body : List Char} (h : StringBody body) : Value [.string body]
  | empty (b : Bracket) : Value [.opening b, .closing b]
  | array {ls : List Lexeme} (h : Items ls) :
    Value (.opening .square :: (ls ++ [.closing .square]))
  | object {ls : List Lexeme} (h : Members ls) :
    Value (.opening .curly :: (ls ++ [.closing .curly]))

inductive Items : List Lexeme → Prop
  | last {ls : List Lexeme} (h : Value ls) : Items ls
  | more {ls ms : List Lexeme} (h : Value ls) (hrest : Items ms) : Items (ls ++ .comma :: ms)

inductive Members : List Lexeme → Prop
  | last {name : List Char} {ls : List Lexeme} (hname : StringBody name) (h : Value ls) :
    Members (.string name :: .colon :: ls)
  | more {name : List Char} {ls ms : List Lexeme} (hname : StringBody name) (h : Value ls)
    (hrest : Members ms) : Members (.string name :: .colon :: (ls ++ .comma :: ms))

end

/-- The lexemes of a text, with gaps before, between and behind them. -/
inductive Written (G : List Char → Prop) : List Lexeme → List Char → Prop
  | nil {gap : List Char} (hgap : G gap) : Written G [] gap
  | cons {gap cs : List Char} {l : Lexeme} {ls : List Lexeme} (hgap : G gap)
    (h : Written G ls cs) : Written G (l :: ls) (gap ++ (l.text ++ cs))

/-- The blanks of JSON. -/
def Blank (cs : List Char) : Prop := ∀ c ∈ cs, c = ' ' ∨ c = '\t' ∨ c = '\n' ∨ c = '\r'

variable {G : List Char → Prop} {ls ms : List Lexeme} {as bs cs : List Char} {l : Lexeme}

/-! ## Texts and their gaps -/

theorem Written.mono {H : List Char → Prop} (hGH : ∀ gap, G gap → H gap) (h : Written G ls cs) :
    Written H ls cs := by
  induction h with
  | nil hgap => exact .nil (hGH _ hgap)
  | cons hgap _ ih => exact .cons (hGH _ hgap) ih

/-- A gap in front of a text. -/
theorem Written.gap (happend : ∀ as bs, G as → G bs → G (as ++ bs)) (has : G as)
    (h : Written G ls cs) : Written G ls (as ++ cs) := by
  cases h with
  | nil hgap => exact .nil (happend _ _ has hgap)
  | cons hgap h =>
    rw [← List.append_assoc]
    exact .cons (happend _ _ has hgap) h

theorem Written.append (happend : ∀ as bs, G as → G bs → G (as ++ bs)) (h : Written G ls as)
    (h' : Written G ms bs) : Written G (ls ++ ms) (as ++ bs) := by
  induction h with
  | nil hgap => exact h'.gap happend hgap
  | cons hgap _ ih =>
    rw [List.append_assoc, List.append_assoc, List.cons_append]
    exact .cons hgap ih

theorem Blank.white (h : Blank cs) : Text.White cs := fun c hc => by
  rcases h c hc with rfl | rfl | rfl | rfl <;> decide

theorem Blank.append (has : Blank as) (hbs : Blank bs) : Blank (as ++ bs) :=
  List.forall_mem_append.2 ⟨has, hbs⟩

/-! ## Well-formed lexemes -/

/-- A lexeme that is spelled as the grammar has it. -/
def Lexeme.WellFormed : Lexeme → Prop
  | .string body => StringBody body
  | .word spelling => IsWord spelling
  | _ => True

/-- A character that no reader of lexemes looks at. -/
def IsOrdinary (c : Char) : Prop :=
  Text.isWhiteSpace c = false ∧ c ≠ '/' ∧ c ≠ ',' ∧ c ≠ '"' ∧ c ≠ ']' ∧ c ≠ '\x7d'

instance (c : Char) : Decidable (IsOrdinary c) := inferInstanceAs (Decidable (_ ∧ _))

theorem isOrdinary_of_all (h : cs.all (fun c => decide (IsOrdinary c)) = true) :
    ∀ c ∈ cs, IsOrdinary c := by
  simpa using h

theorem isOrdinary_of_isDigit {c : Char} (h : c.isDigit = true) : IsOrdinary c := by
  have hne {d : Char} (hd : d.isDigit = false) : c ≠ d := by
    rintro rfl
    exact absurd h (by simp [hd])
  refine ⟨?_, hne (by decide), hne (by decide), hne (by decide), hne (by decide), hne (by decide)⟩
  have hrange : 48 ≤ c.toNat ∧ c.toNat ≤ 57 := by
    simpa [Char.isDigit, UInt32.le_iff_toNat_le] using h
  simp [Text.isWhiteSpace, Text.inRanges, Text.whiteSpaceRanges]
  omega

theorem IsDigits.isOrdinary (h : IsDigits cs) : ∀ c ∈ cs, IsOrdinary c :=
  fun c hc => isOrdinary_of_isDigit (h.2 c hc)

theorem IsNumber.isOrdinary (h : IsNumber cs) : ∀ c ∈ cs, IsOrdinary c := by
  cases h with
  | @intro sign whole fraction exponent hsign hwhole hfraction hexponent =>
    have hsign : ∀ c ∈ sign, IsOrdinary c := isOrdinary_of_all (by
      rcases hsign with rfl | rfl <;> decide)
    have hwhole : ∀ c ∈ whole, IsOrdinary c := by
      rcases hwhole with rfl | ⟨h, -⟩
      · exact isOrdinary_of_all (by decide)
      · exact h.isOrdinary
    have hfraction : ∀ c ∈ fraction, IsOrdinary c := by
      rcases hfraction with rfl | ⟨ds, rfl, h⟩
      · exact isOrdinary_of_all rfl
      · exact List.forall_mem_cons.2 ⟨by decide, h.isOrdinary⟩
    have hexponent : ∀ c ∈ exponent, IsOrdinary c := by
      rcases hexponent with rfl | ⟨e, sign, ds, rfl, he, hsign, h⟩
      · exact isOrdinary_of_all rfl
      · have he : IsOrdinary e := by rcases he with rfl | rfl <;> decide
        have hsign : ∀ c ∈ sign, IsOrdinary c := isOrdinary_of_all (by
          rcases hsign with rfl | rfl | rfl <;> decide)
        exact List.forall_mem_cons.2 ⟨he, List.forall_mem_append.2 ⟨hsign, h.isOrdinary⟩⟩
    exact List.forall_mem_append.2 ⟨List.forall_mem_append.2
      ⟨List.forall_mem_append.2 ⟨hsign, hwhole⟩, hfraction⟩, hexponent⟩

theorem IsWord.isOrdinary (h : IsWord cs) : ∀ c ∈ cs, IsOrdinary c := by
  rcases h with h | h
  · refine isOrdinary_of_all ?_
    revert cs
    decide
  · exact h.isOrdinary

theorem IsWhole.ne_nil (h : IsWhole cs) : cs ≠ [] := by
  rcases h with rfl | ⟨h, -⟩
  · exact List.cons_ne_nil _ _
  · exact h.1

theorem IsWord.ne_nil (h : IsWord cs) : cs ≠ [] := by
  rcases h with h | h
  · rintro rfl
    exact absurd h (by decide)
  · cases h with
    | intro _ hwhole _ _ => simp [hwhole.ne_nil]

/-! ## Commas and brackets -/

/-- Not a closing bracket directly behind a comma. -/
def MayFollow (l m : Lexeme) : Prop := l = .comma → m.isClosing = false

/-- Lexemes that begin with no closing bracket, end with no comma, and have no closing bracket
directly behind a comma. -/
structure Joined (ls : List Lexeme) : Prop where
  chain : ls.IsChain MayFollow
  head : ∀ l ∈ ls.head?, l.isClosing = false
  last : ∀ l ∈ ls.getLast?, l ≠ .comma

theorem Joined.single (hclosing : l.isClosing = false) (hcomma : l ≠ .comma) : Joined [l] where
  chain := List.isChain_singleton l
  head := by simpa using hclosing
  last := by simpa using hcomma

theorem Joined.cons (hclosing : l.isClosing = false) (hcomma : l ≠ .comma) (h : Joined ls) :
    Joined (l :: ls) where
  chain := List.isChain_cons.2 ⟨fun _ _ he => absurd he hcomma, h.chain⟩
  head := by simpa using hclosing
  last := by
    cases ls with
    | nil => simpa using hcomma
    | cons m ls => simpa using h.last

theorem Joined.comma (h : Joined ls) (h' : Joined ms) (hne : ls ≠ []) (hne' : ms ≠ []) :
    Joined (ls ++ .comma :: ms) where
  chain := by
    refine List.isChain_append.2 ⟨h.chain, List.isChain_cons.2 ⟨fun m hm _ => h'.head m hm,
      h'.chain⟩, fun l hl m hm he => ?_⟩
    exact absurd he (h.last l hl)
  head := by
    rw [List.head?_append_of_ne_nil _ hne]
    exact h.head
  last := by
    rw [List.getLast?_append_of_ne_nil _ (List.cons_ne_nil _ _)]
    obtain ⟨m, ms, rfl⟩ := List.exists_cons_of_ne_nil hne'
    simpa using h'.last

/-- Lexemes between brackets. -/
theorem Joined.bracketed (h : Joined ls) (b : Bracket) :
    Joined (.opening b :: (ls ++ [.closing b])) where
  chain := by
    have hclosed : (ls ++ [Lexeme.closing b]).IsChain MayFollow := List.isChain_append.2
      ⟨h.chain, List.isChain_singleton _, fun l hl _ _ he => absurd he (h.last l hl)⟩
    exact List.isChain_cons.2 ⟨fun _ _ he => absurd he (by simp), hclosed⟩
  head := by simp [Lexeme.isClosing]
  last := by
    rw [← List.cons_append, List.getLast?_concat]
    simp

mutual

theorem Value.joined {ls : List Lexeme} : Value ls → Joined ls ∧ ls ≠ []
  | .word _ => ⟨.single rfl (by simp), by simp⟩
  | .string _ => ⟨.single rfl (by simp), by simp⟩
  | .empty b => ⟨⟨by simp [MayFollow], by simp [Lexeme.isClosing], by simp⟩, by simp⟩
  | .array h => ⟨h.joined.1.bracketed _, by simp⟩
  | .object h => ⟨h.joined.1.bracketed _, by simp⟩

theorem Items.joined {ls : List Lexeme} : Items ls → Joined ls ∧ ls ≠ []
  | .last h => h.joined
  | .more h hrest => ⟨h.joined.1.comma hrest.joined.1 h.joined.2 hrest.joined.2, by simp⟩

theorem Members.joined {ls : List Lexeme} : Members ls → Joined ls ∧ ls ≠ []
  | .last _ h => ⟨.cons rfl (by simp) (.cons rfl (by simp) h.joined.1), by simp⟩
  | .more _ h hrest =>
    ⟨.cons rfl (by simp) (.cons rfl (by simp)
      (h.joined.1.comma hrest.joined.1 h.joined.2 hrest.joined.2)), by simp⟩

end

theorem wellFormed_comma (h : ∀ l ∈ ls, l.WellFormed) (h' : ∀ l ∈ ms, l.WellFormed) :
    ∀ l ∈ ls ++ .comma :: ms, l.WellFormed :=
  List.forall_mem_append.2 ⟨h, List.forall_mem_cons.2 ⟨trivial, h'⟩⟩

theorem wellFormed_bracketed (h : ∀ l ∈ ls, l.WellFormed) (b : Bracket) :
    ∀ l ∈ .opening b :: (ls ++ [.closing b]), l.WellFormed :=
  List.forall_mem_cons.2 ⟨trivial, List.forall_mem_append.2 ⟨h, List.forall_mem_singleton.2 trivial⟩⟩

theorem wellFormed_member {name : List Char} (hname : StringBody name)
    (h : ∀ l ∈ ls, l.WellFormed) : ∀ l ∈ .string name :: .colon :: ls, l.WellFormed :=
  List.forall_mem_cons.2 ⟨hname, List.forall_mem_cons.2 ⟨trivial, h⟩⟩

mutual

theorem Value.wellFormed {ls : List Lexeme} : Value ls → ∀ l ∈ ls, l.WellFormed
  | .word h => List.forall_mem_singleton.2 h
  | .string h => List.forall_mem_singleton.2 h
  | .empty b => wellFormed_bracketed (List.forall_mem_nil _) b
  | .array h => wellFormed_bracketed h.wellFormed _
  | .object h => wellFormed_bracketed h.wellFormed _

theorem Items.wellFormed {ls : List Lexeme} : Items ls → ∀ l ∈ ls, l.WellFormed
  | .last h => h.wellFormed
  | .more h hrest => wellFormed_comma h.wellFormed hrest.wellFormed

theorem Members.wellFormed {ls : List Lexeme} : Members ls → ∀ l ∈ ls, l.WellFormed
  | .last hname h => wellFormed_member hname h.wellFormed
  | .more hname h hrest =>
    wellFormed_member hname (wellFormed_comma h.wellFormed hrest.wellFormed)

end

end LoopClosure.Json
