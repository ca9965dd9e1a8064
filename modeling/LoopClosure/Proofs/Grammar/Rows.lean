import LoopClosure.Proofs.Grammar.Ensures
import LoopClosure.Proofs.Syntax.Spelling

/-!
# Rows of subtrees

A reader of a nonterminal reads a well-formed tree from the current token up to the end of the token
read last (`Reads`). A rule reads its subtrees one after the other: they form a row between a mark
and the end of that token (`Row`), and a node over a whole row is a well-formed tree again
(`Row.spans`). The tokens of all of them are among those that the track has passed.
-/

namespace LoopClosure.Grammar

open Syntax Token

variable {cs : List Char} {D E : Nat} {c : Context} {s s₀ s' : Track} {t : Tree}
  {ts us : List Tree} {form : Form Tree}

/-- The track in front of a token of a text. -/
structure Track.Ready (cs : List Char) (s : Track) : Prop where
  lexed : Lexed cs s.past s.lexer
  prevStop : s.prevStop ≤ s.here
  edge : Text.isBoundary cs s.prevStop = true
  ends : s.prevStop = (opening cs).offset ∨ ∃ k ∈ s.past, k.stop = s.prevStop
  settled : ∀ k ∈ s.past, k.stop ≤ s.prevStop

theorem Track.Ready.lexer (h : s.Ready cs) : s.lexer.Ready := h.lexed.ready

theorem Track.Ready.reach (h : s.Ready cs) : Text.Cursor.Reach (.ofText cs) s.lexer.start :=
  h.lexed.reach

theorem Track.Ready.advance (h : s.Ready cs) (hk : s.kind ≠ .endOfFile) : s.advance.Ready cs where
  lexed := h.lexed.next hk
  prevStop := s.lexer.scan_ready.2.le
  edge := (h.reach.trans h.lexer.reach).isBoundary
  ends := .inr ⟨s.lexer.lexeme, List.mem_append_right _ List.mem_cons_self, rfl⟩
  settled k hmem := by
    rcases List.mem_append.1 hmem with hmem | hmem
    · exact Nat.le_trans (h.lexed.ordered.2 k hmem).2 h.lexer.reach.le
    · exact List.mem_singleton.1 hmem ▸ Nat.le_refl _

theorem Track.Ready.prevStop_le (h : s.Ready cs) : s.prevStop ≤ Text.size cs :=
  Text.isBoundary_le h.edge

/-- Within the spelling of the token all is between characters. -/
theorem Track.Ready.isBoundary_add {k : Nat} (h : s.Ready cs) (hk : s.kind.isFixed = true)
    (hle : k ≤ s.kind.chars.length) : Text.isBoundary cs (s.here + k) = true := by
  obtain ⟨rest, hrest, -⟩ := h.lexer.spelled hk
  exact h.reach.isBoundary_add hrest (Kind.utf8Size_chars hk) hle

theorem Track.Ready.prevStop_advance (h : s.Ready cs) (hk : s.kind.isFixed = true) :
    s.advance.prevStop = s.here + s.kind.chars.length := by
  obtain ⟨-, -, hoffset⟩ := h.lexer.spelled hk
  exact hoffset

theorem Track.Ready.here_lt (h : s.Ready cs) (hk : s.kind ≠ .endOfFile) :
    s.here < s.advance.prevStop :=
  h.lexer.lt hk

theorem Track.here_le_advance (h : s.Ready cs) : s.here ≤ s.advance.here :=
  Nat.le_trans h.lexer.reach.le s.lexer.scan_ready.2.le

theorem Track.prevStop_le_advance (h : s.Ready cs) : s.prevStop ≤ s.advance.prevStop :=
  Nat.le_trans h.prevStop h.lexer.reach.le

theorem Track.Same.here (hs : s.Same s') : s'.here = s.here :=
  congrArg Text.Cursor.offset hs.start

theorem Track.Same.ready (hs : s.Same s') (h : s.Ready cs) : s'.Ready cs where
  lexed := hs.past ▸ h.lexed.same hs.start hs.cursor hs.kind hs.value
  prevStop := by
    rw [hs.prevStop, hs.here]
    exact h.prevStop
  edge := hs.prevStop ▸ h.edge
  ends := by
    rw [hs.prevStop, hs.past]
    exact h.ends
  settled := by
    rw [hs.prevStop, hs.past]
    exact h.settled

/-- Between two tracks the current token of the first and the end of a token lie. -/
theorem Track.Leads.tokens (h : s.Leads s') (hs : s.Ready cs) (hs' : s'.Ready cs)
    (hlt : s.here < s'.prevStop) :
    (∃ k ∈ s'.past, k.start = s.here) ∧ ∃ k ∈ s'.past, k.stop = s'.prevStop := by
  have hle := hs.prevStop
  have hopening : (opening cs).offset ≤ s.here := hs.lexed.reach_start.le
  refine ⟨h.passed.resolve_left fun hnone => ?_, hs'.ends.resolve_left fun hnone => ?_⟩
  · omega
  · omega

/-- An offset, and the track from which what stands behind it is read. -/
structure Mark where
  track : Track
  offset : Nat

def Track.mark (s : Track) : Mark := ⟨s, s.here⟩

namespace Mark

instance : HAdd Mark Nat Mark := ⟨fun a k => ⟨a.track, a.offset + k⟩⟩

@[simp] theorem offset_mark (s : Track) : s.mark.offset = s.here := rfl

@[simp] theorem offset_add (a : Mark) (k : Nat) : (a + k).offset = a.offset + k := rfl

@[simp] theorem track_mark (s : Track) : s.mark.track = s := rfl

@[simp] theorem track_add (a : Mark) (k : Nat) : (a + k).track = a.track := rfl

end Mark

variable {a : Mark}

/-- A track at or behind a mark. -/
structure From (cs : List Char) (a : Mark) (s : Track) : Prop where
  ready : s.Ready cs
  leads : a.track.Leads s
  le : a.offset ≤ s.here

theorem From.of (h : s.Ready cs) : From cs s.mark s := ⟨h, .refl s, Nat.le_refl _⟩

theorem From.stable : Stable (From cs a) where
  advance h hk := ⟨h.ready.advance hk, h.leads.trans (Track.leads_advance _),
    Nat.le_trans h.le (Track.here_le_advance h.ready)⟩
  same h hs := ⟨hs.ready h.ready, h.leads.trans hs.leads, hs.here ▸ h.le⟩

/-! ## Trees -/

/-- A tree read from the track `s₀` on, with `s` behind it, and no statement deeper in it than
`D`. -/
structure Spans (cs : List Char) (D : Nat) (s₀ : Track) (t : Tree) (s : Track) : Prop where
  ready : s.Ready cs
  leads : s₀.Leads s
  start : t.start = s₀.here
  stop : t.stop = s.prevStop
  lt : s₀.here < s.prevStop
  wellFormed : t.WellFormed
  read : t.Read cs s.past
  depth : t.statementDepth ≤ D

/-- The reader brings well-formed trees. -/
def Reads (cs : List Char) (D : Nat) (p : Parse Tree) (c : Context) : Prop :=
  ∀ s, s.Ready cs → Ensures p c s (Spans cs D s)

theorem Spans.deepen (h : Spans cs D s₀ t s) (hle : D ≤ E) : Spans cs E s₀ t s :=
  { h with depth := Nat.le_trans h.depth hle }

theorem Ensures.deepen {p : Parse Tree} (h : Ensures p c s (Spans cs D s₀)) (hle : D ≤ E) :
    Ensures p c s (Spans cs E s₀) :=
  h.mono fun _ _ ht => ht.deepen hle

theorem Reads.deepen {p : Parse Tree} (h : Reads cs D p c) (hle : D ≤ E) : Reads cs E p c :=
  fun s hs => (h s hs).deepen hle

/-- A tree read after looking ahead. -/
theorem Ensures.after {p : Parse Tree} (h : Ensures p c s' (Spans cs D s')) (hsame : s.Same s') :
    Ensures p c s' (Spans cs D s) :=
  h.mono fun _ _ ht =>
    { ht with
      leads := hsame.leads.trans ht.leads
      start := ht.start.trans hsame.here
      lt := hsame.here ▸ ht.lt }

theorem Reads.after {p : Parse Tree} (h : Reads cs D p c) (hs : s.Ready cs) (hsame : s.Same s') :
    Ensures p c s' (Spans cs D s) :=
  (h s' (hsame.ready hs)).after hsame

/-! ## Rows -/

/-- Subtrees from the mark `a` up to the token in front of the track `s`. -/
structure Row (cs : List Char) (D : Nat) (a : Mark) (s : Track) (ts : List Tree) : Prop where
  ready : s.Ready cs
  leads : a.track.Leads s
  spread : Tree.Spread a.offset s.prevStop ts
  kids : ∀ t ∈ ts, t.WellFormed
  reads : ∀ t ∈ ts, t.Read cs s.past
  depth : Tree.statementDepths ts ≤ D

theorem Spread.mono {a b b' : Nat} (h : Tree.Spread a b ts) (hle : b ≤ b') :
    Tree.Spread a b' ts := by
  induction ts generalizing a with
  | nil => exact Nat.le_trans h hle
  | cons t ts ih => exact ⟨h.1, h.2.1, ih h.2.2⟩

theorem Spread.append {a b b' : Nat} (h : Tree.Spread a b ts) (h' : Tree.Spread b b' us) :
    Tree.Spread a b' (ts ++ us) := by
  induction ts generalizing a with
  | nil =>
    cases us with
    | nil => exact Nat.le_trans h h'
    | cons u us => exact ⟨Nat.le_trans h h'.1, h'.2⟩
  | cons t ts ih => exact ⟨h.1, h.2.1, ih h.2.2⟩

theorem Spread.mono_left {a a' b : Nat} (h : Tree.Spread a b ts) (hle : a' ≤ a) :
    Tree.Spread a' b ts := by
  cases ts with
  | nil => exact Nat.le_trans hle h
  | cons t ts => exact ⟨Nat.le_trans hle h.1, h.2⟩

theorem Spread.left {a b : Nat} (h : Tree.Spread a b (ts ++ us)) : Tree.Spread a b ts := by
  induction ts generalizing a with
  | nil => exact h.le
  | cons t ts ih => exact ⟨h.1, h.2.1, ih h.2.2⟩

theorem statementDepths_append (ts us : List Tree) :
    Tree.statementDepths (ts ++ us) = max (Tree.statementDepths ts) (Tree.statementDepths us) := by
  induction ts with
  | nil => simp [Tree.statementDepths]
  | cons t ts ih => rw [List.cons_append, Tree.statementDepths, ih, Tree.statementDepths, Nat.max_assoc]

theorem Row.stable : Stable fun s => Row cs D a s ts where
  advance {s} h hk :=
    { h with
      ready := h.ready.advance hk
      leads := h.leads.trans s.leads_advance
      spread := Spread.mono h.spread (Track.prevStop_le_advance h.ready)
      reads := fun t ht => (h.reads t ht).mono s.leads_advance.kept }
  same h hs :=
    { h with
      ready := hs.ready h.ready
      leads := h.leads.trans hs.leads
      spread := hs.prevStop ▸ h.spread
      reads := hs.past ▸ h.reads }

/-- The first token is no subtree. -/
theorem Row.token (h : From cs a s) (hk : s.kind ≠ .endOfFile) : Row cs D (a + 1) s.advance [] where
  ready := h.ready.advance hk
  leads := h.leads.trans s.leads_advance
  spread := Nat.lt_of_le_of_lt h.le (h.ready.here_lt hk)
  kids := fun _ ht => absurd ht List.not_mem_nil
  reads := fun _ ht => absurd ht List.not_mem_nil
  depth := Nat.zero_le _

/-- The first token is a word, which is as long as its spelling. -/
theorem Row.word {k : Keyword} (h : From cs a s) (hk : s.kind = .word k) :
    Row cs D (a + k.chars.length) s.advance [] where
  ready := h.ready.advance (by simp [hk])
  leads := h.leads.trans s.leads_advance
  spread := by
    have hfixed : s.kind.isFixed = true := by rw [hk]; rfl
    have hlen : s.kind.chars.length = k.chars.length := by rw [hk]; rfl
    rw [h.ready.prevStop_advance hfixed, hlen, Mark.offset_add]
    exact Nat.add_le_add_right h.le _
  kids := fun _ ht => absurd ht List.not_mem_nil
  reads := fun _ ht => absurd ht List.not_mem_nil
  depth := Nat.zero_le _

/-- A row begins with a tree. -/
theorem Spans.row (h : Spans cs D s₀ t s) (h₀ : From cs a s₀) : Row cs D a s [t] where
  ready := h.ready
  leads := h₀.leads.trans h.leads
  spread := ⟨h.start ▸ h₀.le, by rw [h.start, h.stop]; exact h.lt, Nat.le_of_eq h.stop⟩
  kids := by simpa using h.wellFormed
  reads := by simpa using h.read
  depth := by simpa [Tree.statementDepths] using h.depth

theorem Row.append (h : Row cs D a s₀ ts) (h' : Row cs D s₀.mark s us) : Row cs D a s (ts ++ us) where
  ready := h'.ready
  leads := h.leads.trans h'.leads
  spread := Spread.append h.spread (Spread.mono_left h'.spread h.ready.prevStop)
  kids t ht := (List.mem_append.1 ht).elim (h.kids t) (h'.kids t)
  reads t ht := (List.mem_append.1 ht).elim (fun ht => (h.reads t ht).mono h'.leads.kept) (h'.reads t)
  depth := by
    rw [statementDepths_append]
    exact Nat.max_le.2 ⟨h.depth, h'.depth⟩

theorem Row.widen {k : Nat} (h : Row cs D (a + k) s ts) : Row cs D a s ts :=
  { h with
    spread := Spread.mono_left h.spread (by rw [Mark.offset_add]; exact Nat.le_add_right _ _) }

theorem Row.deepen (h : Row cs D a s ts) (hle : D ≤ E) : Row cs E a s ts :=
  { h with depth := Nat.le_trans h.depth hle }

/-- One more tree. -/
theorem Row.read {p : Parse Tree} (h : Row cs D a s ts) (hp : Reads cs D p c) :
    Ensures p c s fun t s' => Row cs D a s' (ts ++ [t]) :=
  (hp s h.ready).mono fun _ _ ht => h.append (ht.row (.of h.ready))

/-- One more tree, an expression. -/
theorem Row.readExpression {p : Parse Tree} (h : Row cs D a s ts) (hp : Reads cs 0 p c) :
    Ensures p c s fun t s' => Row cs D a s' (ts ++ [t]) ∧ t.statementDepth = 0 :=
  (hp s h.ready).mono fun _ _ ht =>
    ⟨h.append ((ht.deepen (Nat.zero_le D)).row (.of h.ready)), Nat.le_zero.1 ht.depth⟩

/-- A tree that a test announces. -/
theorem Row.optional {α : Type} {test : Parse Bool} {p : Parse Tree} {g : Option Tree → Parse α}
    {Q : α → Track → Prop} (htest : Ensures test c s fun _ s' => Row cs D a s' ts)
    (hp : Reads cs D p c) (hg : ∀ o s', Row cs D a s' (ts ++ o.toList) → Ensures (g o) c s' Q) :
    Ensures (test >>= fun b => if b = true then (some <$> p) >>= g else pure none >>= g) c s Q :=
  .optional htest (fun _ h => h.read hp) (fun _ h => by simpa using h) hg

/-! ## Nodes -/

/-- What the form of a node has to agree with: statements lie no deeper than `D` in its children,
and no deeper than `E` in the node. -/
structure Nests (D E : Nat) (form : Form Tree) : Prop where
  named : ∀ name, form = .identifier name → name ≠ ""
  closed : form.isSealed = true → D = 0
  labels : form.isJump = true → ∀ t ∈ form.children, t.IsName
  first : ∀ t, form.loopStart? = some t → t.IsStart
  expressions : ∀ t ∈ form.loopExpressions, t.statementDepth = 0
  parts : Tree.Parts form.number form.children
  depth : form.isFunction = true ∨ form.isStatement = false ∧ D = 0 ∨ D < E
  le : E ≤ Tree.maxStatementDepth

/-- Its children may also fill the node, but for a first token; it spells nothing. -/
structure Fits (D E : Nat) (form : Form Tree) : Prop extends Nests D E form where
  lead : form.lead ≤ 1
  opening : form.opening = 0
  trail : form.trail = 0
  long : form.isShort = false
  unspelled : form.spelling? = none
  inner : form.isProgram = false

/-- No program, name, literal, class, jump or block, nothing that binds, and no property in short
form. -/
def isPlain : Form Tree → Bool
  | .program .. | .identifier _ | .literal .. | .classBody .. | .jump .. | .block _ => false
  | .bindings .. | .declarator .. | .function .. | .catchClause .. => false
  | .property _ _ _ traits => !traits.shorthand
  | _ => true

theorem parts_of_not_isBinder (h : form.isBinder = false) :
    Tree.Parts form.number form.children :=
  .of_not_isBinder (Form.isBinder_number.trans h)

theorem parts_of_isPlain (h : isPlain form = true) : Tree.Parts form.number form.children :=
  parts_of_not_isBinder (by cases form <;> first | rfl | cases h)

theorem isJump_of_isPlain (h : isPlain form = true) : form.isJump = false := by
  cases form <;> first | rfl | cases h

/-- Neither a name nor a jump, and not sealed. -/
theorem Nests.deeper (hn : ∀ name, form ≠ .identifier name) (hc : form.isSealed = false)
    (hj : form.isJump = false) (hfirst : ∀ t, form.loopStart? = some t → t.IsStart)
    (hexpressions : ∀ t ∈ form.loopExpressions, t.statementDepth = 0)
    (hparts : Tree.Parts form.number form.children) (hlt : D < E)
    (hle : E ≤ Tree.maxStatementDepth) : Nests D E form where
  named name hform := absurd hform (hn name)
  closed hsealed := absurd hsealed (Bool.eq_false_iff.1 hc)
  labels hjump := absurd hjump (Bool.eq_false_iff.1 hj)
  first := hfirst
  expressions := hexpressions
  parts := hparts
  depth := .inr (.inr hlt)
  le := hle

/-- A node that is no loop and has expressions for children. -/
theorem Nests.flat (hn : ∀ name, form = .identifier name → name ≠ "") (hl : form.isLoop = false)
    (hj : form.isJump = true → ∀ t ∈ form.children, t.IsName)
    (hparts : Tree.Parts form.number form.children)
    (hs : form.isStatement = true → 0 < E) (hle : E ≤ Tree.maxStatementDepth) : Nests 0 E form where
  named := hn
  closed _ := rfl
  labels := hj
  first t ht := by
    rw [Form.loopStart?_of_not_isLoop hl] at ht
    cases ht
  expressions t ht := by
    rw [Form.loopExpressions_of_not_isLoop hl] at ht
    cases ht
  parts := hparts
  depth := by
    cases h : form.isStatement with
    | true => exact .inr (.inr (hs h))
    | false => exact .inr (.inl ⟨rfl, rfl⟩)
  le := hle

theorem Nests.fits (h : Nests D E form) (hplain : isPlain form = true) : Fits D E form where
  toNests := h
  lead := by cases form <;> first | exact Nat.zero_le _ | exact Nat.le_refl _ | cases hplain
  opening := by cases form <;> first | rfl | cases hplain
  trail := by cases form <;> first | rfl | cases hplain
  long := by cases form <;> first | rfl | simpa [isPlain, Form.isShort] using hplain
  unspelled := by cases form <;> first | rfl | cases hplain
  inner := by cases form <;> first | rfl | cases hplain

theorem Fits.deeper (h : isPlain form = true) (hc : form.isSealed = false)
    (hl : form.isLoop = false) (hlt : D < E) (hle : E ≤ Tree.maxStatementDepth) : Fits D E form := by
  refine Nests.fits (.deeper (fun _ hform => ?_) hc (isJump_of_isPlain h) (fun t ht => ?_)
    (fun t ht => ?_) (parts_of_isPlain h) hlt hle) h
  · rw [hform] at h
    cases h
  · rw [Form.loopStart?_of_not_isLoop hl] at ht
    cases ht
  · rw [Form.loopExpressions_of_not_isLoop hl] at ht
    cases ht

theorem Fits.loop (hl : form.isLoop = true) (hfirst : ∀ t, form.loopStart? = some t → t.IsStart)
    (hexpressions : ∀ t ∈ form.loopExpressions, t.statementDepth = 0) (hlt : D < E)
    (hle : E ≤ Tree.maxStatementDepth) : Fits D E form := by
  have hplain : isPlain form = true := by
    cases form <;> first | rfl | cases hl
  refine Nests.fits (.deeper (fun _ hform => ?_) ?_ ?_ hfirst hexpressions
    (parts_of_isPlain hplain) hlt hle) hplain
  · rw [hform] at hl
    cases hl
  · cases form <;> first | rfl | cases hl
  · exact isJump_of_isPlain hplain

theorem Fits.flat (h : isPlain form = true) (hl : form.isLoop = false)
    (hs : form.isStatement = true → 0 < E) (hle : E ≤ Tree.maxStatementDepth) : Fits 0 E form :=
  Nests.fits (.flat (fun _ hform => by rw [hform] at h; cases h) hl
    (fun hjump => absurd hjump (Bool.eq_false_iff.1 (isJump_of_isPlain h))) (parts_of_isPlain h) hs
    hle) h

/-- A form of an expression. -/
def isExpression (form : Form Tree) : Bool := isPlain form && !form.isStatement

theorem Fits.plain (h : isExpression form = true) : Fits 0 0 form := by
  obtain ⟨hplain, hs⟩ := Bool.and_eq_true_iff.1 h
  rw [Bool.not_eq_true'] at hs
  refine .flat hplain ?_ (fun hs' => absurd hs' (Bool.eq_false_iff.1 hs)) (Nat.zero_le _)
  cases form <;> first | rfl | cases hs

/-- A statement over expressions. -/
theorem Fits.leaf (h : isPlain form = true) (hl : form.isLoop = false) : Fits 0 1 form :=
  .flat h hl (fun _ => Nat.zero_lt_one) (Nat.le_add_left 1 3002)

theorem Nests.statementDepth_le (h : Nests D E form) {start stop : Nat}
    (hts : Tree.statementDepths form.children ≤ D) : (Tree.ofForm start stop form).statementDepth ≤ E := by
  rw [Tree.ofForm, Tree.statementDepth, Form.isFunction_number, Form.isStatement_number]
  split
  · exact Nat.zero_le _
  · next hfunction =>
    rcases h.depth with hf | ⟨hs, hD⟩ | hlt
    · exact absurd hf hfunction
    · have hzero : Tree.statementDepths form.children = 0 := Nat.le_zero.1 (hD ▸ hts)
      rw [hs, hzero, if_neg (by simp)]
      exact Nat.zero_le _
    · split
      · exact Nat.lt_of_le_of_lt hts hlt
      · exact Nat.zero_le _

/-- A node over well-formed children. -/
theorem Nests.wellFormed (h : Nests D E form) {start stop : Nat}
    (hplaced : Tree.Placed start stop form.number form.children)
    (hkids : ∀ t ∈ form.children, t.WellFormed) (hdepth : Tree.statementDepths form.children ≤ D) :
    (Tree.ofForm start stop form).WellFormed := by
  refine .node (Form.children_number form) hplaced ?_ ?_ ?_ ?_ ?_ ?_ h.parts hkids
  · exact fun name hname => h.named name (Form.number_eq_identifier_iff.1 hname)
  · exact Nat.le_trans (h.statementDepth_le hdepth) h.le
  · intro hsealed
    rw [Form.isSealed_number] at hsealed
    exact Nat.le_zero.1 (h.closed hsealed ▸ hdepth)
  · rw [Form.isJump_number]
    exact h.labels
  · exact fun k t hk ht => h.first t (Form.loopStart?_number hk ht)
  · exact fun k t hk ht => h.expressions t (Form.mem_loopExpressions_number hk ht)

theorem finish_eq {start : Nat} :
    Runs (finish start form) c s (.ofForm start (max s.prevStop start) form) s := .look rfl

theorem Form.opening_of_isBlock {α : Type} {form : Form α} (h : form.isBlock = true) :
    form.opening = 1 := by
  cases form <;> first | rfl | cases h

theorem Tree.read_ofForm {ks : List Lexeme} {start stop : Nat} (h : form.ReadAt cs ks start stop)
    (hkids : ∀ t ∈ form.children, t.Read cs ks)
    (hblock : form.opening = 1 → Tree.DeclaredAt cs (start + 1) form.children) :
    (Tree.ofForm start stop form).Read cs ks := by
  refine .node ⟨⟨h.front, h.back, ?_, ?_⟩, h.begins, h.ends, ?_, Form.isProgram_number.trans h.inner⟩
    hkids fun hnumber => hblock (Form.opening_number ▸ Form.opening_of_isBlock hnumber)
  · rw [Form.opening_number]
    exact h.opening
  · rw [Form.trail_number]
    exact h.closing
  · rw [Form.spelling?_number]
    exact h.spelled

/-- A node over subtrees, the last of which ends in front of a track `s'`. -/
theorem Row.encloses {s' : Track} {k : Nat} (h : Row cs D (s₀.mark + k) s' form.children)
    (hs₀ : s₀.Ready cs) (hready : s.Ready cs) (hleads : s'.Leads s) (hnest : Nests D E form)
    (hlong : form.isShort = false) (hk : form.lead ≤ k)
    (hs : s'.prevStop + form.trail ≤ s.prevStop) (hlt : s₀.here < s.prevStop)
    (hedges : form.EdgedAt cs s₀.here s.prevStop)
    (hspelled : ∀ text, form.spelling? = some text →
      Text.slice? cs s₀.here s.prevStop = some text.toList) (hinner : form.isProgram = false)
    (hblock : form.opening = 1 → Tree.DeclaredAt cs (s₀.here + 1) form.children) :
    Spans cs E s₀ (.ofForm s₀.here (max s.prevStop s₀.here) form) s := by
  have hstop : max s.prevStop s₀.here = s.prevStop := Nat.max_eq_left (Nat.le_of_lt hlt)
  have hplaced : Tree.Placed s₀.here s.prevStop form.number form.children := by
    refine .spread (Form.isShort_number.trans hlong) ?_
    rw [Form.lead_number, Form.trail_number]
    have hlead : s₀.here + form.lead ≤ (s₀.mark + k).offset := by
      rw [Mark.offset_add]
      exact Nat.add_le_add_left hk _
    exact Spread.mono (Spread.mono_left h.spread hlead) (Nat.le_sub_of_add_le hs)
  have hall : s₀.Leads s := h.leads.trans hleads
  obtain ⟨hbegins, hends⟩ := hall.tokens hs₀ hready hlt
  rw [hstop]
  exact ⟨hready, hall, rfl, rfl, hlt, hnest.wellFormed hplaced h.kids h.depth,
    Tree.read_ofForm ⟨hedges, hbegins, hends, hspelled, hinner⟩
      (fun t ht => (h.reads t ht).mono hleads.kept) hblock,
    hnest.statementDepth_le h.depth⟩

/-- A node over a whole row. -/
theorem Row.spans {k : Nat} (h : Row cs D (s₀.mark + k) s form.children) (hs : s₀.Ready cs)
    (hfit : Fits D E form) (hk : form.lead ≤ k) (hlt : s₀.here < s.prevStop) :
    Spans cs E s₀ (.ofForm s₀.here (max s.prevStop s₀.here) form) s :=
  h.encloses hs h.ready (.refl s) hfit.toNests hfit.long hk
    (by rw [hfit.trail]; exact Nat.le_refl _) hlt
    (.of_plain hs.reach.isBoundary h.ready.edge hfit.opening hfit.trail)
    (by simp [hfit.unspelled]) hfit.inner (by simp [hfit.opening])

/-- A node for the current token, which spells it. -/
theorem spans_token (hs : s.Ready cs) (hk : s.kind ≠ .endOfFile) (hchildren : form.children = [])
    (hspelling : form.spelling? = some s.lexer.value) (hnest : Nests 0 0 form) :
    Spans cs 0 s (.ofForm s.here (max s.advance.prevStop s.here) form) s.advance := by
  have row : Row cs 0 (s.mark + 1) s.advance form.children := by
    rw [hchildren]
    exact .token (.of hs) hk
  obtain ⟨hlead, hopening, htrail, hlong, hinner⟩ : form.lead = 0 ∧ form.opening = 0 ∧
      form.trail = 0 ∧ form.isShort = false ∧ form.isProgram = false := by
    cases form <;> first | exact ⟨rfl, rfl, rfl, rfl, rfl⟩ | cases hspelling
  refine row.encloses hs row.ready (.refl _) hnest hlong (hlead ▸ Nat.zero_le _)
    (htrail ▸ Nat.le_refl _) (hs.here_lt hk)
    (.of_plain hs.reach.isBoundary row.ready.edge hopening htrail) (fun text htext => ?_) hinner
    (by simp [hopening])
  rw [hspelling, Option.some.injEq] at htext
  exact htext ▸ hs.lexed.slice_eq hk

/-- A node that begins with a token of its own. -/
theorem Row.finish_token (h : Row cs D (s₀.mark + 1) s form.children) (hs : s₀.Ready cs)
    (hfit : Fits D E form) : Ensures (finish s₀.here form) c s (Spans cs E s₀) :=
  .done finish_eq <| h.spans hs hfit hfit.lead h.spread.le

theorem Row.lt (h : Row cs D a s ts) (hne : ts ≠ []) : a.offset < s.prevStop := by
  obtain ⟨t, ht⟩ := List.exists_mem_of_ne_nil _ hne
  have := h.spread.of_mem ht
  omega

/-- A node that begins with its first child. -/
theorem Row.finish_child (h : Row cs D s₀.mark s form.children) (hs : s₀.Ready cs)
    (hfit : Fits D E form) (hlead : form.lead = 0) (hne : form.children ≠ []) :
    Ensures (finish s₀.here form) c s (Spans cs E s₀) :=
  .done finish_eq <| Row.spans (k := 0) h hs hfit (Nat.le_of_eq hlead) (h.lt hne)

/-- A property in short form. -/
theorem Row.finish_short {key value : Tree} {role : PropertyRole} (hs : s₀.Ready cs)
    (hkey : Row cs 0 s₀.mark s [key]) (hvalue : Row cs 0 s₀.mark s [value]) (hname : key.IsName)
    (hshort : key.IsShort value) :
    Ensures (finish s₀.here (.property key value role { shorthand := true })) c s
      (Spans cs 0 s₀) := by
  refine .done finish_eq ?_
  have hlt := hkey.lt (by simp)
  have hstop : max s.prevStop s₀.here = s.prevStop := Nat.max_eq_left (Nat.le_of_lt hlt)
  have hnest : Nests 0 0 (Form.property key value role { shorthand := true }) :=
    .flat (fun _ h => nomatch h) rfl (fun h => nomatch h) (parts_of_not_isBinder rfl)
      (fun h => nomatch h) (Nat.zero_le _)
  have hkids : ∀ t ∈ [key, value], t.WellFormed := by
    simpa using ⟨hkey.kids key (by simp), hvalue.kids value (by simp)⟩
  have hdepth : Tree.statementDepths ([key] ++ [value]) ≤ 0 := by
    rw [statementDepths_append]
    exact Nat.max_le.2 ⟨hkey.depth, hvalue.depth⟩
  have hreads : ∀ t ∈ [key, value], t.Read cs s.past := by
    simpa using ⟨hkey.reads key (by simp), hvalue.reads value (by simp)⟩
  obtain ⟨hbegins, hends⟩ := hkey.leads.tokens hs hkey.ready hlt
  rw [hstop]
  exact ⟨hkey.ready, hkey.leads, rfl, rfl, hlt,
    hnest.wellFormed (.short rfl rfl hname hkey.spread hvalue.spread hshort) hkids hdepth,
    Tree.read_ofForm ⟨.of_plain hs.reach.isBoundary hkey.ready.edge rfl rfl, hbegins, hends, nofun,
      rfl⟩ hreads nofun,
    hnest.statementDepth_le hdepth⟩

theorem Row.left (h : Row cs D a s (ts ++ us)) : Row cs D a s ts where
  ready := h.ready
  leads := h.leads
  spread := Spread.left h.spread
  kids t ht := h.kids t (List.mem_append_left _ ht)
  reads t ht := h.reads t (List.mem_append_left _ ht)
  depth := (Nat.max_le.1 (statementDepths_append ts us ▸ h.depth)).1

/-- A property in short form with a default. -/
theorem Row.finish_default {key value : Tree} {role : PropertyRole}
    (h : Row cs 0 s₀.mark s form.children) (hs : s₀.Ready cs) (hform : isExpression form = true)
    (hlead : form.lead = 0) (hchildren : form.children = [key] ++ [value])
    (hname : key.IsName)
    (hshort : key.stop ≤ value.start → ∀ start stop, key.IsShort (.ofForm start stop form)) :
    Ensures (finish s₀.here form >>= fun v =>
      finish s₀.here (.property key v role { shorthand := true })) c s (Spans cs 0 s₀) := by
  have hvalue := Row.spans (k := 0) h hs (.plain hform) (Nat.le_of_eq hlead)
    (h.lt (by simp [hchildren]))
  rw [hchildren] at h
  refine .step finish_eq (Row.finish_short hs h.left (hvalue.row (.of hs)) hname ?_)
  obtain ⟨-, -, hle, -⟩ := h.spread
  exact hshort hle _ _

/-- The range of a node reaches further behind its children. -/
theorem Row.withRange (h : Row cs D s₀.mark s [t]) (hs : s₀.Ready cs) (hstart : t.start = s₀.here)
    (htrail : t.form.trail = 0) (hspelling : t.form.spelling? = none) :
    Spans cs D s₀ (t.withRange s₀.here s.prevStop) s := by
  cases t with
  | node start stop f kids =>
    obtain rfl : start = s₀.here := hstart
    obtain ⟨-, hlt, hle⟩ := h.spread
    have hwf := h.kids _ List.mem_cons_self
    have hread := h.reads _ List.mem_cons_self
    have hdepth : (Syntax.Tree.node s₀.here stop f kids).statementDepth ≤ D := by
      simpa [Tree.statementDepths] using h.depth
    have hlt : s₀.here < s.prevStop := Nat.lt_of_lt_of_le hlt hle
    refine ⟨h.ready, h.leads, rfl, rfl, hlt, ?_, ?_, ?_⟩
    · cases hwf with
      | node children placed named shallow closed labels first expressions parts kids =>
        refine .node children ?_ named ?_ closed labels first expressions parts kids
        · cases placed with
          | spread hlong hs => exact .spread hlong (Spread.mono hs (Nat.sub_le_sub_right hle _))
          | short hform hcomputed hname hkey hvalue hshort =>
            exact .short hform hcomputed hname (Spread.mono hkey hle) (Spread.mono hvalue hle) hshort
        · simpa [Tree.statementDepth] using shallow
    · have hclosing : s.prevStop - f.trail = s.prevStop := by
        rw [show f.trail = 0 from htrail, Nat.sub_zero]
      obtain ⟨hbegins, hends⟩ := h.leads.tokens hs h.ready hlt
      cases hread with
      | node read kids block =>
        refine .node ⟨⟨read.front, h.ready.edge, read.opening, ?_⟩, hbegins, hends, ?_, read.inner⟩
          kids block
        · rw [hclosing]
          exact h.ready.edge
        · simp [show f.spelling? = none from hspelling]
    · simpa [Tree.withRange, Tree.statementDepth] using hdepth

/-! ## Declarations in front -/

/-- What begins with `var` is read as a declaration. -/
def Declares (p : Parse Tree) (c : Context) : Prop :=
  ∀ s : Track, s.kind = .word .kVar → Ensures p c s fun t _ => t.form.isBindings = true

theorem Declares.nested {p : Parse Tree} (h : ∀ c, Declares p c) : Declares (nested p) c := by
  intro s hvar t s' hr
  unfold Grammar.nested at hr
  split at hr
  · exact h _ s hvar t s' hr
  · cases hr

/-- If the statements begin with `var`, the first of them, once it is read, is a declaration. -/
def Opened (s₀ : Track) (ts : List Tree) (s : Track) : Prop :=
  s₀.kind = .word .kVar → (ts = [] ∧ s.kind = s₀.kind) ∨
    ∃ t us, ts = t :: us ∧ t.form.isBindings = true

theorem Opened.first : Opened s [] s := fun _ => .inl ⟨rfl, rfl⟩

theorem Row.readOpened {p : Parse Tree} (h : Row cs D a s ts) (ho : Opened s₀ ts s)
    (hp : Reads cs D p c) (hd : Declares p c) : Ensures p c s fun t s' =>
      Row cs D a s' (ts ++ [t]) ∧ Opened s₀ (ts ++ [t]) s' := by
  have hfirst (t : Tree) (s' : State) (hr : p c s.toState = .ok t s') (hvar : s₀.kind = .word .kVar) :
      ∃ u us, ts ++ [t] = u :: us ∧ u.form.isBindings = true := by
    rcases ho hvar with ⟨rfl, hkind⟩ | ⟨u, us, rfl, hu⟩
    · obtain ⟨-, -, ht⟩ := hd s (hkind.trans hvar) t s' hr
      exact ⟨t, [], rfl, ht⟩
    · exact ⟨u, us ++ [t], rfl, hu⟩
  exact ((h.read hp).and hfirst).mono fun _ _ ⟨row, hopened⟩ => ⟨row, fun hvar => .inr (hopened hvar)⟩

/-- Behind the end of the statements. -/
theorem Opened.closed (h : Opened s₀ ts s) (hkind : s.kind ≠ .word .kVar)
    (hvar : s₀.kind = .word .kVar) : ∃ t us, ts = t :: us ∧ t.form.isBindings = true :=
  (h hvar).resolve_left fun hnone => hkind (hnone.2.trans hvar)

/-- Where the text behind a token begins with `var`, that is the next token. -/
theorem Track.Ready.kind_advance (h : s.Ready cs) {rest : List Char}
    (hrest : Text.dropBytes? s.advance.prevStop cs = some ('v' :: 'a' :: 'r' :: ' ' :: rest)) :
    s.advance.kind = .word .kVar := by
  obtain ⟨as, hcs, hsize⟩ := (h.reach.trans h.lexer.reach).exists_passed
  have hcursor : s.lexer.cursor.rest = 'v' :: 'a' :: 'r' :: ' ' :: rest :=
    Option.some.inj ((Text.dropBytes?_eq_some_iff.2 ⟨as, hcs, hsize⟩).symm.trans hrest)
  exact Lexer.kind_scan_var hcursor

/-! ## Contexts -/

/-- How deep statements may lie in a statement here: three nodes for each level of nesting left. -/
def levels (c : Context) : Nat := 3 * (maxNesting - c.nesting)

theorem levels_le (c : Context) : levels c + 3 ≤ Tree.maxStatementDepth := by
  unfold levels maxNesting Tree.maxStatementDepth
  omega

theorem Reads.nested {p : Parse Tree}
    (h : c.nesting < maxNesting → Reads cs D p { c with nesting := c.nesting + 1 }) :
    Reads cs D (nested p) c := by
  intro s hs t s' hr
  unfold Grammar.nested at hr
  split at hr
  · next hlt => exact h hlt s hs t s' hr
  · cases hr

theorem Ensures.lift {p : Parse Tree} (h : Ensures p c s (Spans cs 0 s₀)) :
    Ensures p c s (Spans cs D s₀) :=
  h.deepen (Nat.zero_le D)

theorem Reads.lift {p : Parse Tree} (h : Reads cs 0 p c) : Reads cs D p c :=
  h.deepen (Nat.zero_le D)

/-- The readers of nonterminals bring well-formed trees. -/
structure Sound (cs : List Char) (rules : Rules) : Prop where
  statement (c : Context) : Reads cs (levels c) (rules .statement) c
  assignment (c : Context) : Reads cs 0 (rules .assignment) c
  unary (c : Context) : Reads cs 0 (rules .unary) c
  binary (c : Context) (above : Nat) : Reads cs 0 (rules (.binary above)) c
  leftHandSide (c : Context) : Reads cs 0 (rules .leftHandSide) c
  new (c : Context) : Reads cs 0 (rules .new) c
  bindingTarget (c : Context) : Reads cs 0 (rules .bindingTarget) c
  bare : Yields (rules .bindingTarget) Tree.Bare
  declares (c : Context) : Declares (rules .statement) c

end LoopClosure.Grammar
