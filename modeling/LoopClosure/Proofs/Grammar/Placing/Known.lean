import LoopClosure.Proofs.Grammar.Expression
import LoopClosure.Proofs.Syntax.Reread

/-!
# Trees for a place

The context in which a rule reads is the place that its tree suits.

- `Known cs F s`: at the track `s` in the text `cs` it is settled that `F` holds of all tokens,
  whatever comes behind those that the track has passed. Later readers keep it (`Known.stable`,
  `Known.also`).
- `Brings cs q p c`: the reader `p` brings trees that suit the place `q`. A rule reads the subtrees
  of a node one after the other (`Known.read`) and puts them together (`Known.finish`).
- `isIdentifier_allows`: what is an identifier in a context may stand in its place.
-/

namespace LoopClosure.Grammar

open Syntax Token

/-- The place of an expression read in the context. -/
def Context.place (c : Context) : Place where
  noIn := c.noIn
  generator := c.generator
  async := c.async

/-- Settled by the tokens passed, whatever the others are. -/
structure Known (cs : List Char) (F : List Lexeme → Prop) (s : Track) : Prop where
  ready : s.Ready cs
  known : ∀ ks, s.past <+: ks → F ks

variable {α : Type} {cs : List Char} {F G : List Lexeme → Prop} {c : Context} {s s' : Track}
  {q q' : Place} {t : Tree} {ts : List Tree} {form : Form Tree} {p : Parse Tree}

namespace Known

theorem of (hs : s.Ready cs) : Known cs (fun _ => True) s := ⟨hs, fun _ _ => trivial⟩

theorem stable : Stable (Known cs F) where
  advance h hk := ⟨h.ready.advance hk, fun ks hks =>
    h.known ks ((Track.leads_advance _).grows.trans hks)⟩
  same h hs := ⟨hs.ready h.ready, fun ks hks => h.known ks (hs.past ▸ hks)⟩

theorem mono (h : Known cs F s) (hF : ∀ ks, F ks → G ks) : Known cs G s :=
  ⟨h.ready, fun ks hks => hF ks (h.known ks hks)⟩

theorem rescanTemplate (h : Known cs F s) : Known cs F (s.rescan Lexer.rescanTemplate) :=
  ⟨h.ready.rescan (Lexer.rescanTemplate_ready h.ready.lexer).2 h.ready.lexed.template, h.known⟩

/-- What was known is still known behind a reader. -/
theorem also {p : Parse α} {G : α → List Lexeme → Prop} (h : Known cs F s)
    (hp : Ensures p c s fun a s' => Known cs (G a) s') :
    Ensures p c s fun a s' => Known cs (fun ks => F ks ∧ G a ks) s' :=
  hp.leads.mono fun _ _ ⟨hleads, hG⟩ =>
    ⟨hG.ready, fun ks hks => ⟨h.known ks (hleads.grows.trans hks), hG.known ks hks⟩⟩

end Known

/-! ## Readers -/

/-- The reader brings trees that suit the place. -/
def Brings (cs : List Char) (q : Place) (p : Parse Tree) (c : Context) : Prop :=
  ∀ s, s.Ready cs → Ensures p c s fun t s' => Known cs (t.Suits · q) s'

/-- All trees that the reader brings suit the place. -/
def BringsAll (cs : List Char) (q : Place) (p : Parse (List Tree)) (c : Context) : Prop :=
  ∀ s, s.Ready cs → Ensures p c s fun ts s' => Known cs (fun ks => ∀ t ∈ ts, t.Suits ks q) s'

/-- The range of a tree reaches from the current token to the end of the one read last. -/
theorem Reads.ranged {D : Nat} (h : Reads cs D p c) (hs : s.Ready cs) (t : Tree) (s' : State)
    (hr : p c s.toState = .ok t s') :
    t.start = s.here ∧ t.stop = s'.prevStop ∧ s.here < s'.prevStop := by
  obtain ⟨past, -, hspans⟩ := h s hs t s' hr
  exact ⟨hspans.start, hspans.stop, hspans.lt⟩

theorem Brings.weaken (h : Brings cs q p c) (hq : q.Milder q') : Brings cs q' p c :=
  fun s hs => (h s hs).mono fun _ _ ht => ht.mono fun _ ht => ht.weaken hq

theorem Brings.after (h : Brings cs q p c) (hs : s.Ready cs) (hsame : s.Same s') :
    Ensures p c s' fun t s' => Known cs (t.Suits · q) s' := h s' (hsame.ready hs)

theorem Brings.withIn (h : Brings cs q p { c with noIn := false }) : Brings cs q (withIn p) c := h

theorem Brings.nested (h : Brings cs q p { c with nesting := c.nesting + 1 }) :
    Brings cs q (nested p) c := by
  intro s hs t s' hr
  unfold Grammar.nested at hr
  split at hr
  · exact h s hs t s' hr
  · cases hr

namespace Known

/-- One more tree. -/
theorem read (h : Known cs F s) (hp : Brings cs q p c) :
    Ensures p c s fun t s' => Known cs (fun ks => F ks ∧ t.Suits ks q) s' :=
  h.also (hp s h.ready)

/-- A list of trees. -/
theorem readAll {p : Parse (List Tree)} (h : Known cs F s) (hp : BringsAll cs q p c) :
    Ensures p c s fun ts s' => Known cs (fun ks => F ks ∧ ∀ t ∈ ts, t.Suits ks q) s' :=
  h.also (hp s h.ready)

/-- A tree that a test announces. -/
theorem optional {test : Parse Bool} {g : Option Tree → Parse α} {Q : α → Track → Prop}
    (htest : Ensures test c s fun _ s' => Known cs F s') (hp : Brings cs q p c)
    (hg : ∀ o s', Known cs (fun ks => F ks ∧ ∀ t ∈ Option.toList o, t.Suits ks q) s' →
      Ensures (g o) c s' Q) :
    Ensures (test >>= fun b => if b = true then (some <$> p) >>= g else pure none >>= g) c s Q :=
  .optional htest
    (fun _ h => (h.read hp).mono fun _ _ h => h.mono fun _ h => ⟨h.1, by simpa using h.2⟩)
    (fun _ h => h.mono fun _ h => ⟨h, by simp⟩) hg

/-- A node over subtrees that are known to suit their places. -/
theorem finish {start : Nat} (h : Known cs F s) (hform : q.admits form = true)
    (hoperator : ∀ op l r, form.number ≠ .binary op l r)
    (hkids : ∀ ks, F ks → Tree.AllSuit ks (q.into form) 0 form.children) :
    Ensures (finish start form) c s fun t s' => Known cs (t.Suits · q) s' :=
  .done finish_eq <| h.mono fun ks hF =>
    Tree.suits_ofForm.2 ⟨hform, Tree.operates_of_not_binary hoperator, hkids ks hF⟩

/-- A node for a token. -/
theorem leaf {start : Nat} (h : Known cs F s) (hform : q.admits form = true)
    (hchildren : form.children = []) :
    Ensures (Grammar.finish start form) c s fun t s' => Known cs (t.Suits · q) s' := by
  refine h.finish hform (fun op l r hbinary => ?_) fun _ _ => ?_
  · have hlength := congrArg List.length (Form.children_number form)
    rw [hbinary, hchildren] at hlength
    cases hlength
  · rw [hchildren]
    trivial

end Known

/-! ## Lists -/

/-- Trees that are announced by commas. -/
theorem Brings.others (hp : Brings cs q p c) :
    BringsAll cs q (collect (behindComma p)) c := by
  intro s hs
  refine collect_spec (I := fun (ts : List Tree) s => Known cs (fun ks => ∀ t ∈ ts, t.Suits ks q) s) ?_
    ((Known.of hs).mono fun _ _ _ ht => absurd ht List.not_mem_nil)
  intro ts s h
  refine (Known.stable.acceptPunct h).bind fun b s' h => .ite (fun _ => ?_) fun _ => ?_
  · refine (h.read hp).bind fun t s' h => .pure (h.mono fun ks hall => ?_)
    simpa [or_imp, forall_and] using hall
  · exact .pure (by simpa using h)

theorem Brings.commaList {close : Punctuator} (hp : Brings cs q p c) :
    BringsAll cs q (commaList close p) c := by
  intro s hs
  refine commaList_spec (I := fun (ts : List Tree) s => Known cs (fun ks => ∀ t ∈ ts, t.Suits ks q) s)
    (fun _ => Known.stable) ?_ ((Known.of hs).mono fun _ _ _ ht => absurd ht List.not_mem_nil)
  intro ts s h
  refine (h.read hp).mono fun t s' h => h.mono fun ks hall => ?_
  simpa [or_imp, forall_and] using hall

/-- The elements of an array, but for its holes. -/
theorem Brings.arrayElements (hp : Brings cs q p c) (hs : s.Ready cs) :
    Ensures (arrayElements p) c s fun es s' =>
      Known cs (fun ks => ∀ t ∈ es.filterMap id, t.Suits ks q) s' := by
  refine arrayElements_spec (I := fun (ts : List Tree) s => Known cs (fun ks => ∀ t ∈ ts, t.Suits ks q) s)
    (fun _ => Known.stable) ?_ ((Known.of hs).mono fun _ _ _ ht => absurd ht List.not_mem_nil)
  intro ts s h
  refine (h.read hp).mono fun t s' h => h.mono fun ks hall => ?_
  simpa [or_imp, forall_and] using hall

/-- Trees of a list stand in one place. -/
theorem Tree.allSuit_of_mem {ks : List Lexeme} {place : Nat → Place} {i : Nat}
    (h : ∀ t ∈ ts, Tree.Suits ks q t) (hplace : ∀ j < ts.length, place (i + j) = q) :
    Tree.AllSuit ks place i ts := by
  refine Tree.allSuit_of_forall fun j t hle hlt ht => ?_
  have hj := hplace (j - i) (by omega)
  rw [show i + (j - i) = j by omega] at hj
  exact hj.symm ▸ h t ht

/-! ## Names -/

/-- The reader of identifiers accepts what may stand in the place of its context. -/
theorem isIdentifier_allows (hs : s.Ready cs) : Ensures isIdentifier c s fun b s' =>
    s' = s ∧ (b = true → s.kind.isName = true ∧ c.place.allows s.lexer.value = true) := by
  have hallows (hname : s.kind.isName = true)
      (hyield : s.kind = .word .kYield → c.generator = false)
      (hawait : s.kind = .word .kAwait → c.async = false) :
      c.place.allows s.lexer.value = true := by
    refine Place.allows_iff.2 ⟨fun hvalue => hyield ?_, fun hvalue => hawait ?_⟩
    all_goals exact hs.lexed.kind_of_value hname (by rw [hvalue]; rfl)
  refine .step kind_eq ?_
  split
  · next hk =>
    have hname : s.kind.isName = true := by rw [hk]; rfl
    exact .pure ⟨rfl, fun _ => ⟨hname, hallows hname (by simp [hk]) (by simp [hk])⟩⟩
  · next hk =>
    have hname : s.kind.isName = true := by rw [hk]; rfl
    refine .step read_eq (.pure ⟨rfl, fun hb => ⟨hname, hallows hname (fun _ => ?_) (by simp [hk])⟩⟩)
    simpa using hb
  · next hk =>
    have hname : s.kind.isName = true := by rw [hk]; rfl
    refine .step read_eq (.pure ⟨rfl, fun hb => ⟨hname, hallows hname (by simp [hk]) fun _ => ?_⟩⟩)
    simpa using hb
  · next hidentifier hyield hawait =>
    refine .pure ⟨rfl, fun hb => ?_⟩
    have hname : s.kind.isName = true := by
      cases hk : s.kind with
      | word k => rfl
      | _ =>
        rw [hk] at hb
        cases hb
    exact ⟨hname, hallows hname (fun hk => absurd hk hyield) fun hk => absurd hk hawait⟩

/-- The tree is an identifier of the name. -/
def Names (name : String) (t : Tree) : Prop := ∃ start stop, t = .ofForm start stop (.identifier name)

theorem Names.suits {name : String} {ks : List Lexeme} (h : Names name t)
    (hq : q.admits (.identifier name : Form Tree) = true) : t.Suits ks q := by
  obtain ⟨start, stop, rfl⟩ := h
  exact Tree.suits_ofForm.2 ⟨hq, Tree.operates_of_not_binary nofun, trivial⟩

theorem identifierName_names (hs : s.Ready cs) : Ensures identifierName c s fun t s' =>
    s'.Ready cs ∧ Names s.lexer.value t := by
  refine .step kind_eq (.ite (fun _ => .fail_bind) fun hname => ?_)
  have hk : s.kind ≠ .endOfFile := by
    intro hk
    rw [hk] at hname
    exact hname rfl
  refine .step here_eq (.step lexer_eq (.step next_eq (.done finish_eq ⟨hs.advance hk, _, _, rfl⟩)))

theorem identifier_names (hs : s.Ready cs) : Ensures identifier c s fun t s' =>
    s'.Ready cs ∧ ∃ name, Names name t ∧ c.place.allows name = true := by
  refine (isIdentifier_allows hs).bind fun b s' h => .ite (fun _ => .fail_bind) fun hb => ?_
  obtain ⟨rfl, hallows⟩ := h
  refine (identifierName_names hs).mono fun t s'' ⟨hready, hnames⟩ => ⟨hready, _, hnames, ?_⟩
  exact (hallows (by simpa using hb)).2

theorem identifier_brings
    (hq : ∀ name, c.place.allows name = true → q.admits (.identifier name : Form Tree) = true) :
    Brings cs q identifier c := by
  intro s hs
  refine (identifier_names hs).mono fun t s' ⟨hready, name, hnames, hallows⟩ => ?_
  exact (Known.of hready).mono fun _ _ => hnames.suits (hq name hallows)

end LoopClosure.Grammar
