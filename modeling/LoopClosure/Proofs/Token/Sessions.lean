import LoopClosure.Proofs.Token.Lexemes

/-!
# Sessions with the lexer

A session moves a lexer by any sequence of steps: it reads, takes the comments out, saves the state
and goes back to the state saved last (`Session.run`). However it moves, the lexer stays within its
text (`Lexer.Within`, `run_within`): the token and what follows it are slices of the text
(`Lexer.InBounds`). Reading only adds to what is recorded (`Lexer.Appends`), so that going back gives
exactly the state that was saved, whatever was read, saved and gone back to in between, unless
comments were taken out (`Nested.run_eq`).
-/

namespace LoopClosure.Token

open Text (Cursor isBoundary size slice?)
open Text.Cursor

/-! ## Sessions -/

/-- A way to read on from the current token or to read it again. -/
inductive Reading where
  | scan | slash | template | shebang
deriving DecidableEq, Repr

def Reading.apply : Reading → Lexer → Lexer
  | .scan => Lexer.scan
  | .slash => Lexer.rescanSlash
  | .template => Lexer.rescanTemplate
  | .shebang => Lexer.skipShebang

inductive Step where
  | read (r : Reading)
  | takeComments
  | snapshot
  | restore
deriving DecidableEq, Repr

/-- A lexer and the states saved of it, the latest first. -/
structure Session where
  lexer : Lexer
  saved : List Lexer
deriving DecidableEq, Repr

namespace Session

def ofText (cs : List Char) : Session := ⟨.ofText cs, []⟩

def step (s : Session) : Step → Session
  | .read r => { s with lexer := r.apply s.lexer }
  | .takeComments => { s with lexer := s.lexer.takeComments }
  | .snapshot => { s with saved := s.lexer :: s.saved }
  | .restore =>
    match s.saved with
    | [] => s
    | top :: rest => ⟨s.lexer.restore top, rest⟩

def run (s : Session) (steps : List Step) : Session := steps.foldl step s

theorem run_append (s : Session) (before after : List Step) :
    s.run (before ++ after) = (s.run before).run after := List.foldl_append

end Session

/-- Whatever is saved on the way is gone back to, and nothing else is. -/
inductive Nested : List Step → Prop where
  | nil : Nested []
  | read {steps : List Step} (r : Reading) (h : Nested steps) : Nested (.read r :: steps)
  | takeComments {steps : List Step} (h : Nested steps) : Nested (.takeComments :: steps)
  | restored {during after : List Step} (hduring : Nested during) (hafter : Nested after) :
    Nested (.snapshot :: (during ++ .restore :: after))

/-! ## Within the text -/

namespace Lexer

variable {cs : List Char} {l l' l'' saved : Lexer}

/-- The lexer stands at a part of the text. -/
structure Within (cs : List Char) (l : Lexer) : Prop where
  start : Reach (.ofText cs) l.start
  cursor : Reach l.start l.cursor
  spelled : l.kind.isFixed = true → ∃ rest, l.start.rest = l.kind.chars ++ rest

/-- What the offsets of a lexer have to satisfy so that every slice it takes of its text exists. -/
structure InBounds (cs : List Char) (l : Lexer) : Prop where
  le : l.start.offset ≤ l.cursor.offset
  size : l.cursor.offset ≤ size cs
  start : isBoundary cs l.start.offset = true
  position : isBoundary cs l.cursor.offset = true
  token : slice? cs l.start.offset l.cursor.offset = some l.text.toList
  ahead : slice? cs l.cursor.offset (Text.size cs) = some l.cursor.rest
  /-- Tokens of these kinds are read again from behind their first byte. -/
  again : l.kind = .punct .slash ∨ l.kind = .punct .slashEquals ∨ l.kind = .punct .closeBrace →
    l.start.next.offset = l.start.offset + 1 ∧ isBoundary cs (l.start.offset + 1) = true

theorem Within.inBounds (h : l.Within cs) : l.InBounds cs := by
  have hcursor := h.start.trans h.cursor
  obtain ⟨as, hcs, hsize⟩ := hcursor.exists_passed
  refine ⟨h.cursor.le, Text.isBoundary_le hcursor.isBoundary, h.start.isBoundary,
    hcursor.isBoundary, ?_, ?_, fun hkind => ?_⟩
  · rw [h.start.slice? h.cursor, text, String.toList_ofList]
  · refine Text.slice?_eq_some_iff.2 ⟨as, [], ?_, hsize, ?_⟩
    · rw [List.append_nil]
      exact hcs
    · rw [← Text.size_append, ← hcs]
  · obtain ⟨d, ds, hrest, hd⟩ : ∃ d ds, l.start.rest = d :: ds ∧ d.utf8Size = 1 := by
      rcases hkind with hkind | hkind | hkind
      all_goals
        obtain ⟨rest, hrest⟩ := h.spelled (hkind ▸ rfl)
        rw [hkind] at hrest
        exact ⟨_, _, hrest, rfl⟩
    have hnext : l.start.next.offset = l.start.offset + 1 := by rw [next, hrest, ← hd]
    exact ⟨hnext, hnext ▸ (h.start.trans (reach_next _)).isBoundary⟩

theorem Ready.within (h : l.Ready) (hstart : Reach (.ofText cs) l.start) : l.Within cs :=
  ⟨hstart, h.reach, fun hfixed => (h.spelled hfixed).imp fun _ hrest => hrest.1⟩

theorem ofText_within (cs : List Char) : (ofText cs).Within cs :=
  ⟨.refl _, .refl _, fun h => nomatch h⟩

theorem scan_within (h : l.Within cs) : l.scan.Within cs :=
  l.scan_ready.1.within (h.start.trans (h.cursor.trans l.scan_ready.2))

theorem skipShebang_within (h : l.Within cs) : l.skipShebang.Within cs := by
  unfold skipShebang
  split
  · exact ⟨h.start, h.cursor.trans (reach_skipWhile _ _), h.spelled⟩
  · exact h

/-- A token read again from its second character on. -/
theorem Within.finish (h : l.Within cs) {kind : Kind} {stop : Cursor} (hkind : kind.isFixed = false)
    (hstop : Reach l.start.next stop) : (l.finish kind stop).Within cs :=
  ⟨h.start, (reach_next _).trans hstop, fun hfixed => absurd hfixed (hkind ▸ Bool.false_ne_true)⟩

theorem Within.report (h : l.Within cs) (start length : Nat) (e : LexError) :
    (l.report start length e).Within cs := ⟨h.start, h.cursor, h.spelled⟩

theorem rescanSlash_within (h : l.Within cs) : l.rescanSlash.Within cs := by
  unfold rescanSlash
  split
  · have hbody := reach_regExpEnd false l.start.next.offset l.start.next.rest
    extract_lets first
    split
    next stop closed heq =>
    rw [heq] at hbody
    have hstop : Reach l.start.next (stop.skipWhile Text.isIdentifierPart) :=
      Reach.trans hbody (reach_skipWhile _ stop)
    dsimp only
    split
    · exact h.finish rfl hstop
    · exact (h.finish rfl hstop).report _ _ _
  · exact h

theorem rescanTemplate_within (h : l.Within cs) : l.rescanTemplate.Within cs := by
  unfold rescanTemplate
  split
  · have hstop := reach_templateEnd l.start.next.offset l.start.next.rest
    unfold finishTemplate
    dsimp only
    split
    · exact h.finish rfl hstop
    · exact h.finish rfl hstop
    · exact (h.finish rfl hstop).report _ _ _
  · exact h

theorem read_within (h : l.Within cs) (r : Reading) : (r.apply l).Within cs := by
  cases r with
  | scan => exact scan_within h
  | slash => exact rescanSlash_within h
  | template => exact rescanTemplate_within h
  | shebang => exact skipShebang_within h

theorem takeComments_within (h : l.Within cs) : l.takeComments.Within cs :=
  ⟨h.start, h.cursor, h.spelled⟩

theorem restore_within (h : saved.Within cs) : (l.restore saved).Within cs :=
  ⟨h.start, h.cursor, h.spelled⟩

/-! ## What is recorded -/

/-- The lexer `l'` has recorded what `l` has, and maybe more behind it. -/
structure Appends (l l' : Lexer) : Prop where
  comments : l.comments.toList <+: l'.comments.toList
  errors : l.errors.toList <+: l'.errors.toList

theorem Appends.refl (l : Lexer) : l.Appends l := ⟨List.prefix_rfl, List.prefix_rfl⟩

theorem Appends.trans (h : l.Appends l') (h' : l'.Appends l'') : l.Appends l'' :=
  ⟨h.comments.trans h'.comments, h.errors.trans h'.errors⟩

theorem report_appends (l : Lexer) (start length : Nat) (e : LexError) :
    l.Appends (l.report start length e) := by
  refine ⟨List.prefix_rfl, ?_⟩
  rw [report, Array.toList_push]
  exact List.prefix_append _ _

theorem finish_appends (l : Lexer) (kind : Kind) (stop : Cursor) : l.Appends (l.finish kind stop) :=
  ⟨List.prefix_rfl, List.prefix_rfl⟩

theorem finish_report_appends (l : Lexer) (kind : Kind) (stop : Cursor) (start length : Nat)
    (e : LexError) : l.Appends ((l.finish kind stop).report start length e) :=
  (finish_appends l kind stop).trans (report_appends _ start length e)

theorem finishTemplate_appends (l : Lexer) (opening : Bool) (first : Cursor) :
    l.Appends (l.finishTemplate opening first) := by
  unfold finishTemplate
  dsimp only
  split
  · exact finish_appends ..
  · exact finish_appends ..
  · exact finish_report_appends ..

theorem token_appends (l : Lexer) (c : Char) : l.Appends (l.token c) := by
  unfold token
  dsimp only
  repeat' split
  all_goals
    first
    | exact finishTemplate_appends ..
    | exact finish_appends ..
    | exact finish_report_appends ..

theorem scan_appends (l : Lexer) : l.Appends l.scan := by
  unfold scan
  extract_lets t l'
  have htrivia : l.Appends l' := by
    refine ⟨?_, ?_⟩
    · exact Array.toList_appendList ▸ List.prefix_append _ _
    · exact Array.toList_appendList ▸ List.prefix_append _ _
  split
  · exact htrivia
  · exact htrivia.trans (token_appends ..)

theorem rescanSlash_appends (l : Lexer) : l.Appends l.rescanSlash := by
  unfold rescanSlash
  dsimp only
  repeat' split
  · exact finish_appends ..
  · exact finish_report_appends ..
  · exact .refl l

theorem rescanTemplate_appends (l : Lexer) : l.Appends l.rescanTemplate := by
  unfold rescanTemplate
  split
  · exact finishTemplate_appends ..
  · exact .refl l

theorem skipShebang_appends (l : Lexer) : l.Appends l.skipShebang := by
  unfold skipShebang
  split
  · exact ⟨List.prefix_rfl, List.prefix_rfl⟩
  · exact .refl l

theorem read_appends (l : Lexer) (r : Reading) : l.Appends (r.apply l) := by
  cases r with
  | scan => exact scan_appends l
  | slash => exact rescanSlash_appends l
  | template => exact rescanTemplate_appends l
  | shebang => exact skipShebang_appends l

theorem take_eq_of_prefix {α : Type} {as bs : Array α} (h : as.toList <+: bs.toList) :
    bs.take as.size = as := by
  rw [← Array.toList_inj, Array.take_eq_extract, Array.toList_extract, List.extract_eq_take_drop]
  exact (List.prefix_iff_eq_take.1 h).symm

/-- Going back from where more has been recorded gives the saved state. -/
theorem restore_eq (h : l.Appends l') : l'.restore l = l := by
  rw [restore, take_eq_of_prefix h.comments, take_eq_of_prefix h.errors]

end Lexer

/-! ## Runs -/

variable {cs : List Char} {steps : List Step} {s : Session}

namespace Session

/-- The lexer stands within the text, and so does every state saved of it. -/
structure Within (cs : List Char) (s : Session) : Prop where
  lexer : s.lexer.Within cs
  saved : ∀ l ∈ s.saved, l.Within cs

theorem step_within (h : s.Within cs) (step : Step) : (s.step step).Within cs := by
  cases step with
  | read r => exact ⟨Lexer.read_within h.lexer r, h.saved⟩
  | takeComments => exact ⟨Lexer.takeComments_within h.lexer, h.saved⟩
  | snapshot => exact ⟨h.lexer, List.forall_mem_cons.2 ⟨h.lexer, h.saved⟩⟩
  | restore =>
    obtain ⟨hlexer, hsaved⟩ := h
    obtain ⟨l, saved⟩ := s
    cases saved with
    | nil => exact ⟨hlexer, hsaved⟩
    | cons top rest =>
      rw [List.forall_mem_cons] at hsaved
      exact ⟨Lexer.restore_within hsaved.1, hsaved.2⟩

theorem run_within (h : s.Within cs) (steps : List Step) : (s.run steps).Within cs := by
  induction steps generalizing s with
  | nil => exact h
  | cons step steps ih => exact ih (step_within h step)

end Session

/-- Going back to the state saved last. -/
theorem Session.step_restore {s' : Session} (hsaved : s'.saved = s.lexer :: s.saved)
    (hlexer : s.lexer.Appends s'.lexer) : s'.step .restore = s := by
  obtain ⟨l, saved⟩ := s'
  cases hsaved
  exact congrArg (Session.mk · s.saved) (Lexer.restore_eq hlexer)

/-- Steps that go back to all they save end with the same states saved, and with what was recorded
before still in its place. -/
theorem Nested.run_eq (h : Nested steps) (hkept : .takeComments ∉ steps) (s : Session) :
    (s.run steps).saved = s.saved ∧ s.lexer.Appends (s.run steps).lexer := by
  induction h generalizing s with
  | nil => exact ⟨rfl, .refl _⟩
  | read r _ ih =>
    obtain ⟨hsaved, hlexer⟩ := ih (List.not_mem_of_not_mem_cons hkept) (s.step (.read r))
    exact ⟨hsaved, (Lexer.read_appends s.lexer r).trans hlexer⟩
  | takeComments => exact absurd List.mem_cons_self hkept
  | @restored during after _ _ ihduring ihafter =>
    simp only [List.mem_cons, List.mem_append, not_or] at hkept
    obtain ⟨hsaved, hlexer⟩ := ihduring hkept.2.1 (s.step .snapshot)
    have hrun : s.run (.snapshot :: (during ++ .restore :: after)) =
        (((s.step .snapshot).run during).step .restore).run after :=
      Session.run_append (s.step .snapshot) during (.restore :: after)
    rw [hrun, Session.step_restore hsaved hlexer]
    exact ihafter hkept.2.2.2 s

/-- In a session with any text the lexer stays in bounds, and going back gives exactly the state that
was saved, with all it had recorded, if no comments were taken out since (with offsets in 32 bits,
for any text below `2 ^ 32` bytes). -/
theorem session_inBounds_restores (cs : List Char) :
    (∀ steps, ((Session.ofText cs).run steps).lexer.InBounds cs) ∧
      ∀ before during, Nested during → .takeComments ∉ during →
        (Session.ofText cs).run (before ++ .snapshot :: (during ++ [.restore])) =
          (Session.ofText cs).run before := by
  have hfirst : (Session.ofText cs).Within cs :=
    ⟨Lexer.ofText_within cs, fun _ hl => absurd hl List.not_mem_nil⟩
  refine ⟨fun steps => (Session.run_within hfirst steps).lexer.inBounds, ?_⟩
  intro before during hduring hkept
  obtain ⟨hsaved, hlexer⟩ := hduring.run_eq hkept (((Session.ofText cs).run before).step .snapshot)
  have hrun : (Session.ofText cs).run (before ++ .snapshot :: (during ++ [.restore])) =
      ((((Session.ofText cs).run before).step .snapshot).run during).step .restore := by
    rw [Session.run_append]
    exact Session.run_append (((Session.ofText cs).run before).step .snapshot) during [.restore]
  rw [hrun]
  exact Session.step_restore hsaved hlexer

/-- As a regular expression the slash ends in front of a comment, as a quotient inside a string. -/
def slashAhead : List Char := "x /*a*/ /'/ /*b*/ 'c".toList

def passSlash : List Step :=
  [.snapshot, .read .scan, .restore, .read .slash, .snapshot, .read .scan, .restore, .read .scan]

theorem session_restores_slashAhead :
    ∃ s, s = (Session.ofText slashAhead).run [.read .scan, .read .scan] ∧
      Nested passSlash ∧ .takeComments ∉ passSlash ∧ s.lexer.comments = #[⟨2, 7, true⟩] ∧
      (s.run (.snapshot :: passSlash)).lexer.comments = #[⟨2, 7, true⟩, ⟨12, 17, true⟩] ∧
      (s.run (.snapshot :: passSlash)).lexer.errors = #[⟨18, 2, .unterminatedString⟩] ∧
      (Session.ofText slashAhead).run
        ([.read .scan, .read .scan] ++ .snapshot :: (passSlash ++ [.restore])) = s := by
  have hnested : Nested passSlash :=
    .restored (.read .scan .nil) (.read .slash (.restored (.read .scan .nil) (.read .scan .nil)))
  have hkept : .takeComments ∉ passSlash := by decide
  refine ⟨_, rfl, hnested, hkept, by decide +kernel, by decide +kernel, by decide +kernel, ?_⟩
  exact (session_inBounds_restores slashAhead).2 _ _ hnested hkept

end LoopClosure.Token
