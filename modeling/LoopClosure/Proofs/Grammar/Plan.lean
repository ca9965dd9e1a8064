import LoopClosure.Grammar.Program
import LoopClosure.Proofs.Token.Lexemes

/-!
# Plans

A `Plan` is a reader told as a tree of what it does next. It sees no more of the text than the
current token (`View`), and what it wants to know of the tokens behind, it asks for (`Question`). One
way to answer is to look ahead, as the grammar does (`performing`); another is to take the answers
from a list and to scan nothing (`supplied`). `Plan.run` follows a plan with either, and keeps the
tokens that are reached on the way; tokens that only a look-ahead comes to are not among them. A plan
has no way back: to end where a reader ends it has to pass the tokens that the reader passes for good.

`Planned p`: there is a plan that reads as `p` does, from every state. There is one rule for each way
in which readers are put together.
-/

namespace LoopClosure.Grammar

open Syntax Token

variable {α β σ : Type}

/-! ## Plans -/

/-- What a plan sees: the current token, and what was read before it. -/
structure View where
  token : Lexeme
  value : String
  text : String
  lineBreak : Bool
  prevStop : Nat
  comments : List Comment

/-- What the grammar finds out by looking ahead. -/
inductive Question where
  /-- Does an arrow function begin here? -/
  | arrow
  /-- Does `function` follow on the same line? -/
  | asyncFunction
  /-- Is this word in front of parameters, and none itself? -/
  | asyncArrow
  /-- Does this word modify the name of a member? -/
  | modifier (enders : List Punctuator)
  /-- Does this word declare? -/
  | letDeclaration
  /-- Does a colon follow? -/
  | label

/-- The reader that finds out, with all its looking ahead. -/
def Question.reader : Question → Parse Bool
  | .arrow => startsArrow
  | .asyncFunction => startsAsyncFunction
  | .asyncArrow => lookAhead parametersFollow
  | .modifier enders => modifies enders
  | .letDeclaration => startsLet
  | .label => lookAhead colonFollows

/-- What a reader does next, over and over. -/
inductive Plan (α : Type) : Type where
  | done (a : α)
  | stop (h : Stop)
  | look (k : View → Plan α)
  | next (k : Plan α)
  /-- The current token is read as a regular expression. -/
  | slash (k : Plan α)
  /-- The current token is read as the continuation of a template. -/
  | template (k : Plan α)
  | ask (c : Context) (q : Question) (k : Bool → Plan α)

/-- On the way along a plan. -/
structure Walk (σ : Type) where
  lexer : Lexer
  /-- End of the token read last. -/
  prevStop : Nat
  /-- The tokens that were the current one, the latest first. -/
  reached : List Lexeme
  /-- What the answers go by. -/
  side : σ

namespace Walk

def view (w : Walk σ) : View where
  token := w.lexer.lexeme
  value := w.lexer.value
  text := w.lexer.text
  lineBreak := w.lexer.lineBreak
  prevStop := w.prevStop
  comments := w.lexer.comments.toList

def next (w : Walk σ) : Walk σ where
  lexer := w.lexer.scan
  prevStop := w.lexer.cursor.offset
  reached := w.lexer.scan.lexeme :: w.reached
  side := w.side

/-- The current token read in another way. -/
def reread (f : Lexer → Lexer) (w : Walk σ) : Walk σ :=
  { w with
    lexer := f w.lexer
    reached :=
      match w.reached with
      | [] => []
      | _ :: ks => (f w.lexer).lexeme :: ks }

end Walk

/-- A way to answer. -/
abbrev Answers (σ : Type) := Context → Question → EStateM Stop (Walk σ) Bool

namespace Plan

def run (answer : Answers σ) : Plan α → EStateM Stop (Walk σ) α
  | done a, w => .ok a w
  | stop h, w => .error h w
  | look k, w => (k w.view).run answer w
  | next k, w => k.run answer w.next
  | slash k, w => k.run answer (w.reread Lexer.rescanSlash)
  | template k, w => k.run answer (w.reread Lexer.rescanTemplate)
  | ask c q k, w =>
    match answer c q w with
    | .ok b w => (k b).run answer w
    | .error h w => .error h w

def bind (f : α → Plan β) : Plan α → Plan β
  | done a => f a
  | stop h => stop h
  | look k => look fun v => (k v).bind f
  | next k => next (k.bind f)
  | slash k => slash (k.bind f)
  | template k => template (k.bind f)
  | ask c q k => ask c q fun b => (k b).bind f

theorem run_bind (answer : Answers σ) (f : α → Plan β) (plan : Plan α) (w : Walk σ) :
    (plan.bind f).run answer w =
      EStateM.bind (plan.run answer) (fun a => (f a).run answer) w := by
  induction plan generalizing w with
  | done | stop => rfl
  | look k ih => exact ih _ w
  | next k ih | slash k ih | template k ih => exact ih _
  | ask c q k ih =>
    rw [bind, run, EStateM.bind, run]
    cases answer c q w with
    | ok b w => exact ih b w
    | error h w => rfl

end Plan

/-! ## Ways to answer -/

/-- What the answers of the grammar go by are the arrow heads found so far. -/
def Walk.state (w : Walk (List (Nat × Bool))) : State := ⟨w.lexer, w.prevStop, w.side⟩

/-- The grammar looks ahead; `limit` bounds its repetitions. -/
def performing (limit : Nat) : Answers (List (Nat × Bool)) := fun c q w =>
  match q.reader { c with limit } w.state with
  | .ok b s => .ok b { w with lexer := s.lexer, prevStop := s.prevStop, side := s.arrowHeads }
  | .error h s => .error h { w with lexer := s.lexer, prevStop := s.prevStop, side := s.arrowHeads }

/-- The answers come from a list, and nothing is scanned. -/
def supplied : Answers (List Bool) := fun _ _ w =>
  match w.side with
  | [] => .ok false w
  | b :: bs => .ok b { w with side := bs }

/-! ## Readers with a plan -/

/-- An outcome without the tokens reached. -/
def Walk.outcome : EStateM.Result Stop (Walk (List (Nat × Bool))) α →
    EStateM.Result Stop State α
  | .ok a w => .ok a w.state
  | .error h w => .error h w.state

/-- To perform the plan is to run the reader. -/
def Plan.Performs (plan : Plan α) (limit : Nat) (p : EStateM Stop State α) : Prop :=
  ∀ w, Walk.outcome (plan.run (performing limit) w) = p w.state

/-- There is a plan for the reader. -/
def Planned (p : Parse α) : Prop := ∃ plan : Context → Plan α, ∀ c, (plan c).Performs c.limit (p c)

namespace Planned

variable {p q : Parse α} {f : α → Parse β}

theorem pure {a : α} : Planned (Pure.pure a) := ⟨fun _ => .done a, fun _ _ => rfl⟩

theorem throw {h : Stop} : Planned (throw h : Parse α) :=
  ⟨fun _ => .stop h, fun _ _ => rfl⟩

theorem bind (hp : Planned p) (hf : ∀ a, Planned (f a)) : Planned (p >>= f) := by
  obtain ⟨plan, hplan⟩ := hp
  choose plans hplans using hf
  refine ⟨fun c => (plan c).bind fun a => plans a c, fun c w => ?_⟩
  change _ = EStateM.bind (p c) (fun a => f a c) w.state
  rw [Plan.run_bind, EStateM.bind, EStateM.bind, ← hplan c w]
  cases (plan c).run (performing c.limit) w with
  | ok a w => exact hplans a c w
  | error h w => rfl

theorem map {g : α → β} (hp : Planned p) : Planned (g <$> p) := by
  rw [← bind_pure_comp]
  exact hp.bind fun _ => .pure

theorem ite {b : Prop} [Decidable b] (hp : Planned p) (hq : Planned q) :
    Planned (if b then p else q) := by
  split
  · exact hp
  · exact hq

/-- Two ways that lead to one continuation. -/
theorem branch {b : Prop} [Decidable b] (hp : Planned p) (hq : Planned q) (hf : ∀ a, Planned (f a)) :
    Planned (if b then p >>= f else q >>= f) :=
  .ite (.bind hp hf) (.bind hq hf)

/-- An item that a test announces. -/
theorem optional {b : Prop} [Decidable b] {f : Option α → Parse β} (hp : Planned p)
    (hf : ∀ o, Planned (f o)) :
    Planned (if b then (some <$> p) >>= f else Pure.pure none >>= f) :=
  .branch (.map hp) .pure hf

/-- A detour. -/
theorem detour {b : Prop} [Decidable b] {p : Parse Unit} {f : Unit → Parse β} (hp : Planned p)
    (hf : Planned (f ())) : Planned (if b then p >>= f else f ()) :=
  .ite (.bind hp fun _ => hf) hf

/-- A reader that only looks. -/
theorem look {f : Context → View → α}
    (h : ∀ c (w : Walk (List (Nat × Bool))), p c w.state = .ok (f c w.view) w.state) : Planned p :=
  ⟨fun c => .look fun v => .done (f c v), fun c w => (h c w).symm⟩

/-- A reader that looks first. -/
theorem seen {f : View → Parse α} (hf : ∀ v, Planned (f v))
    (h : ∀ c (w : Walk (List (Nat × Bool))), p c w.state = f w.view c w.state) : Planned p := by
  choose plans hplans using hf
  exact ⟨fun c => .look fun v => plans v c, fun c w => (hplans w.view c w).trans (h c w).symm⟩

/-- Reading in another place of the program, with the same limit. -/
theorem within {g : Context → Context} (hg : ∀ c, (g c).limit = c.limit) (hp : Planned p) :
    Planned fun c => p (g c) := by
  obtain ⟨plan, hplan⟩ := hp
  exact ⟨fun c => plan (g c), fun c => hg c ▸ hplan (g c)⟩

theorem ask (q : Question) : Planned q.reader := by
  refine ⟨fun c => .ask c q .done, fun c w => ?_⟩
  have hc : { c with limit := c.limit } = c := rfl
  rw [Plan.run, performing, hc]
  cases q.reader c w.state with
  | ok b s => rfl
  | error h s => rfl

/-! ### The current token -/

theorem kind : Planned kind := look (f := fun _ v => v.token.kind) fun _ _ => rfl

theorem here : Planned here := look (f := fun _ v => v.token.start) fun _ _ => rfl

theorem afterLineBreak : Planned afterLineBreak := look (f := fun _ v => v.lineBreak) fun _ _ => rfl

theorem read : Planned (MonadReader.read : Parse Context) := look (f := fun c _ => c) fun _ _ => rfl

theorem isPunct {p : Punctuator} : Planned (isPunct p) := kind.bind fun _ => .pure

theorem isWord {k : Keyword} : Planned (isWord k) := kind.bind fun _ => .pure

theorem isEnd : Planned isEnd := kind.bind fun _ => .pure

theorem next : Planned next := ⟨fun _ => .next (.done ()), fun _ _ => rfl⟩

theorem slash : Planned (rescan Lexer.rescanSlash) := ⟨fun _ => .slash (.done ()), fun _ _ => rfl⟩

theorem template : Planned (rescan Lexer.rescanTemplate) :=
  ⟨fun _ => .template (.done ()), fun _ _ => rfl⟩

theorem fail {e : SyntaxError} : Planned (Grammar.fail e : Parse α) :=
  seen (f := fun v => MonadExcept.throw (.fault ⟨v.token.start, v.token.stop - v.token.start, e⟩))
    (fun _ => .throw) fun _ _ => rfl

theorem abort : Planned (Grammar.abort : Parse α) := throw

theorem unexpected : Planned (Grammar.unexpected : Parse α) :=
  seen (f := fun v => if v.token.kind = .endOfFile then Grammar.fail .unexpectedEnd
      else Grammar.fail (.unexpectedToken v.text)) (fun _ => .ite .fail .fail) fun _ _ => rfl

theorem finish {start : Nat} {form : Form Tree} : Planned (finish start form) :=
  look (f := fun _ v => .ofForm start (max v.prevStop start) form) fun _ _ => rfl

theorem accept {k : Kind} : Planned (accept k) :=
  kind.bind fun _ => .ite (next.bind fun _ => .pure) .pure

theorem expect {k : Kind} : Planned (expect k) := accept.bind fun _ => .ite .fail .pure

theorem isIdentifier : Planned isIdentifier := by
  refine kind.bind fun k => ?_
  split
  · exact .pure
  · exact read.bind fun _ => .pure
  · exact read.bind fun _ => .pure
  · exact .pure

theorem canEndStatement : Planned canEndStatement := by
  refine kind.bind fun k => ?_
  split
  · exact .pure
  · exact .pure
  · exact .pure
  · exact afterLineBreak

theorem semicolon : Planned semicolon :=
  accept.bind fun _ => .ite (canEndStatement.bind fun _ => .ite .fail .pure) .pure

theorem identifierName : Planned identifierName := by
  have name : Planned (do
      let start ← Grammar.here
      let name := (← lexer).value
      Grammar.next
      Grammar.finish start (.identifier name)) :=
    here.bind fun start => seen (f := fun v => do
      Grammar.next
      Grammar.finish start (.identifier v.value)) (fun _ => next.bind fun _ => finish) fun _ _ => rfl
  exact kind.bind fun _ => .detour fail name

theorem identifier : Planned identifier :=
  isIdentifier.bind fun _ => .detour fail identifierName

theorem literal {k : LiteralKind} : Planned (literal k) :=
  here.bind fun start => seen (f := fun v => do
    Grammar.next
    Grammar.finish start (.literal k v.text)) (fun _ => next.bind fun _ => finish) fun _ _ => rfl

theorem target {t : Tree} : Planned (target t) := by
  unfold Grammar.target
  split
  · exact .pure
  · exact .throw

/-! ### Places -/

theorem withIn (hp : Planned p) : Planned (Grammar.withIn p) :=
  hp.within (g := fun c => { c with noIn := false }) fun _ => rfl

theorem withoutIn (hp : Planned p) : Planned (Grammar.withoutIn p) :=
  hp.within (g := fun c => { c with noIn := true }) fun _ => rfl

theorem inFunction {traits : FunctionTraits} (hp : Planned p) : Planned (Grammar.inFunction traits p) :=
  hp.within (g := fun c => { c with async := traits.isAsync, generator := traits.isGenerator })
    fun _ => rfl

theorem nested (hp : Planned p) : Planned (Grammar.nested p) := by
  obtain ⟨plan, hplan⟩ := hp.within (g := fun c => { c with nesting := c.nesting + 1 }) fun _ => rfl
  obtain ⟨deep, hdeep⟩ := fail (α := α) (e := .nestingTooDeep)
  refine ⟨fun c => if c.nesting < maxNesting then plan c else deep c, fun c w => ?_⟩
  unfold Grammar.nested
  dsimp only
  split
  · exact hplan c w
  · exact hdeep c w

/-! ### Repetition -/

theorem iterate {step : σ → Parse (Option σ)} (hstep : ∀ x, Planned (step x)) (n : Nat) (x : σ) :
    Planned (iterate step n x) := by
  induction n generalizing x with
  | zero => exact fail
  | succ n ih =>
    refine (hstep x).bind fun o => ?_
    cases o with
    | none => exact .pure
    | some y => exact ih y

theorem repeating {step : σ → Parse (Option σ)} (hstep : ∀ x, Planned (step x)) (x : σ) :
    Planned (repeating step x) :=
  read.bind fun c => iterate hstep c.limit x

theorem collect {item : Parse (Option α)} (hitem : Planned item) : Planned (collect item) :=
  (repeating (fun _ => hitem.bind fun _ => .pure) _).bind fun _ => .pure

theorem commaList {close : Punctuator} {item : Parse α} (hitem : Planned item) :
    Planned (commaList close item) := by
  refine .bind (.collect ?_) fun _ => next.bind fun _ => .pure
  refine isPunct.bind fun _ => .ite .pure (hitem.bind fun _ => isPunct.bind fun _ => ?_)
  exact .detour expect .pure

theorem arrayElements {item : Parse Tree} (hitem : Planned item) : Planned (arrayElements item) := by
  refine .bind (.collect ?_) fun _ => next.bind fun _ => .pure
  refine isPunct.bind fun _ => .ite .pure (accept.bind fun _ => .ite .pure ?_)
  exact hitem.bind fun _ => isPunct.bind fun _ => .detour expect .pure

end Planned

end LoopClosure.Grammar
