import LoopClosure.Proofs.Grammar.Placing.Expression
import LoopClosure.Proofs.Grammar.Program
import LoopClosure.Proofs.Grammar.Statement
import LoopClosure.Proofs.Syntax.Places

/-!
# Statements and programs in their places

The head of a `for` loop begins with what is read without the operator `in`; the rest of a statement
is read as the statement is.

The unrolled grammar keeps the promise of each of its nonterminals, by induction on its depth. In the
tree of a text that the grammar accepts every node is admitted where it stands (`parse_suits`).
-/

namespace LoopClosure.Grammar

open Syntax Token

variable {cs source : List Char} {F : List Lexeme → Prop} {c : Context} {s s₀ : Track} {q : Place}
  {rules : Rules} {t : Tree}

/-- What begins a loop over a collection may be a declaration. -/
theorem suits_head {ks : List Lexeme} {keyword : VarKeyword} {ds : List Nat}
    (h : t.Suits ks q) (hform : t.form = .bindings keyword ds) : t.Suits ks (q.withSlot .head) := by
  match t with
  | .node start stop form ts =>
    obtain rfl : form = .bindings keyword ds := hform
    exact ⟨rfl, h.2.1, h.2.2.1, h.2.2.2⟩

section Placing

variable (hr : Placing cs rules)
include hr

/-! ## Variables -/

theorem declarator_brings : Brings cs (c.place.withSlot .declarator) (declarator rules) c := by
  intro s hs
  refine .step here_eq ((bindingTarget_brings hr s hs).bind fun target s' h => ?_)
  refine Known.optional (Known.stable.acceptPunct h) (hr.assignment c) fun init s' h => ?_
  refine h.finish rfl nofun fun ks ⟨htarget, hinit⟩ => Tree.allSuit_append.2 ⟨⟨htarget, trivial⟩, ?_⟩
  refine Tree.allSuit_of_mem hinit fun j _ => ?_
  simp [Place.into, Form.encloses, Form.startsLoop, Form.owner?, Form.above, Slot.into, Context.place,
    Place.withSlot]

/-- Declarators of any range suit their place. -/
theorem declarators_known {keyword : VarKeyword} (hs : s.Ready cs) (hk : s.kind ≠ .endOfFile) :
    Ensures (declarators rules keyword) c s fun t s' => (∃ ds, t.form = .bindings keyword ds) ∧
      Known cs (fun ks => ∀ start stop, (t.withRange start stop).Suits ks c.place) s' := by
  refine .step here_eq (.step next_eq ?_)
  refine (declarator_brings hr s.advance (hs.advance hk)).bind fun first s' h => ?_
  refine (h.readAll (declarator_brings hr).others).bind fun others s' h => .done finish_eq ⟨⟨_, rfl⟩, ?_⟩
  refine h.mono fun ks ⟨hfirst, hothers⟩ start stop => ?_
  have hkids : Tree.AllSuit ks (c.place.into (.bindings keyword (first :: others))) 0
      (first :: others) := ⟨hfirst, Tree.allSuit_of_mem hothers fun _ _ => rfl⟩
  exact Tree.suits_ofForm.2 ⟨rfl, Tree.operates_of_not_binary nofun, hkids⟩

theorem variableStatement_known {keyword : VarKeyword} (hs : s.Ready cs) (hk : s.kind ≠ .endOfFile) :
    Ensures (variableStatement rules keyword) c s fun t s' => Known cs (t.Suits · c.place) s' := by
  refine .step here_eq ((declarators_known hr hs hk).bind fun t s' ⟨_, h⟩ => ?_)
  refine (Known.stable.semicolon h).bind fun _ s' h => .step get_eq (.pure ?_)
  exact h.mono fun ks hall => hall _ _

/-! ## Control flow -/

theorem condition_known (h : Known cs F s) : Ensures (condition rules) c s fun t s' =>
    Known cs (fun ks => F ks ∧ t.Suits ks c.place.enclosed) s' := by
  have hread : Brings cs c.place.enclosed (withIn (expression rules)) c := expression_brings hr
  refine (Known.stable.expectPunct h).bind fun _ s' h => (h.read hread).bind fun e s' h => ?_
  exact (Known.stable.expectPunct h).bind fun _ s' h => .pure h

theorem ifStatement_known (hs : s.Ready cs) (hk : s.kind ≠ .endOfFile) :
    Ensures (ifStatement rules) c s fun t s' => Known cs (t.Suits · c.place) s' := by
  refine .step here_eq (.step next_eq ?_)
  refine (condition_known hr (.of (hs.advance hk))).bind fun test s' h => ?_
  refine (h.read (hr.statement c)).bind fun consequent s' h => ?_
  refine Known.optional (Known.stable.acceptWord h) (hr.statement c) fun alternate s' h => ?_
  refine h.finish rfl nofun fun ks ⟨⟨⟨_, htest⟩, hconsequent⟩, halternate⟩ =>
    Tree.allSuit_append.2 ⟨⟨htest, hconsequent, trivial⟩, ?_⟩
  refine Tree.allSuit_of_mem halternate fun j _ => ?_
  simp [Place.into, Form.encloses, Form.startsLoop, Form.owner?, Form.above, Slot.into, Context.place]

theorem whileStatement_known (hs : s.Ready cs) (hk : s.kind ≠ .endOfFile) :
    Ensures (whileStatement rules) c s fun t s' => Known cs (t.Suits · c.place) s' := by
  refine .step here_eq (.step next_eq ?_)
  refine (condition_known hr (.of (hs.advance hk))).bind fun test s' h => ?_
  refine (h.read (hr.statement c)).bind fun body s' h => ?_
  exact h.finish rfl nofun fun ks ⟨⟨_, htest⟩, hbody⟩ => ⟨htest, hbody, trivial⟩

theorem doStatement_known (hs : s.Ready cs) (hk : s.kind ≠ .endOfFile) :
    Ensures (doStatement rules) c s fun t s' => Known cs (t.Suits · c.place) s' := by
  refine .step here_eq (.step next_eq ?_)
  refine (hr.statement c s.advance (hs.advance hk)).bind fun body s' h => ?_
  refine (Known.stable.expectWord h).bind fun _ s' h => ?_
  refine (condition_known hr h).bind fun test s' h => ?_
  refine (Known.stable.acceptPunct h).bind fun _ s' h => ?_
  exact h.finish rfl nofun fun ks ⟨hbody, htest⟩ => ⟨hbody, htest, trivial⟩

theorem optionalExpression_known {close : Punctuator} (h : Known cs F s) :
    Ensures (optionalExpression rules close) c s fun o s' =>
      Known cs (fun ks => F ks ∧ ∀ t ∈ o.toList, t.Suits ks c.place) s' := by
  refine .step isPunct_eq (.ite (fun _ => ?_) fun _ => ?_)
  · exact .pure (h.mono fun _ h => ⟨h, by simp⟩)
  · refine .map ((h.read (expression_brings hr)).mono fun t s' h => h.mono fun _ h => ?_)
    exact ⟨h.1, by simpa using h.2⟩

theorem returnStatement_known (hs : s.Ready cs) (hk : s.kind ≠ .endOfFile) :
    Ensures (returnStatement rules) c s fun t s' => Known cs (t.Suits · c.place) s' := by
  have h := Known.of (hs.advance hk)
  refine .step here_eq (.step next_eq (canEndStatement_spec.bind fun b s' h' => ?_))
  subst h'
  refine .branch (P := fun o s' => Known cs (fun ks => ∀ t ∈ Option.toList o, t.Suits ks c.place) s')
    (fun _ => .pure (h.mono fun _ _ => by simp)) (fun _ => ?_) fun argument s' h => ?_
  · exact .map ((h.read (expression_brings hr)).mono fun t s' h => h.mono fun _ h => by simpa using h)
  · refine (Known.stable.semicolon h).bind fun _ s' h => ?_
    exact h.finish rfl nofun fun ks hargument => Tree.allSuit_of_mem hargument fun _ _ => rfl

omit hr in
theorem jumpStatement_known {jump : JumpKind} (hs : s.Ready cs) (hk : s.kind ≠ .endOfFile) :
    Ensures (jumpStatement jump) c s fun t s' => Known cs (t.Suits · c.place) s' := by
  have h := Known.of (hs.advance hk)
  have hname : Brings cs (c.place.withSlot .name) identifier c := identifier_brings fun _ h => h
  refine .step here_eq (.step next_eq (canEndStatement_spec.bind fun b s' h' => ?_))
  subst h'
  refine isIdentifier_spec.bind fun b' s' h' => ?_
  obtain ⟨rfl, -⟩ := h'
  refine .branch (P := fun o s' => Known cs (fun ks => ∀ t ∈ Option.toList o,
      t.Suits ks (c.place.withSlot .name)) s') (fun _ => ?_)
    (fun _ => .pure (h.mono fun _ _ => by simp)) fun label s' h => ?_
  · exact .map ((h.read hname).mono fun t s' h => h.mono fun _ h => by simpa using h)
  · refine (Known.stable.semicolon h).bind fun _ s' h => ?_
    exact h.finish rfl nofun fun ks hlabel => Tree.allSuit_of_mem hlabel fun _ _ => rfl

theorem throwStatement_known (hs : s.Ready cs) (hk : s.kind ≠ .endOfFile) :
    Ensures (throwStatement rules) c s fun t s' => Known cs (t.Suits · c.place) s' := by
  refine .step here_eq (.step next_eq (.step afterLineBreak_eq (.ite (fun _ => .fail_bind) fun _ => ?_)))
  refine (expression_brings hr s.advance (hs.advance hk)).bind fun argument s' h => ?_
  refine (Known.stable.semicolon h).bind fun _ s' h => ?_
  exact h.finish rfl nofun fun ks h => ⟨h, trivial⟩

theorem catchClause_known (hs : s.Ready cs) (hk : s.kind ≠ .endOfFile) :
    Ensures (catchClause rules) c s fun t s' => Known cs (t.Suits · c.place) s' := by
  refine .step here_eq (.step next_eq ?_)
  refine (Known.stable.acceptPunct (.of (hs.advance hk))).bind fun b s' h => ?_
  extract_lets rest
  have hrest : ∀ (o : Option Tree) s', Known cs (fun ks => ∀ t ∈ o.toList,
      t.Suits ks (c.place.withSlot .target)) s' →
      Ensures (rest o) c s' fun t s' => Known cs (t.Suits · c.place) s' := by
    intro o s' h
    refine (h.read (block_brings hr)).bind fun body s' h => ?_
    refine h.finish rfl nofun fun ks ⟨hparam, hbody⟩ => ?_
    cases o with
    | none => exact ⟨hbody, trivial⟩
    | some param => exact ⟨hparam param (by simp), hbody, trivial⟩
  clear_value rest
  refine .ite (fun _ => ?_) fun _ => .step pure_eq (hrest none s' (h.mono fun _ _ => by simp))
  refine (h.read (bindingTarget_brings hr)).bind fun param s' h => ?_
  refine (Known.stable.expectPunct h).bind fun _ s' h => .step pure_eq (hrest (some param) s' ?_)
  exact h.mono fun _ h => by simpa using h.2

theorem tryStatement_known (hs : s.Ready cs) (hk : s.kind ≠ .endOfFile) :
    Ensures (tryStatement rules) c s fun t s' => Known cs (t.Suits · c.place) s' := by
  refine .step here_eq (.step next_eq ?_)
  refine (block_brings hr s.advance (hs.advance hk)).bind fun body s' h => .step isWord_eq ?_
  refine .branch (P := fun o s' => Known cs (fun ks => body.Suits ks c.place ∧
      ∀ t ∈ Option.toList o, t.Suits ks c.place) s') (fun hcatch => ?_)
    (fun _ => .pure (h.mono fun _ h => ⟨h, by simp⟩)) fun handler s' h => ?_
  · have hk : s'.kind ≠ .endOfFile := by simp [of_decide_eq_true hcatch]
    refine .map ((h.also (catchClause_known hr h.ready hk)).mono fun t s' h => h.mono fun _ h => ?_)
    exact ⟨h.1, by simpa using h.2⟩
  refine Known.optional (Known.stable.acceptWord h) (block_brings hr) fun finalizer s' h => ?_
  refine .ite (fun _ => .fail_bind) fun _ => ?_
  refine h.finish rfl nofun fun ks ⟨⟨hbody, hhandler⟩, hfinalizer⟩ => Tree.allSuit_append.2
    ⟨Tree.allSuit_append.2 ⟨⟨hbody, trivial⟩, ?_⟩, ?_⟩
  · exact Tree.allSuit_of_mem hhandler fun _ _ => rfl
  · exact Tree.allSuit_of_mem hfinalizer fun _ _ => rfl

theorem switchCase_brings : Brings cs c.place (switchCase rules) c := by
  intro s hs
  refine .step here_eq ?_
  have htest : Ensures (caseTest rules) c s fun o s' =>
      Known cs (fun ks => ∀ t ∈ Option.toList o, t.Suits ks c.place) s' := by
    refine (Known.stable.acceptWord (.of hs)).bind fun b s' h => .ite (fun _ => ?_) fun _ => ?_
    · refine (h.read (expression_brings hr)).bind fun t s' h => .pure (h.mono fun _ h => ?_)
      simpa using h
    · refine (Known.stable.acceptWord h).bind fun b s' h => .ite (fun _ => ?_) fun _ => .fail
      exact .pure (h.mono fun _ _ => by simp)
  refine htest.bind fun test s' h => (Known.stable.expectPunct h).bind fun _ s' h => ?_
  refine (collect_spec (I := fun (ts : List Tree) s' => Known cs (fun ks =>
    (∀ t ∈ test.toList, t.Suits ks c.place) ∧ ∀ t ∈ ts, t.Suits ks c.place) s') ?_
    (h.mono fun _ h => ⟨h, by simp⟩)).bind fun ts s' h => ?_
  · intro ts s h
    refine .step kind_eq ?_
    split
    · exact .pure (by simpa using h)
    · exact .pure (by simpa using h)
    · exact .pure (by simpa using h)
    · exact .pure (by simpa using h)
    · refine (h.read (hr.statement c)).bind fun t s' h => .pure (h.mono fun ks hall => ⟨hall.1.1, ?_⟩)
      have hboth := And.intro hall.1.2 hall.2
      simpa [or_imp, forall_and] using hboth
  · exact h.finish rfl nofun fun ks ⟨htest, hts⟩ => Tree.allSuit_append.2
      ⟨Tree.allSuit_of_mem htest fun _ _ => rfl, Tree.allSuit_of_mem hts fun _ _ => rfl⟩

theorem switchStatement_known (hs : s.Ready cs) (hk : s.kind ≠ .endOfFile) :
    Ensures (switchStatement rules) c s fun t s' => Known cs (t.Suits · c.place) s' := by
  refine .step here_eq (.step next_eq ?_)
  refine (condition_known hr (.of (hs.advance hk))).bind fun t s' h => ?_
  refine (Known.stable.expectPunct h).bind fun _ s' h => ?_
  refine (collect_until (I := fun (ts : List Tree) s' => Known cs (fun ks =>
    t.Suits ks c.place.enclosed ∧ ∀ t ∈ ts, t.Suits ks c.place) s')
    (Q := fun s' => s'.kind = .punct .closeBrace) ?_ (h.mono fun _ h => ⟨h.2, by simp⟩)).bind
    fun ts s' ⟨h, hclose⟩ => .step next_eq ?_
  · intro ts s h
    refine .step isPunct_eq (.ite (fun hclose => ?_) fun _ => ?_)
    · exact .pure ⟨by simpa using h, fun _ => of_decide_eq_true hclose⟩
    · refine (h.read (switchCase_brings hr)).bind fun t s' h =>
        .pure ⟨h.mono fun ks hall => ⟨hall.1.1, ?_⟩, nofun⟩
      have hboth := And.intro hall.1.2 hall.2
      simpa [or_imp, forall_and] using hboth
  · refine (Known.stable.advance h (by simp [hclose])).finish rfl nofun fun ks ⟨ht, hts⟩ => ⟨ht, ?_⟩
    refine Tree.allSuit_of_mem hts fun j _ => ?_
    simp [Place.into, Form.encloses, Form.startsLoop, Form.owner?, Form.above, Slot.into, Context.place]

theorem withStatement_known (hs : s.Ready cs) (hk : s.kind ≠ .endOfFile) :
    Ensures (withStatement rules) c s fun t s' => Known cs (t.Suits · c.place) s' := by
  refine .step here_eq (.step next_eq ?_)
  refine (condition_known hr (.of (hs.advance hk))).bind fun object s' h => ?_
  refine (h.read (hr.statement c)).bind fun body s' h => ?_
  exact h.finish rfl nofun fun ks ⟨⟨_, hobject⟩, hbody⟩ => ⟨hobject, hbody, trivial⟩

theorem labeledStatement_brings : Brings cs c.place (labeledStatement rules) c := by
  intro s hs
  have hname : Brings cs (c.place.withSlot .name) identifier c := identifier_brings fun _ h => h
  refine .step here_eq ((hname s hs).bind fun label s' h => ?_)
  refine (Known.stable.expectPunct h).bind fun _ s' h => ?_
  refine (h.read (hr.statement c)).bind fun body s' h => ?_
  exact h.finish rfl nofun fun ks ⟨hlabel, hbody⟩ => ⟨hlabel, hbody, trivial⟩

theorem expressionStatement_brings : Brings cs c.place (expressionStatement rules) c := by
  intro s hs
  refine .step here_eq ((expression_brings hr s hs).bind fun e s' h => ?_)
  refine (Known.stable.semicolon h).bind fun _ s' h => ?_
  exact h.finish rfl nofun fun ks he => ⟨he, trivial⟩

/-- A loop over a collection, from `in` or `of` on. -/
theorem forEach_known {each : Iteration} {left : Tree} {start : Nat}
    (h : Known cs (left.Suits · ((Context.place { c with noIn := true }).withSlot .head)) s)
    (hk : s.kind ≠ .endOfFile) : Ensures (do
      next
      let right ← withIn (if each = .values then rules .assignment else expression rules)
      expectPunct .closeParen
      let body ← rules .statement
      finish start (.forEach each left right body)) c s fun t s' =>
        Known cs (t.Suits · c.place) s' := by
  have hright : Brings cs c.place.enclosed
      (withIn (if each = .values then rules .assignment else expression rules)) c := fun s hs =>
    .withIn <| .ite (fun _ => hr.assignment _ s hs) fun _ => expression_brings hr s hs
  refine .step next_eq (((Known.stable.advance h hk).read hright).bind fun right s' h => ?_)
  refine (Known.stable.expectPunct h).bind fun _ s' h => ?_
  refine (h.read (hr.statement c)).bind fun body s' h => ?_
  exact h.finish rfl nofun fun ks ⟨⟨hleft, hright⟩, hbody⟩ => ⟨hleft, hright, hbody, trivial⟩

/-- A loop that counts, from its first semicolon on. -/
theorem forLoop_known {init : Option Tree} {start : Nat}
    (h : Known cs (fun ks => ∀ t ∈ init.toList, t.Suits ks (Context.place { c with noIn := true })) s) :
    Ensures (do
      expectPunct .semicolon
      let test ← optionalExpression rules .semicolon
      expectPunct .semicolon
      let step ← optionalExpression rules .closeParen
      expectPunct .closeParen
      let body ← rules .statement
      finish start (.forLoop init test step body)) c s fun t s' =>
        Known cs (t.Suits · c.place) s' := by
  refine (Known.stable.expectPunct h).bind fun _ s' h => ?_
  refine (optionalExpression_known hr h).bind fun test s' h => ?_
  refine (Known.stable.expectPunct h).bind fun _ s' h => ?_
  refine (optionalExpression_known hr h).bind fun step s' h => ?_
  refine (Known.stable.expectPunct h).bind fun _ s' h => ?_
  refine (h.read (hr.statement c)).bind fun body s' h => ?_
  refine h.finish rfl nofun fun ks ⟨⟨⟨hinit, htest⟩, hstep⟩, hbody⟩ => ?_
  have hlength (o : Option Tree) : o.toList.length = Form.count o := by cases o <;> rfl
  have hbehind {j : Nat} (hj : Form.count init ≤ j) :
      c.place.into (.forLoop init test step body) j = c.place := by
    simp [Place.into, Form.encloses, Form.startsLoop, Form.owner?, Form.above, Slot.into,
      Nat.not_lt.2 hj, Context.place]
  refine Tree.allSuit_append.2 ⟨Tree.allSuit_append.2 ⟨Tree.allSuit_append.2 ⟨?_, ?_⟩, ?_⟩, ?_, trivial⟩
  · refine Tree.allSuit_of_mem hinit fun j hj => ?_
    rw [hlength] at hj
    simp [Place.into, Form.encloses, Form.startsLoop, Form.owner?, Form.above, Slot.into, hj,
      Context.place]
  · exact Tree.allSuit_of_mem htest fun j _ => hbehind (by rw [hlength]; omega)
  · refine Tree.allSuit_of_mem hstep fun j _ => hbehind ?_
    rw [List.length_append, hlength]
    omega
  · rw [hbehind]
    · exact hbody
    · rw [List.length_append, List.length_append, hlength init]
      omega

theorem forStatement_known (hs : s.Ready cs) (hk : s.kind ≠ .endOfFile) :
    Ensures (forStatement rules) c s fun t s' => Known cs (t.Suits · c.place) s' := by
  refine .step here_eq (.step next_eq ?_)
  refine (Known.stable.expectPunct (.of (hs.advance hk))).bind fun _ s' h => ?_
  refine .bind (P := fun (o : Option Tree) s' => Known cs (fun ks => ∀ t ∈ o.toList,
    t.Suits ks (Context.place { c with noIn := true })) s') ?_ fun init s' h => .step kind_eq ?_
  · refine .withoutIn (.step isPunct_eq (.ite (fun _ => .pure (h.mono fun _ _ => by simp))
      fun _ => ?_))
    refine declarationKeyword?_spec.bind fun o s'' ⟨hsame, hk⟩ => ?_
    have h := Known.stable.same h hsame
    cases o with
    | none =>
      exact .map ((h.read (expression_brings hr)).mono fun t s' h => h.mono fun _ h => by
        simpa using h)
    | some keyword =>
      obtain ⟨k, hword, -⟩ := (hk rfl).same hsame
      refine .map ((declarators_known hr h.ready (by simp [hword])).mono fun t s' ⟨_, h⟩ => ?_)
      refine h.mono fun ks hall => ?_
      have hself : t.withRange t.start t.stop = t := by cases t; rfl
      have ht := hall t.start t.stop
      rw [hself] at ht
      simpa using ht
  extract_lets rest
  have hrest : ∀ each, (each.isSome = true → s'.kind ≠ .endOfFile) →
      Ensures (rest each) c s' fun t s' => Known cs (t.Suits · c.place) s' := by
    intro each hk
    dsimp only [rest]
    split
    · next left each =>
      have hleft : Known cs (left.Suits · (Context.place { c with noIn := true })) s' :=
        h.mono fun _ h => h left List.mem_cons_self
      split
      · next keyword ds hform =>
        exact .step pure_eq (forEach_known hr (hleft.mono fun _ h => suits_head h hform) (hk rfl))
      · refine (target_known hleft).bind ?_
        rintro u t ⟨rfl, hu⟩
        refine forEach_known hr (hu.mono fun _ h => ?_) (hk rfl)
        exact h.weaken (Place.Milder.withSlot (Context.place _) .target_head)
    · exact forLoop_known hr h
  clear_value rest
  split
  · next hk => exact .step pure_eq (hrest _ fun _ => by simp [hk])
  · next hk => exact .step pure_eq (hrest _ fun _ => by simp [hk])
  · exact .step pure_eq (hrest _ nofun)

theorem plainStatement_brings : Brings cs c.place (plainStatement rules) c := by
  intro s hs
  refine isIdentifier_spec.bind fun b s' h => ?_
  obtain ⟨rfl, -⟩ := h
  refine .branch (P := fun _ t => s'.Same t) (fun _ => lookAhead_spec) (fun _ => .pure (.refl s'))
    fun labeled t hsame => .ite (fun _ => ?_) fun _ => ?_
  · exact (labeledStatement_brings hr).after hs hsame
  · exact (expressionStatement_brings hr).after hs hsame

theorem statement_brings : Brings cs c.place (statement rules) c := by
  intro s hs
  refine .step here_eq (.step kind_eq ?_)
  have hplain : Brings cs c.place (plainStatement rules) c := plainStatement_brings hr
  have hfunction : Brings cs (c.place.tighter 0) (function rules .declaration) c :=
    function_brings hr (by decide)
  have hclass : Brings cs (c.place.tighter 0) (classBody rules .declaration) c := classBody_brings hr
  split
  · exact block_brings hr s hs
  · next hk => exact .step next_eq ((Known.of (hs.advance (by simp [hk]))).leaf rfl rfl)
  · next hk => exact variableStatement_known hr hs (by simp [hk])
  · next hk => exact variableStatement_known hr hs (by simp [hk])
  · next hk =>
    refine lookAhead_spec.bind fun b s' hsame => .ite (fun _ => ?_) fun _ => hplain.after hs hsame
    have hk : s'.kind = .word .kLet := hsame.kind.trans hk
    exact variableStatement_known hr (hsame.ready hs) (by simp [hk])
  · exact hfunction s hs
  · next hk =>
    refine lookAhead_spec.bind fun b s' hsame => .ite (fun _ => ?_) fun _ => hplain.after hs hsame
    exact hfunction.after hs hsame
  · exact hclass s hs
  · next hk => exact ifStatement_known hr hs (by simp [hk])
  · next hk => exact forStatement_known hr hs (by simp [hk])
  · next hk => exact whileStatement_known hr hs (by simp [hk])
  · next hk => exact doStatement_known hr hs (by simp [hk])
  · next hk => exact returnStatement_known hr hs (by simp [hk])
  · next hk => exact jumpStatement_known hs (by simp [hk])
  · next hk => exact jumpStatement_known hs (by simp [hk])
  · next hk => exact throwStatement_known hr hs (by simp [hk])
  · next hk => exact tryStatement_known hr hs (by simp [hk])
  · next hk => exact switchStatement_known hr hs (by simp [hk])
  · next hk => exact withStatement_known hr hs (by simp [hk])
  · next hk =>
    refine .step next_eq ((Known.stable.semicolon (.of (hs.advance (by simp [hk])))).bind fun _ s' h => ?_)
    exact h.leaf rfl rfl
  · exact .fail
  · exact .fail
  · exact hplain s hs

end Placing

/-! ## Programs -/

/-- One round of the grammar. -/
theorem rule_placing (hr : Placing cs rules) : Placing cs (rule rules) where
  sound := rule_sound hr.sound
  statement _ := .nested (statement_brings hr)
  assignment _ := .nested (assignment_brings hr)
  unary _ := unary_brings hr
  binary _ _ hle _ hs := binary_known hr hs hle
  leftHandSide _ := leftHandSide_brings hr
  new _ := newExpression_brings hr
  bindingTarget _ := bindingTarget_brings hr

theorem rules_placing (cs : List Char) (depth : Nat) : Placing cs (Grammar.rules depth) := by
  induction depth with
  | zero =>
    constructor
    case sound => exact rules_sound cs 0
    all_goals
      intros
      first | exact fun _ _ => .fail | exact .fail
  | succ depth ih => exact rule_placing ih

/-- All statements of a program suit the place of its context, and the tokens passed are those of the
text. -/
theorem statements_known {depth : Nat} :
    Ensures (collect (programItem (Grammar.rules depth))) c (firstTrack cs) fun ts s' =>
        Known cs (fun ks => ∀ t ∈ ts, t.Suits ks c.place) s' ∧ s'.kind = .endOfFile := by
  refine collect_until (I := fun (ts : List Tree) s' =>
    Known cs (fun ks => ∀ t ∈ ts, t.Suits ks c.place) s')
    (Q := fun s' => s'.kind = .endOfFile) (fun ts s h => ?_)
    ((Known.of (firstTrack_ready cs)).mono fun _ _ => by simp)
  refine .step isEnd_eq (.ite (fun hend => ?_) fun _ => ?_)
  · exact .pure ⟨by simpa using h, fun _ => of_decide_eq_true hend⟩
  · refine (h.read ((rules_placing cs depth).statement c)).bind fun t s' h =>
      .pure ⟨h.mono fun ks hall => ?_, nofun⟩
    simpa [or_imp, forall_and] using hall

/-- All nodes of an accepted text are admitted where they stand. -/
theorem parse_suits (h : parse source = .ok t) : ∃ ks, Tokens source ks ∧ t.Suits ks {} := by
  have hspec (c : Context) (hc : c.place = {}) (depth : Nat) : Ensures
      (programBody (Grammar.rules depth) (Text.size source)) c (firstTrack source)
        fun (t : Tree) _ => ∃ ks, Tokens source ks ∧ t.Suits ks {} := by
    refine statements_known.bind fun ts s' ⟨h, hend⟩ => .step lexer_eq (.pure ?_)
    refine ⟨s'.past, ⟨s'.lexer, h.ready.lexed, hend⟩, Tree.suits_ofForm.2 ⟨rfl, ?_, ?_⟩⟩
    · exact Tree.operates_of_not_binary nofun
    · exact Tree.allSuit_of_mem (hc ▸ h.known _ List.prefix_rfl) fun _ _ => rfl
  obtain ⟨s, hprogram⟩ := program_of_parse h
  -- The first step of the reader leads to the first token.
  obtain ⟨-, -, hsuits⟩ := hspec _ rfl _ t s hprogram
  exact hsuits

end LoopClosure.Grammar
