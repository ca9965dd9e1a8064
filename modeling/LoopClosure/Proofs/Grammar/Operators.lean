import LoopClosure.Proofs.Grammar.Placing.Statement
import LoopClosure.Proofs.Success

/-!
# How binary operators group

A `Grouping` puts parentheses into a row of operands and operators. It `Respects` the strength of the
operators if the operators in an operand of another one bind as tight as this one asks.

- `Grouping.Respects.unique`: a row has only one such grouping.
- `Nodes.Groups ns g i`: node `i` groups its operands as `g` does.
- `Nodes.Spells ns ks row ws`: the tokens `ws` are the operators of the row and the tokens of its
  operands.
- `parse_grouped`: in an accepted program each binary operator is grouped as in the only grouping of
  its row that respects the strength of operators, the row is spelled by its tokens
  (`Nodes.WellGrouped`), and at the start of a loop `in` is an operator between brackets only.
-/

namespace LoopClosure

open Token Syntax

namespace Token.Kind

/-- The precedence an operand has to have is at most one below that of its operator. -/
theorem le_leftAbove {above : Nat} {op : Kind} (h : above < op.precedence true) :
    above ≤ op.leftAbove := by
  have hle := op.precedence_le true
  unfold leftAbove
  split <;> omega

theorem le_rightAbove {above : Nat} {op : Kind} (h : above < op.precedence true) :
    above ≤ op.rightAbove := by
  unfold rightAbove
  split <;> omega

/-- An operator in the right operand of another does not have that one in its left operand. -/
theorem precedence_le_leftAbove {op op' : Kind} (h : op.rightAbove < op'.precedence true) :
    op.precedence true ≤ op'.leftAbove := by
  unfold rightAbove at h
  split at h
  · next hop =>
    subst hop
    have htight : Kind.precedence true (.punct .starStar) = 12 := rfl
    rw [htight] at h
    have hleft : op'.leftAbove = 12 := by rw [leftAbove, if_pos (eq_starStar h)]
    exact Nat.le_of_eq (htight.trans hleft.symm)
  · exact le_leftAbove h

end Token.Kind

namespace Syntax

/-- Operands and operators, with parentheses. -/
inductive Grouping (α : Type) where
  | operand (a : α)
  | apply (op : Kind) (left right : Grouping α)
deriving DecidableEq

namespace Grouping

variable {α : Type} {g g' : Grouping α} {above : Nat} {op : Kind}

/-- Operands and operators without parentheses. -/
def row : Grouping α → List (α ⊕ Kind)
  | operand a => [.inl a]
  | apply op left right => left.row ++ .inr op :: right.row

/-- Each operator binds as tight as the one around it asks. -/
def Respects (above : Nat) : Grouping α → Prop
  | operand _ => True
  | apply op left right =>
    above < op.precedence true ∧ left.Respects op.leftAbove ∧ right.Respects op.rightAbove

theorem row_ne_nil (g : Grouping α) : g.row ≠ [] := by
  cases g <;> simp [row]

namespace Respects

theorem weaken {above' : Nat} (h : g.Respects above) (hle : above' ≤ above) : g.Respects above' := by
  cases g with
  | operand a => trivial
  | apply op left right => exact ⟨Nat.lt_of_le_of_lt hle h.1, h.2⟩

theorem lt_of_mem (h : g.Respects above) (hop : .inr op ∈ g.row) : above < op.precedence true := by
  induction g generalizing above with
  | operand a => simp [row] at hop
  | apply op' left right ihl ihr =>
    obtain ⟨hlt, hleft, hright⟩ := h
    rcases List.mem_append.1 hop with hop | hop
    · exact ihl (hleft.weaken (Kind.le_leftAbove hlt)) hop
    · rcases List.mem_cons.1 hop with heq | hop
      · cases heq
        exact hlt
      · exact ihr (hright.weaken (Kind.le_rightAbove hlt)) hop

/-- Two operators of a row are not each in an operand of the other. -/
theorem not_crossed {op' : Kind} (h : g.Respects op.rightAbove)
    (h' : g'.Respects op'.leftAbove) (hmem : .inr op' ∈ g.row) (hmem' : .inr op ∈ g'.row) :
    False :=
  Nat.lt_irrefl _ <|
    Nat.lt_of_lt_of_le (h'.lt_of_mem hmem') (Kind.precedence_le_leftAbove (h.lt_of_mem hmem))

/-- A row has one grouping that respects the strength of its operators. -/
theorem unique (h : g.Respects above) (h' : g'.Respects above) (hrow : g.row = g'.row) :
    g = g' := by
  have hlong {a : α} {op : Kind} {l r : Grouping α} :
      (operand a).row ≠ (apply op l r).row := by
    intro heq
    rcases List.append_eq_singleton_iff.1 heq.symm with ⟨hnil, -⟩ | ⟨-, hnil⟩
    · exact l.row_ne_nil hnil
    · cases hnil
  induction g generalizing above g' with
  | operand a =>
    cases g' with
    | operand a' =>
      cases hrow
      rfl
    | apply op' l' r' => exact absurd hrow hlong
  | apply op l r ihl ihr =>
    cases g' with
    | operand a' => exact absurd hrow.symm hlong
    | apply op' l' r' =>
      obtain ⟨-, hl, hr⟩ := h
      obtain ⟨-, hl', hr'⟩ := h'
      have same (hleft : l.row = l'.row) (hright : (.inr op :: r.row : List (α ⊕ Kind)) =
          .inr op' :: r'.row) : apply op l r = apply op' l' r' := by
        cases (List.cons.inj hright).1
        rw [ihl hl hl' hleft, ihr hr hr' (List.cons.inj hright).2]
      -- Unless the rows are cut in one place, one of the operators lies in the operand of the other.
      rcases List.append_eq_append_iff.1 hrow with ⟨m, hleft, hright⟩ | ⟨m, hleft, hright⟩
      · cases m with
        | nil => exact same (by rw [hleft, List.append_nil]) hright
        | cons x m =>
          obtain ⟨rfl, htail⟩ := List.cons.inj hright
          refine (not_crossed hr hl' ?_ ?_).elim
          · rw [htail]
            exact List.mem_append_right _ List.mem_cons_self
          · rw [hleft]
            exact List.mem_append_right _ List.mem_cons_self
      · cases m with
        | nil => exact same (by rw [hleft, List.append_nil]) hright.symm
        | cons x m =>
          obtain ⟨rfl, htail⟩ := List.cons.inj hright
          refine (not_crossed hr' hl ?_ ?_).elim
          · rw [htail]
            exact List.mem_append_right _ List.mem_cons_self
          · rw [hleft]
            exact List.mem_append_right _ List.mem_cons_self

end Respects

end Grouping

/-! ## Rows of tokens -/

/-- The tokens in a range. -/
def tokensIn (ks : List Lexeme) (start stop : Nat) : List Lexeme :=
  ks.filter fun k => decide (start ≤ k.start ∧ k.stop ≤ stop)

section Range

variable {ks : List Lexeme} {a b c d : Nat} {k : Lexeme}

theorem tokensIn_congr (h : ∀ k ∈ ks, (a ≤ k.start ∧ k.stop ≤ b ↔ c ≤ k.start ∧ k.stop ≤ d)) :
    tokensIn ks a b = tokensIn ks c d :=
  List.filter_congr fun k hk => decide_eq_decide.2 (h k hk)

theorem tokensIn_append (ks ls : List Lexeme) :
    tokensIn (ks ++ ls) a b = tokensIn ks a b ++ tokensIn ls a b := List.filter_append ..

theorem tokensIn_eq_nil (h : ∀ k ∈ ks, a ≤ k.start → b < k.stop) : tokensIn ks a b = [] :=
  List.filter_eq_nil_iff.2 fun k hk hin =>
    Nat.not_le_of_lt (h k hk (of_decide_eq_true hin).1) (of_decide_eq_true hin).2

theorem tokensIn_cons (h : a ≤ k.start) (h' : k.stop ≤ b) :
    tokensIn (k :: ks) a b = k :: tokensIn ks a b :=
  List.filter_cons_of_pos (decide_eq_true ⟨h, h'⟩)

theorem tokensIn_cons_outside (h : a ≤ k.start → b < k.stop) :
    tokensIn (k :: ks) a b = tokensIn ks a b :=
  List.filter_cons_of_neg fun hin =>
    Nat.not_le_of_lt (h (of_decide_eq_true hin).1) (of_decide_eq_true hin).2

/-- The tokens of two operands, with the operator between them. -/
theorem Joined.tokensIn {source : List Char} {op : Kind} (h : Joined ks op a b c d)
    (hks : Tokens source ks) :
    ∃ k, k.kind = op ∧ tokensIn ks a d = tokensIn ks a b ++ k :: tokensIn ks c d := by
  obtain ⟨hleft, hright, pre, k, r, post, rfl, hkind, hpre, hk, rfl⟩ := h
  obtain ⟨hsorted, hfull⟩ := hks.ordered
  obtain ⟨hbehind, hsorted⟩ := List.pairwise_cons.1 (List.pairwise_append.1 hsorted).2.1
  have hfront (x : Lexeme) (hx : x ∈ pre) : x.start < x.stop ∧ x.stop ≤ b :=
    ⟨hfull x (List.mem_append_left _ hx), hpre x hx⟩
  have hmiddle : k.start < k.stop ∧ k.stop ≤ r.start :=
    ⟨hfull k (by simp), hbehind r List.mem_cons_self⟩
  have hback (x : Lexeme) (hx : x ∈ r :: post) : r.start ≤ x.start ∧ x.start < x.stop := by
    refine ⟨?_, hfull x (List.mem_append_right _ (List.mem_cons_of_mem _ hx))⟩
    rcases List.mem_cons.1 hx with rfl | hx
    · exact Nat.le_refl _
    · have hr := hfull r (by simp)
      exact Nat.le_trans (Nat.le_of_lt hr) ((List.pairwise_cons.1 hsorted).1 x hx)
  refine ⟨k, hkind, ?_⟩
  have hpre : Syntax.tokensIn pre a d = Syntax.tokensIn pre a b :=
    tokensIn_congr fun x hx => by have := hfront x hx; omega
  have hpost : Syntax.tokensIn (r :: post) a d = Syntax.tokensIn (r :: post) r.start d :=
    tokensIn_congr fun x hx => by have := hback x hx; omega
  have hnoPost : Syntax.tokensIn (r :: post) a b = [] :=
    tokensIn_eq_nil fun x hx => by have := hback x hx; omega
  have hnoPre : Syntax.tokensIn pre r.start d = [] :=
    tokensIn_eq_nil fun x hx => by have := hfront x hx; omega
  rw [tokensIn_append, tokensIn_append, tokensIn_append, tokensIn_cons (k := k) (by omega) (by omega),
    tokensIn_cons_outside (k := k) (by omega), tokensIn_cons_outside (k := k) (by omega), hpre,
    hpost, hnoPost, hnoPre, List.append_nil, List.nil_append]

end Range

namespace Nodes

variable {ns : Nodes} {ks : List Lexeme} {top p : Place} {t : Tree} {i l r : NodeId} {op : Kind}
  {form : Form NodeId} {source : List Char}

/-- The node groups what is no binary operator of it as the grouping does. -/
inductive Groups (ns : Nodes) : Grouping NodeId → NodeId → Prop where
  | operand {i : NodeId} {form : Form NodeId} (hf : ns.form? i = some form)
    (h : ∀ op l r, form ≠ .binary op l r) : ns.Groups (.operand i) i
  | apply {i l r : NodeId} {op : Kind} {left right : Grouping NodeId}
    (hf : ns.form? i = some (.binary op l r)) (hleft : ns.Groups left l)
    (hright : ns.Groups right r) : ns.Groups (.apply op left right) i

/-- The tokens are those of the operands and the operators, in their order. -/
inductive Spells (ns : Nodes) (ks : List Lexeme) : List (NodeId ⊕ Kind) → List Lexeme → Prop where
  | nil : ns.Spells ks [] []
  | operand {i : NodeId} {n : Node} {row : List (NodeId ⊕ Kind)} {ws : List Lexeme}
    (hn : ns.get? i = some n) (h : ns.Spells ks row ws) :
    ns.Spells ks (.inl i :: row) (tokensIn ks n.start n.stop ++ ws)
  | operator {k : Lexeme} {row : List (NodeId ⊕ Kind)} {ws : List Lexeme}
    (h : ns.Spells ks row ws) : ns.Spells ks (.inr k.kind :: row) (k :: ws)

theorem Spells.append {row row' : List (NodeId ⊕ Kind)} {ws ws' : List Lexeme}
    (h : ns.Spells ks row ws) (h' : ns.Spells ks row' ws') :
    ns.Spells ks (row ++ row') (ws ++ ws') := by
  induction h with
  | nil => exact h'
  | operand hn _ ih => exact List.append_assoc _ _ _ ▸ .operand hn ih
  | operator _ ih => exact .operator ih

/-- The node stands where the table of precedences puts it. -/
structure WellGrouped (ns : Nodes) (ks : List Lexeme) (i : NodeId) (op : Kind) (l r : NodeId) :
    Prop where
  /-- An operator in the left operand binds as tight, and there is none in front of `**`. -/
  left : ∀ op' a b, ns.form? l = some (.binary op' a b) →
    op ≠ .punct .starStar ∧ op.precedence true ≤ op'.precedence true
  /-- One in the right operand binds tighter, and behind `**` it is another `**`. -/
  right : ∀ op' a b, ns.form? r = some (.binary op' a b) →
    if op = .punct .starStar then op' = .punct .starStar
    else op.precedence true < op'.precedence true
  /-- The operands and operators are the tokens, and are grouped in the one way there is. -/
  row : ∃ g n, ns.Groups g i ∧ g.Respects 0 ∧
    (∀ g' : Grouping NodeId, g'.Respects 0 → g'.row = g.row → g' = g) ∧ ns.get? i = some n ∧
    ns.Spells ks g.row (tokensIn ks n.start n.stop)

/-- Around the node there are brackets, which lie inside the outer one. -/
def Bracketed (ns : Nodes) (outer i : NodeId) : Prop :=
  ∃ x form j c, ns.Inside outer x ∧ ns.form? x = some form ∧ form.encloses j = true ∧
    form.children[j]? = some c ∧ ns.Inside c i

namespace StandsIn

variable (ht : t.WellFormed)
include ht

/-- Outside of brackets `in` is no operator where it is none around. -/
theorem noIn_or_bracketed {c : NodeId} (h : (ofTree t).StandsIn top c p) (hp : p.noIn = true)
    (hinside : (ofTree t).Inside c i) :
    (∃ q, (ofTree t).StandsIn top i q ∧ q.noIn = true) ∨ (ofTree t).Bracketed c i := by
  induction hinside with
  | refl => exact .inl ⟨p, h, hp⟩
  | @up i o ho hinside ih =>
    rcases ih with ⟨q, hq, hnoIn⟩ | ⟨x, form, j, y, hx, hform, hj, hy, hinner⟩
    · obtain ⟨form, hform, hmem⟩ := exists_form?_of_parent? (wellFormed_ofTree ht) ho
      obtain ⟨j, hj⟩ := List.mem_iff_getElem?.1 hmem
      cases hencloses : form.encloses j with
      | false =>
        refine .inl ⟨_, .child hq hform hj, ?_⟩
        simp only [Place.into, hencloses, hnoIn, Bool.or_true, Bool.not_false, Bool.and_true]
      | true => exact .inr ⟨o, form, j, i, hinside, hform, hencloses, hj, .refl⟩
    · exact .inr ⟨x, form, j, y, hx, hform, hj, hy, .up ho hinner⟩

variable (hs : t.Suits ks top)
include hs

/-- An operator binds tighter than its place asks. -/
theorem above_lt {l r : NodeId} (h : (ofTree t).StandsIn top i p)
    (hf : (ofTree t).form? i = some (.binary op l r)) : p.above < op.precedence !p.noIn :=
  of_decide_eq_true (Bool.and_eq_true_iff.1 (h.admits ht hs hf)).2

theorem exists_groups (hks : Tokens source ks) (h : (ofTree t).StandsIn top i p)
    (hf : (ofTree t).form? i = some form) : ∃ g n, (ofTree t).Groups g i ∧ g.Respects p.above ∧
      (ofTree t).get? i = some n ∧ (ofTree t).Spells ks g.row (tokensIn ks n.start n.stop) := by
  induction hm : (ofTree t).size - i using Nat.strongRecOn generalizing i p form with
  | ind m ih =>
    subst hm
    obtain ⟨n, hn, hform⟩ := Option.map_eq_some_iff.1 hf
    have hnot (hform : ∀ op l r, form ≠ .binary op l r) :
        ∃ g n, (ofTree t).Groups g i ∧ g.Respects p.above ∧ (ofTree t).get? i = some n ∧
          (ofTree t).Spells ks g.row (tokensIn ks n.start n.stop) := by
      refine ⟨.operand i, n, .operand hf hform, trivial, hn, ?_⟩
      rw [← List.append_nil (tokensIn ks n.start n.stop)]
      exact .operand hn .nil
    cases form with
    | binary op l r =>
      have behind {c : NodeId} (hlt : i < c) {f : Form NodeId} (hc : (ofTree t).form? c = some f) :
          (ofTree t).size - c < (ofTree t).size - i := by
        obtain ⟨m, hm, -⟩ := Option.map_eq_some_iff.1 hc
        exact Nat.sub_lt_sub_left (Nat.lt_trans hlt (Array.getElem?_eq_some_iff.1 hm).1) hlt
      obtain ⟨hl, hil, fl, hfl⟩ := h.kid (c := l) (j := 0) ht hf rfl
      obtain ⟨hr, hir, fr, hfr⟩ := h.kid (c := r) (j := 1) ht hf rfl
      obtain ⟨gl, nl, hgl, hrl, hnl, hsl⟩ := ih _ (behind hil hfl) hl hfl rfl
      obtain ⟨gr, nr, hgr, hrr, hnr, hsr⟩ := ih _ (behind hir hfr) hr hfr rfl
      obtain ⟨hstart, hstop, hjoined⟩ := h.operates ht hs hn hform hnl hnr
      obtain ⟨k, rfl, htokens⟩ := hjoined.tokensIn hks
      have hlt := Nat.lt_of_lt_of_le (h.above_lt ht hs hf) (Kind.precedence_le_true _ _)
      refine ⟨.apply k.kind gl gr, n, .apply hf hgl hgr, ⟨hlt, hrl, hrr⟩, hn, ?_⟩
      rw [← hstart, ← hstop, htokens]
      exact hsl.append (.operator hsr)
    | _ => exact hnot nofun

theorem wellGrouped (hks : Tokens source ks) (h : (ofTree t).StandsIn top i p)
    (hf : (ofTree t).form? i = some (.binary op l r)) : (ofTree t).WellGrouped ks i op l r := by
  have hpos : 0 < op.precedence true :=
    Nat.lt_of_le_of_lt (Nat.zero_le _)
      (Nat.lt_of_lt_of_le (h.above_lt ht hs hf) (Kind.precedence_le_true _ _))
  have tighter {j : Nat} {c a b : NodeId} {op' : Kind}
      (hc : (Form.binary op l r).children[j]? = some c)
      (hf' : (ofTree t).form? c = some (.binary op' a b)) :
      (Form.binary op l r).above j < op'.precedence true :=
    Nat.lt_of_lt_of_le ((h.kid ht hf hc).1.above_lt ht hs hf') (Kind.precedence_le_true _ _)
  refine ⟨fun op' a b hf' => ?_, fun op' a b hf' => ?_, ?_⟩
  · have hlt : op.leftAbove < op'.precedence true := tighter (j := 0) rfl hf'
    have hle := op'.precedence_le true
    unfold Kind.leftAbove at hlt
    split at hlt
    · omega
    · next hne => exact ⟨hne, by omega⟩
  · have hlt : op.rightAbove < op'.precedence true := tighter (j := 1) rfl hf'
    unfold Kind.rightAbove at hlt
    split at hlt
    · next hop =>
      subst hop
      rw [if_pos rfl]
      exact Kind.eq_starStar hlt
    · next hne => rwa [if_neg hne]
  · obtain ⟨g, n, hg, hrespects, hn, hspells⟩ := h.exists_groups ht hs hks hf
    have hrespects := hrespects.weaken (Nat.zero_le _)
    exact ⟨g, n, hg, hrespects, fun g' h' hrow => h'.unique hrespects hrow, hn, hspells⟩

end StandsIn

end Nodes

end Syntax

namespace Grammar

open Nodes

variable {source : List Char} {t : Tree}

/-- Binary operators are grouped as the table of precedences says, and at the start of a loop `in` is
an operator between brackets only. -/
theorem parse_grouped (h : parse source = .ok t) : ∃ ks, Tokens source ks ∧
    (∀ i op l r, (ofTree t).form? i = some (.binary op l r) →
      (ofTree t).WellGrouped ks i op l r) ∧
    ∀ loop form c i l r, (ofTree t).form? loop = some form → form.startsLoop 0 = true →
      form.children[0]? = some c → (ofTree t).Inside c i →
      (ofTree t).form? i = some (.binary (.word .kIn) l r) → (ofTree t).Bracketed c i := by
  have ht := parse_wellFormed h
  obtain ⟨ks, hks, hs⟩ := parse_suits h
  have stands {i : NodeId} {form : Form NodeId} (hf : (ofTree t).form? i = some form) :
      ∃ p, (ofTree t).StandsIn {} i p := by
    obtain ⟨n, hn, -⟩ := Option.map_eq_some_iff.1 hf
    exact exists_standsIn ht {} hn
  refine ⟨ks, hks, fun i op l r hf => ?_, fun loop form c i l r hf hstarts hc hinside hin => ?_⟩
  · obtain ⟨p, hp⟩ := stands hf
    exact hp.wellGrouped ht hs hks hf
  · obtain ⟨p, hp⟩ := stands hf
    have hnoIn : (p.into form 0).noIn = true := by
      have hencloses : form.encloses 0 = false := by
        cases form <;> first | rfl | cases hstarts
      simp only [Place.into, hencloses, hstarts, Bool.not_false, Bool.true_or, Bool.and_true]
    rcases (hp.kid ht hf hc).1.noIn_or_bracketed ht hnoIn hinside with ⟨q, hq, hnoIn⟩ | hbracketed
    · have hlt := hq.above_lt ht hs hin
      rw [hnoIn] at hlt
      exact absurd hlt (Nat.not_lt_zero _)
    · exact hbracketed

/-- Operators that group to the left and to the right, and an `in` between parentheses. -/
def sumInLoop : List Char := "for (let i = a - b - c ** d ** (k in o); ;) ;".toList

theorem parse_grouped_sumInLoop : ∃ t ks, parse sumInLoop = .ok t ∧ Tokens sumInLoop ks ∧
    (ofTree t).WellGrouped ks 5 (.punct .minus) 6 9 ∧ (ofTree t).Bracketed 2 14 := by
  have hrun : okAnd (parse sumInLoop) (fun t =>
      decide ((ofTree t).form? 5 = some (.binary (.punct .minus) 6 9) ∧
        (ofTree t).form? 1 = some (.forLoop (some 2) none none 17) ∧
        (ofTree t).form? 14 = some (.binary (.word .kIn) 15 16) ∧
        2 ∈ 14 :: (ofTree t).ancestors 14)) = true := by decide +kernel
  obtain ⟨t, hparse, hrun⟩ := okAnd_iff.1 hrun
  obtain ⟨hminus, hloop, hin, hinside⟩ := of_decide_eq_true hrun
  obtain ⟨ks, hks, hgrouped, hbracketed⟩ := parse_grouped hparse
  exact ⟨t, ks, hparse, hks, hgrouped 5 _ 6 9 hminus,
    hbracketed 1 _ 2 14 15 16 hloop rfl rfl (.of_mem_ancestors hinside) hin⟩

end Grammar

end LoopClosure
