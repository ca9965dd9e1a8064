import LoopClosure.Proofs.Grammar.Program
import LoopClosure.Proofs.Success
import LoopClosure.Proofs.Syntax.Nested

/-!
# How nodes lie in a text

The nodes of a text that the grammar accepts form a tree over its tokens (`Nodes.Laminar`,
`parse_laminar`): each node but the program has one place in one node, goes from the start of a token
to the end of one, and lies within the node it is a child of, apart from its siblings. What lies in
the range of the body of a loop lies inside the body.
-/

namespace LoopClosure

open Syntax Token Text

namespace Syntax

/-- The nodes form a tree over the tokens `ks` of a text. -/
structure Nodes.Laminar (source : List Char) (ks : List Lexeme) (ns : Nodes) : Prop where
  /-- The program spans the text. -/
  root : ∃ n statements comments, ns.get? root = some n ∧ n.form = .program statements comments ∧
    n.start = 0 ∧ n.stop = Text.size source
  /-- The program is the child of no node, -/
  top : ∀ p, Nodes.root ∉ ns.children p
  /-- any other node is the child of one, -/
  below : ∀ {id : NodeId} {n : Node}, ns.get? id = some n → id ≠ Nodes.root →
    ∃! p, id ∈ ns.children p
  /-- and no node has the same child twice. -/
  once : ∀ p, (ns.children p).Nodup
  /-- A child is a node in the range of its parent, and not empty. -/
  within : ∀ {c p : NodeId} {n : Node}, ns.get? p = some n → c ∈ ns.children p →
    ∃ m, ns.get? c = some m ∧ n.start ≤ m.start ∧ m.start < m.stop ∧ m.stop ≤ n.stop
  /-- A node but the program goes from the start of a token to the end of one. -/
  tokens : ∀ {id : NodeId} {n : Node}, ns.get? id = some n → id ≠ Nodes.root →
    (∃ k ∈ ks, k.start = n.start) ∧ ∃ k ∈ ks, k.stop = n.stop
  /-- Siblings follow one another, but for the parts of a property in short form. -/
  ordered : ∀ {p : NodeId} {n : Node}, ns.get? p = some n → n.form.isShort = false →
    (ns.children p).Pairwise fun c d => ∀ {m o : Node}, ns.get? c = some m → ns.get? d = some o →
      m.stop ≤ o.start
  /-- A name is spelled as the text there, -/
  name : ∀ {id : NodeId} {n : Node} {name : String}, ns.get? id = some n →
    n.form = .identifier name → slice? source n.start n.stop = some name.toList
  /-- and so is a literal. -/
  raw : ∀ {id : NodeId} {n : Node} {kind : LiteralKind} {raw : String}, ns.get? id = some n →
    n.form = .literal kind raw → slice? source n.start n.stop = some raw.toList
  /-- The range of the body of a loop tells what lies inside. -/
  body : ∀ {loop b : NodeId} {form : Form NodeId}, ns.form? loop = some form →
    form.loopBody? = some b → ∀ id, ns.contains b id = true ↔ ns.Inside b id

namespace Tree

variable {source : List Char} {ks : List Lexeme} {t u : Tree} {i : Nat} {q : NodeId}

/-- What lies below a tree lies in a child. -/
theorem Located.read_below (h : Located 0 none t i (some q) u)
    (hread : ∀ c ∈ t.children, c.Read source ks) : u.Read source ks := by
  cases h with
  | child h => exact h.read (hread _ (by simp [Tree.children]))

/-- Subtrees one after the other have nodes one after the other. -/
theorem Spread.pairwise {ns : Nodes} {a b id : Nat} {ts : List Tree} (h : Spread a b ts)
    (hget : ∀ pre u post, ts = pre ++ u :: post →
      ∃ n, ns.get? (id + sizes pre) = some n ∧ n.start = u.start ∧ n.stop = u.stop) :
    (siblingIds id ts).Pairwise fun c d => ∀ {m o : Node}, ns.get? c = some m →
      ns.get? d = some o → m.stop ≤ o.start := by
  induction ts generalizing a id with
  | nil => exact .nil
  | cons t ts ih =>
    refine List.pairwise_cons.2 ⟨fun d hd m o hm ho => ?_, ih h.2.2 fun pre u post hts => ?_⟩
    · obtain ⟨pre, u, post, hts, rfl⟩ := mem_siblingIds.1 hd
      obtain ⟨nt, hnt, -, hstop⟩ := hget [] t ts rfl
      obtain ⟨nu, hnu, hstart, -⟩ := hget (t :: pre) u post (by rw [hts]; rfl)
      rw [show id + sizes [] = id from rfl, hm, Option.some.injEq] at hnt
      rw [sizes, ← Nat.add_assoc, ho, Option.some.injEq] at hnu
      rw [hnt, hnu, hstop, hstart]
      exact (h.2.2.of_mem (by simp [hts])).1
    · obtain ⟨n, hn, hrange⟩ := hget (t :: pre) u post (by rw [hts]; rfl)
      refine ⟨n, ?_, hrange⟩
      rwa [sizes, ← Nat.add_assoc] at hn

end Tree

namespace Nodes

open LoopClosure.Syntax.Tree

variable {t : Tree} {p : NodeId} {n : Node}

theorem ordered_ofTree (ht : t.WellFormed) (hn : (ofTree t).get? p = some n)
    (hlong : n.form.isShort = false) : ((ofTree t).children p).Pairwise fun c d =>
      ∀ {m o : Node}, (ofTree t).get? c = some m → (ofTree t).get? d = some o → m.stop ≤ o.start := by
  obtain ⟨q, v, hv, rfl⟩ := located_of_get? hn
  rw [children_ofTree ht hv]
  cases v with
  | node start stop form ts =>
    have hget : ∀ pre u post, ts = pre ++ u :: post →
        ∃ n, (ofTree t).get? (p + 1 + sizes pre) = some n ∧ n.start = u.start ∧ n.stop = u.stop := by
      rintro pre u post rfl
      exact ⟨_, get?_ofTree hv.step, rfl, rfl⟩
    cases (hv.wellFormed ht).placed with
    | spread _ hs => exact hs.pairwise hget
    | short hshort =>
      rw [nodeAt, Form.isShort_map] at hlong
      exact absurd hshort (Bool.eq_false_iff.1 hlong)

/-- Only the program has no parent. -/
theorem exists_parent?_ofTree {id : NodeId} (hn : (ofTree t).get? id = some n) (hne : id ≠ root) :
    ∃ p, (ofTree t).parent? id = some p := by
  obtain ⟨q, u, hu, -⟩ := located_of_get? hn
  rcases hu.cases_parent with ⟨rfl, -, -⟩ | ⟨j, -, -, -, -, -, -, -, rfl, -⟩
  · exact absurd rfl hne
  · exact ⟨j, parent?_ofTree hu⟩

/-- All nodes lie inside the program. -/
theorem inside_root {id : NodeId} (hn : (ofTree t).get? id = some n) : (ofTree t).Inside root id := by
  obtain ⟨q, u, hu, -⟩ := located_of_get? hn
  exact inside_of_located (.here _ _ _) hu

theorem readAt_ofTree {source : List Char} {ks : List Lexeme}
    (hread : ∀ c ∈ t.children, c.Read source ks) {id : NodeId} (hn : (ofTree t).get? id = some n)
    (hne : id ≠ root) : n.form.ReadAt source ks n.start n.stop := by
  obtain ⟨p, hp⟩ := exists_parent?_ofTree hn hne
  obtain ⟨q, u, hu, rfl⟩ := located_of_get? hn
  rw [parent?_ofTree hu] at hp
  subst hp
  obtain ⟨hedges, hbegins, hends, hspelled, hinner⟩ := (hu.read_below hread).readAt
  refine ⟨⟨hedges.front, hedges.back, ?_, ?_⟩, hbegins, hends, ?_, Form.isProgram_map.trans hinner⟩
  · rw [nodeAt, Form.opening_map]
    exact hedges.opening
  · rw [nodeAt, Form.trail_map]
    exact hedges.closing
  · rw [nodeAt, Form.spelling?_map]
    exact hspelled

theorem contains_body_iff_ofTree (ht : t.WellFormed) (hstart : t.start = 0) {loop b : NodeId}
    {form : Form NodeId} (hf : (ofTree t).form? loop = some form) (hbody : form.loopBody? = some b)
    (id : NodeId) : (ofTree t).contains b id = true ↔ (ofTree t).Inside b id := by
  have hns : (ofTree t).WellFormed := wellFormed_ofTree ht
  have hloop := parent?_body hns hf hbody
  cases hp : (ofTree t).parent? id with
  | some p => exact contains_body_iff hns hf hbody hp
  | none =>
    -- The program is too long for the body, and any other number is none of a node.
    refine ⟨fun hc => ?_, fun hi => ?_⟩
    · obtain ⟨m, hm⟩ := exists_get?_of_parent?_eq_some hloop
      obtain ⟨l, hl, rfl⟩ := Option.map_eq_some_iff.1 hf
      have hlt := hns.keyword hloop hm hl (Form.hasKeyword_of_loopBody? hbody)
      cases hn : (ofTree t).get? id with
      | none => simp [contains, hm, hn] at hc
      | some n =>
        obtain rfl : id = root := by
          by_contra hne
          obtain ⟨p, hp'⟩ := exists_parent?_ofTree hn hne
          rw [hp] at hp'
          cases hp'
        rw [show (ofTree t).get? root = _ from get?_ofTree (.here _ _ _), Option.some.injEq] at hn
        subst hn
        simp only [contains, hm, show (ofTree t).get? root = _ from get?_ofTree (.here _ _ _),
          Tree.nodeAt, Bool.and_eq_true, decide_eq_true_eq] at hc
        omega
    · cases hi with
      | refl =>
        rw [hloop] at hp
        cases hp
      | up hp' =>
        rw [hp] at hp'
        cases hp'

end Nodes

end Syntax

namespace Grammar

variable {source : List Char} {t : Tree}

open Nodes LoopClosure.Syntax.Tree in
/-- **Layout.** The nodes of a text that the grammar accepts form a tree over its tokens. -/
theorem parse_laminar (h : parse source = .ok t) :
    ∃ ks, Tokens source ks ∧ (Nodes.ofTree t).Laminar source ks := by
  obtain ⟨ht, ⟨hstart, hstop⟩, ⟨statements, comments, hform⟩, ⟨ks, hks, hread⟩, -⟩ := parse_spec h
  have hns : (ofTree t).WellFormed := wellFormed_ofTree ht
  have hprogram {n : Node} (hn : (ofTree t).get? Nodes.root = some n) :
      ∃ statements comments, n.form = .program statements comments := by
    rw [show (ofTree t).get? Nodes.root = _ from get?_ofTree (.here _ _ _), Option.some.injEq] at hn
    rw [← hn, nodeAt, hform]
    exact ⟨_, _, rfl⟩
  have hspelled {id : NodeId} {n : Node} {text : String} (hn : (ofTree t).get? id = some n)
      (htext : n.form.spelling? = some text) :
      slice? source n.start n.stop = some text.toList := by
    refine (readAt_ofTree hread hn fun hid => ?_).spelled text htext
    obtain ⟨statements, comments, hform⟩ := hprogram (hid ▸ hn)
    rw [hform] at htext
    cases htext
  refine ⟨ks, hks, ?_⟩
  exact {
    root := by
      have hn : (ofTree t).get? Nodes.root = some (nodeAt Nodes.root none t) :=
        get?_ofTree (.here _ _ _)
      obtain ⟨statements, comments, hform⟩ := hprogram hn
      exact ⟨_, statements, comments, hn, hform, hstart, hstop⟩
    top := fun p hp => absurd (hns.parent_lt (hns.parent_iff.2 hp)) (Nat.not_lt_zero p)
    below := fun hn hne => by
      obtain ⟨p, hp⟩ := exists_parent?_ofTree hn hne
      refine ⟨p, hns.parent_iff.1 hp, fun q hq => ?_⟩
      exact Option.some.inj ((hns.parent_iff.2 hq).symm.trans hp)
    once := hns.nodup
    within := fun hn hc => by
      have hp := hns.parent_iff.2 hc
      obtain ⟨m, hm⟩ := exists_get?_of_parent?_eq_some hp
      exact ⟨m, hm, hns.within hp hm hn⟩
    tokens := fun hn hne => ⟨(readAt_ofTree hread hn hne).begins, (readAt_ofTree hread hn hne).ends⟩
    ordered := ordered_ofTree ht
    name := fun hn hform => hspelled hn (by rw [hform]; rfl)
    raw := fun hn hform => hspelled hn (by rw [hform]; rfl)
    body := contains_body_iff_ofTree ht hstart }

/-- The program is no part of another node. -/
theorem parse_inner (h : parse source = .ok t) {c p : NodeId} {n : Node}
    (hp : (Nodes.ofTree t).parent? c = some p) (hn : (Nodes.ofTree t).get? c = some n) :
    n.form.isProgram = false := by
  obtain ⟨ht, -, -, ⟨ks, -, hread⟩, -⟩ := parse_spec h
  have hlt := (Nodes.wellFormed_ofTree ht).parent_lt hp
  exact (Nodes.readAt_ofTree hread hn (Nat.ne_of_gt (Nat.zero_lt_of_lt hlt))).inner

/-- There is one program. -/
theorem parse_program_unique (h : parse source = .ok t) {i : NodeId} {n : Node}
    (hn : (Nodes.ofTree t).get? i = some n) (hform : n.form.isProgram = true) : i = Nodes.root := by
  by_contra hne
  obtain ⟨p, hp⟩ := Nodes.exists_parent?_ofTree hn hne
  cases (parse_inner h hp hn).symm.trans hform

open Nodes LoopClosure.Syntax.Tree in
/-- Where the text of a program or a block begins with `var`, the first statement is a declaration. -/
theorem parse_declared (h : parse source = .ok t) {id : NodeId} {n : Node} {p : Nat} {rest : List Char}
    (hn : (ofTree t).get? id = some n)
    (hp : n.form.isProgram = true ∧ p = 0 ∨ n.form.isBlock = true ∧ p = n.start + 1)
    (hrest : dropBytes? p source = some ('v' :: 'a' :: 'r' :: ' ' :: rest)) :
    ∃ c cs f, n.form.children = c :: cs ∧ (ofTree t).form? c = some f ∧ f.isBindings = true := by
  obtain ⟨ht, -, ⟨statements, comments, hform⟩, ⟨ks, -, hread⟩, hdeclared⟩ := parse_spec h
  obtain ⟨q, u, hu, rfl⟩ := located_of_get? hn
  obtain ⟨v, vs, hvs, hv⟩ : ∃ v vs, u.children = v :: vs ∧ v.form.isBindings = true := by
    rcases hp with ⟨hprogram, rfl⟩ | ⟨hblock, rfl⟩
    · obtain rfl := parse_program_unique h hn hprogram
      cases hu with
      | here => exact hdeclared rest hrest
      | child hu => exact absurd hu.bounds.1 (by rw [root]; omega)
    · cases hu with
      | here =>
        rw [nodeAt, hform] at hblock
        cases hblock
      | child hu =>
        cases hu.read (hread _ (by simp [Tree.children])) with
        | node _ _ hopens => exact hopens (Form.isBlock_map ▸ hblock) rest hrest
  have hchildren := children_nodeAt (i := id) (p := q) (hu.wellFormed ht)
  rw [hvs] at hchildren
  cases u with
  | node start stop form ts =>
    obtain rfl : ts = v :: vs := hvs
    refine ⟨_, _, _, hchildren, congrArg (Option.map _) (get?_ofTree hu.first), ?_⟩
    exact Form.isBindings_map.trans hv

/-- A loop over properties in short form, with a regular expression. -/
def shortFormInLoop : List Char :=
  "for (const \x7bx, y = 1\x7d of xs) \x7b f(() => /é/.test(x)); \x7d".toList

theorem parse_laminar_shortFormInLoop : ∃ t ks, parse shortFormInLoop = .ok t ∧
    Tokens shortFormInLoop ks ∧ (Nodes.ofTree t).Laminar shortFormInLoop ks := by
  have hrun : okAnd (parse shortFormInLoop) (fun _ => true) = true := by decide +kernel
  obtain ⟨t, hparse, -⟩ := okAnd_iff.1 hrun
  obtain ⟨ks, hks⟩ := parse_laminar hparse
  exact ⟨t, ks, hparse, hks⟩

end Grammar

end LoopClosure
