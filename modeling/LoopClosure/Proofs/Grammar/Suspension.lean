import LoopClosure.Proofs.Grammar.Placing.Statement
import LoopClosure.Proofs.Success
import LoopClosure.Proofs.Syntax.Heads

/-!
# Functions that are suspended

`yield` suspends the generator around it, `await` the async function. What a node may read follows
from the function that has it as a part, in a parameter or in the body, but in no function inside.

- `Nodes.Among ns c i`: node `i` lies in `c`, and in no parameter or body of a function there.
- `Nodes.Nearest ns traits i`: the nearest function around node `i` has these traits.
- `Nodes.StandsIn.exists_owner`: what suspends a function is among a part of such a function.
- `parse_suspends`: in an accepted program the nearest function around each `yield` and `await` is
  one that may be suspended so, in whose body no identifier has that name (`Nodes.Suspends`).
-/

namespace LoopClosure

open Syntax Token

namespace Syntax

namespace Form

variable {α : Type}

/-- Child number `j` is a name that belongs to an object or to a class. -/
def hasKey (j : Nat) : Form α → Bool
  | .method _ _ _ _ computed | .field _ _ _ computed => j = 0 && !computed
  | .property _ _ _ traits => j = 0 && !traits.computed
  | .member _ _ computed _ => j = 1 && !computed
  | _ => false

/-- Only keys, and the parameters of an arrow, are read with no regard to what is around. -/
theorem hasKey_of_isFree {slot : Slot} {form : Form α} {j : Nat}
    (hfree : (slot.into j form).isFree = true) (howner : form.owner? j = none) :
    form.hasKey j = true := by
  cases form <;> simp only [Slot.into, owner?, hasKey] at hfree howner ⊢ <;> grind [Slot.isFree]

end Form

namespace Nodes

variable {ns : Nodes} {ks : List Lexeme} {top p : Place} {t : Tree} {c i : NodeId}
  {form : Form NodeId} {traits : FunctionTraits} {name : String}

/-- A node in `c` that is no part of a function there. The name of a function is not a part of it. -/
inductive Among (ns : Nodes) (c : NodeId) : NodeId → Prop where
  | here : ns.Among c c
  | child {q i j : Nat} {form : Form NodeId} (h : ns.Among c q) (hf : ns.form? q = some form)
    (hi : form.children[j]? = some i) (howner : form.owner? j = none) : ns.Among c i

/-- The node is a parameter or the body of a function with these traits. -/
def Owned (ns : Nodes) (traits : FunctionTraits) (c : NodeId) : Prop :=
  ∃ f form j, ns.form? f = some form ∧ form.children[j]? = some c ∧ form.owner? j = some traits

/-- The nearest function around the node has these traits. -/
def Nearest (ns : Nodes) (traits : FunctionTraits) (i : NodeId) : Prop :=
  ∃ f q place ident params body, ns.form? f = some (.function place ident params body traits) ∧
    ns.parent? i = some q ∧ ns.Directly f q

def IsKey (ns : Nodes) (i : NodeId) : Prop :=
  ∃ q form j, ns.form? q = some form ∧ form.children[j]? = some i ∧ form.hasKey j = true

/-- Generators and async functions alone are suspended, and have a name less. -/
structure Suspends (ns : Nodes) : Prop where
  yields : ∀ i argument delegate, ns.form? i = some (.yield argument delegate) →
    ∃ traits, ns.Nearest traits i ∧ traits.isGenerator = true
  awaits : ∀ i argument, ns.form? i = some (.await argument) →
    ∃ traits, ns.Nearest traits i ∧ traits.isAsync = true
  yieldNames : ∀ f place ident params body traits i,
    ns.form? f = some (.function place ident params body traits) → traits.isGenerator = true →
    ns.Among body i → ¬ns.IsKey i → ns.identifier? i ≠ some "yield"
  awaitNames : ∀ f place ident params body traits i,
    ns.form? f = some (.function place ident params body traits) → traits.isAsync = true →
    ns.Among body i → ¬ns.IsKey i → ns.identifier? i ≠ some "await"

namespace StandsIn

/-- A place where a function may be suspended is among its parts. -/
theorem exists_owner (h : ns.StandsIn {} i p) :
    (p.generator = true → ∃ c traits, ns.Owned traits c ∧ traits.isGenerator = true ∧
      ns.Among c i) ∧
    (p.async = true → ∃ c traits, ns.Owned traits c ∧ traits.isAsync = true ∧ ns.Among c i) := by
  induction h with
  | root => exact ⟨nofun, nofun⟩
  | @child q i j p form _ hf hi ih =>
    simp only [Place.into]
    cases howner : form.owner? j with
    | some traits =>
      exact ⟨fun htraits => ⟨i, traits, ⟨q, form, j, hf, hi, howner⟩, htraits, .here⟩,
        fun htraits => ⟨i, traits, ⟨q, form, j, hf, hi, howner⟩, htraits, .here⟩⟩
    | none =>
      refine ⟨fun hp => ?_, fun hp => ?_⟩
      · obtain ⟨c, traits, hc, htraits, hamong⟩ := ih.1 hp
        exact ⟨c, traits, hc, htraits, .child hamong hf hi howner⟩
      · obtain ⟨c, traits, hc, htraits, hamong⟩ := ih.2 hp
        exact ⟨c, traits, hc, htraits, .child hamong hf hi howner⟩

/-- What is among a node has what is around it, in a slot of its own. -/
theorem among {pc : Place} (h : ns.StandsIn top c pc) (hslot : pc.slot.isFree = false)
    (hi : ns.Among c i) (hkey : ¬ns.IsKey i) : ∃ p, ns.StandsIn top i p ∧
      p.generator = pc.generator ∧ p.async = pc.async ∧ p.slot.isFree = false := by
  have around {i : NodeId} (hi : ns.Among c i) : ∃ p, ns.StandsIn top i p ∧
      p.generator = pc.generator ∧ p.async = pc.async := by
    induction hi with
    | here => exact ⟨pc, h, rfl, rfl⟩
    | @child q i j form _ hf hi howner ih =>
      obtain ⟨p, hp, hgenerator, hasync⟩ := ih
      refine ⟨_, .child hp hf hi, ?_, ?_⟩ <;> simpa only [Place.into, howner]
  cases hi with
  | here => exact ⟨pc, h, rfl, rfl, hslot⟩
  | @child q _ j form hq hf hi howner =>
    obtain ⟨p, hp, hgenerator, hasync⟩ := around hq
    refine ⟨_, .child hp hf hi, ?_, ?_, Bool.eq_false_iff.2 fun hfree => ?_⟩
    · simpa only [Place.into, howner]
    · simpa only [Place.into, howner]
    · exact hkey ⟨q, form, j, hf, hi, Form.hasKey_of_isFree hfree howner⟩

end StandsIn

section Suits

variable (ht : t.WellFormed) (hs : t.Suits ks {})
include ht hs

/-- What has no function in between is no function, or the name of one. -/
theorem Among.nearest (hc : (ofTree t).Owned traits c) (h : (ofTree t).Among c i)
    (hname : (ofTree t).identifier? i = none) : (ofTree t).Nearest traits i := by
  have hwf := wellFormed_ofTree ht
  induction h with
  | here =>
    obtain ⟨f, form, j, hf, hj, howner⟩ := hc
    cases form with
    | function place ident params body traits' =>
      obtain rfl : traits' = traits := by
        simp only [Form.owner?] at howner
        split at howner
        · cases howner
        · exact Option.some.inj howner
      exact ⟨f, f, place, ident, params, body, hf,
        parent?_of_form? hwf hf (List.mem_of_getElem? hj), .refl⟩
    | _ => cases howner
  | @child q i j form hq hf hi howner ih =>
    have hparent := parent?_of_form? hwf hf (List.mem_of_getElem? hi)
    have hnone : (ofTree t).identifier? q = none := by
      unfold identifier?
      split
      · next name hf' =>
        rw [hf, Option.some.injEq] at hf'
        subst hf'
        cases hi
      · rfl
    obtain ⟨f, q', place, ident, params, body, hfun, hq', hdirectly⟩ := ih hnone
    refine ⟨f, q, place, ident, params, body, hfun, hparent, .up hf ?_ hq' hdirectly⟩
    -- The one child of a function that is no part of it is an identifier.
    cases form with
    | function place' ident' params' body' traits' =>
      have hj : j < Form.count ident' := by
        simp only [Form.owner?] at howner
        split at howner
        · assumption
        · cases howner
      obtain ⟨n, hn, -⟩ := Option.map_eq_some_iff.1 hf
      obtain ⟨p, hp⟩ := exists_standsIn ht {} hn
      obtain ⟨hstands, -, g, hg⟩ := hp.kid ht hf hi
      have htakes := (Bool.and_eq_true_iff.1 (hstands.admits ht hs hg)).1
      simp only [Place.into, Slot.into, if_pos hj] at htakes
      cases g with
      | identifier name => simp [identifier?, hg] at hname
      | _ => cases htakes
    | _ => rfl

/-- In the body of a function with these traits no identifier has the name of an operator. -/
theorem Among.allows {f body : NodeId} {place : FunctionPlace} {ident : Option NodeId}
    {params : List NodeId} (hf : (ofTree t).form? f = some (.function place ident params body traits))
    (h : (ofTree t).Among body i) (hkey : ¬(ofTree t).IsKey i)
    (hname : (ofTree t).identifier? i = some name) :
    (name = "yield" → traits.isGenerator = false) ∧ (name = "await" → traits.isAsync = false) := by
  obtain ⟨n, hn, -⟩ := Option.map_eq_some_iff.1 hf
  obtain ⟨p, hp⟩ := exists_standsIn ht {} hn
  have hchild : (Form.function place ident params body traits).children[
      Form.count ident + params.length]? = some body := by
    cases ident <;> simp [Form.children, Form.count, Nat.add_comm 1]
  have hbehind : ¬Form.count ident + params.length < Form.count ident := by omega
  have hslot : (p.into (.function place ident params body traits)
      (Form.count ident + params.length)).slot = .plain := by
    simp [Place.into, Slot.into]
  obtain ⟨pi, hpi, hgenerator, hasync, hfree⟩ :=
    (StandsIn.child hp hf hchild).among (by rw [hslot]; rfl) h hkey
  simp only [Place.into, Form.owner?, if_neg hbehind, Option.map_some, Option.getD_some]
    at hgenerator hasync
  have hform : (ofTree t).form? i = some (.identifier name) := by
    unfold identifier? at hname
    split at hname
    · next name' hform =>
      cases hname
      exact hform
    · cases hname
  have hadmits := (Bool.and_eq_true_iff.1 (hpi.admits ht hs hform)).2
  simp only [hfree, Bool.false_or] at hadmits
  rw [← hgenerator, ← hasync]
  exact Place.allows_iff.1 hadmits

theorem suspends_ofTree : (ofTree t).Suspends := by
  refine ⟨fun i argument delegate hf => ?_, fun i argument hf => ?_,
    fun f place ident params body traits i hf htraits hi hkey hname => ?_,
    fun f place ident params body traits i hf htraits hi hkey hname => ?_⟩
  · obtain ⟨n, hn, -⟩ := Option.map_eq_some_iff.1 hf
    obtain ⟨p, hp⟩ := exists_standsIn ht {} hn
    have hgenerator := (Bool.and_eq_true_iff.1 (hp.admits ht hs hf)).2
    obtain ⟨c, traits, hc, htraits, hi⟩ := hp.exists_owner.1 hgenerator
    exact ⟨traits, hi.nearest ht hs hc (by simp [identifier?, hf]), htraits⟩
  · obtain ⟨n, hn, -⟩ := Option.map_eq_some_iff.1 hf
    obtain ⟨p, hp⟩ := exists_standsIn ht {} hn
    have hasync := (Bool.and_eq_true_iff.1 (hp.admits ht hs hf)).2
    obtain ⟨c, traits, hc, htraits, hi⟩ := hp.exists_owner.2 hasync
    exact ⟨traits, hi.nearest ht hs hc (by simp [identifier?, hf]), htraits⟩
  · have hfalse := (hi.allows ht hs hf hkey hname).1 rfl
    rw [htraits] at hfalse
    cases hfalse
  · have hfalse := (hi.allows ht hs hf hkey hname).2 rfl
    rw [htraits] at hfalse
    cases hfalse

end Suits

end Nodes

end Syntax

namespace Grammar

variable {source : List Char} {t : Tree}

/-- In an accepted program each `yield` and `await` belongs to a function that it may suspend, and
there names no identifier of the body. -/
theorem parse_suspends (h : parse source = .ok t) : (Nodes.ofTree t).Suspends := by
  obtain ⟨ks, -, hs⟩ := parse_suits h
  exact Nodes.suspends_ofTree (parse_wellFormed h) hs

/-- An async function in a generator, with a member named as an operator. -/
def asyncInGenerator : List Char :=
  "function* g() \x7b yield async x => await x.yield; \x7d".toList

theorem parse_suspends_asyncInGenerator : ∃ t, parse asyncInGenerator = .ok t ∧
    (Nodes.ofTree t).Suspends ∧
    (∃ traits, (Nodes.ofTree t).Nearest traits 5 ∧ traits.isGenerator = true) ∧
    ∃ traits, (Nodes.ofTree t).Nearest traits 8 ∧ traits.isAsync = true := by
  have hrun : okAnd (parse asyncInGenerator) (fun t =>
      decide ((Nodes.ofTree t).form? 5 = some (.yield (some 6) false) ∧
        (Nodes.ofTree t).form? 8 = some (.await 9))) = true := by decide +kernel
  obtain ⟨t, hparse, hrun⟩ := okAnd_iff.1 hrun
  obtain ⟨hyield, hawait⟩ := of_decide_eq_true hrun
  have hsuspends := parse_suspends hparse
  exact ⟨t, hparse, hsuspends, hsuspends.yields 5 _ _ hyield, hsuspends.awaits 8 _ hawait⟩

end Grammar

end LoopClosure
