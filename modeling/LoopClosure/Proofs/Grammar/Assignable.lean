import LoopClosure.Proofs.Grammar.Placing.Statement
import LoopClosure.Proofs.Success

/-!
# Assignment targets

`Nodes.Fills ns slot i`: node `i` is a target, or the part of a pattern that belongs in the slot.
A program is `Nodes.Assignable` if all that it writes to is a target. Only patterns should have a
property in short form with a default (`Nodes.DefaultsInPatterns`).

- `Nodes.StandsIn.fills`: what stands where something is written to is a target.
- `parse_assignable`: an accepted program is assignable, and its defaults are in patterns unless an
  object literal has one.
- `not_defaultsInPatterns_shortDefault`: that of `({a = 1});` has one.
-/

namespace LoopClosure

open Syntax Token

namespace Syntax

variable {α : Type}

/-- Written with brackets or braces, but no pattern. -/
def Form.isLiteral : Form α → Bool
  | .arrayLiteral _ | .objectLiteral _ => true
  | _ => false

theorem Slot.not_takes_literal {s : Slot} {f : Form α} (hs : s.isTarget = true)
    (hf : f.isLiteral = true) : ¬s.takes f = true := by
  cases f with
  | arrayLiteral _ | objectLiteral _ => cases s <;> first | cases hs; done | exact nofun
  | _ => cases hf

end Syntax

namespace Syntax.Nodes

/-- Targets and the parts of patterns. -/
inductive Fills (ns : Nodes) : Slot → NodeId → Prop where
  | identifier {i : NodeId} {name : String} (h : ns.form? i = some (.identifier name)) :
    ns.Fills .simple i
  | member {i object key : NodeId} {computed : Bool}
    (h : ns.form? i = some (.member object key computed false)) : ns.Fills .simple i
  | parenthesized {i value : NodeId} (h : ns.form? i = some (.parenthesized value))
    (hvalue : ns.Fills .simple value) : ns.Fills .simple i
  | simple {i : NodeId} (h : ns.Fills .simple i) : ns.Fills .target i
  | array {i : NodeId} {elements : List (Option NodeId)}
    (h : ns.form? i = some (.arrayPattern elements))
    (helements : ∀ e ∈ elements.filterMap id, ns.Fills .element e) : ns.Fills .target i
  | object {i : NodeId} {properties : List NodeId} (h : ns.form? i = some (.objectPattern properties))
    (hproperties : ∀ q ∈ properties, ns.Fills .field q) : ns.Fills .target i
  | target {i : NodeId} (h : ns.Fills .target i) : ns.Fills .part i
  | default {i left right : NodeId} (h : ns.form? i = some (.assignmentPattern left right))
    (hleft : ns.Fills .target left) : ns.Fills .part i
  | part {i : NodeId} (h : ns.Fills .part i) : ns.Fills .element i
  | rest {i argument : NodeId} (h : ns.form? i = some (.rest argument))
    (hargument : ns.Fills .target argument) : ns.Fills .element i
  | property {i key value : NodeId} {traits : PropertyTraits}
    (h : ns.form? i = some (.property key value .init traits)) (htraits : traits.method = false)
    (hvalue : ns.Fills .part value) : ns.Fills .field i
  | others {i argument : NodeId} (h : ns.form? i = some (.rest argument))
    (hargument : ns.Fills .target argument) : ns.Fills .field i
  | param {i : NodeId} (h : ns.Fills .element i) : ns.Fills .param i
  | head {i : NodeId} (h : ns.Fills .target i) : ns.Fills .head i

variable {ns : Nodes} {ks : List Lexeme} {top p : Place} {t : Tree} {i c : NodeId} {slot : Slot}
  {form : Form NodeId}

theorem Fills.of_simple (h : ns.Fills .simple i) (hslot : slot.isTarget = true) :
    ns.Fills slot i := by
  cases slot with
  | simple => exact h
  | target => exact h.simple
  | part => exact h.simple.target
  | element => exact h.simple.target.part
  | param => exact h.simple.target.part.param
  | head => exact h.simple.head
  | _ => cases hslot

theorem Fills.of_target (h : ns.Fills .target i) (hslot : slot.isTarget = true)
    (hne : slot ≠ .simple) : ns.Fills slot i := by
  cases slot with
  | simple => exact absurd rfl hne
  | target => exact h
  | part => exact h.target
  | element => exact h.target.part
  | param => exact h.target.part.param
  | head => exact h.head
  | _ => cases hslot

/-- What a slot for targets takes. -/
theorem cases_takes_of_isTarget (hslot : slot.isTarget = true)
    (h : slot.takes form = true) : form.isSimple = true ∨ slot ≠ .simple ∧ form.isPattern = true ∨
      slot = .part ∧ form.isDefault = true ∨
      (slot = .element ∨ slot = .param) ∧ form.isItem = true ∨
      slot = .head ∧ form.isBindings = true := by
  cases slot <;> simp_all [Slot.takes, Slot.isTarget, or_assoc]

namespace StandsIn

variable (ht : t.WellFormed) (hs : t.Suits ks top)
include ht hs

/-- What stands where something is written to is a target, or declares one. -/
theorem fills (h : (ofTree t).StandsIn top i p) (hp : p.slot.isTarget = true)
    (hf : (ofTree t).form? i = some form) (hb : p.slot = .head → form.isBindings = false) :
    (ofTree t).Fills p.slot i := by
  induction hn : (ofTree t).size - i using Nat.strongRecOn generalizing i p form with
  | ind n ih =>
    subst hn
    -- The children of the node, and of its properties, lie behind it.
    have below {q c : NodeId} {pq : Place} {f : Form NodeId} {j : Nat} {slot : Slot} (hle : i ≤ q)
        (hq : (ofTree t).StandsIn top q pq) (hfq : (ofTree t).form? q = some f)
        (hc : f.children[j]? = some c) (hslot : (pq.into f j).slot = slot)
        (htarget : slot.isTarget = true) (hhead : slot ≠ .head) : (ofTree t).Fills slot c := by
      obtain ⟨hstands, hlt, g, hg⟩ := hq.kid ht hfq hc
      have hsize : c < (ofTree t).size := by
        obtain ⟨m, hm, -⟩ := Option.map_eq_some_iff.1 hg
        exact (Array.getElem?_eq_some_iff.1 hm).1
      have hic := Nat.lt_of_le_of_lt hle hlt
      subst hslot
      exact ih _ (Nat.sub_lt_sub_left (Nat.lt_trans hic hsize) hic) hstands htarget hg
        (fun heq => absurd heq hhead) rfl
    have hdefault (hform : form.isDefault = true) : (ofTree t).Fills .part i := by
      cases form with
      | assignmentPattern left right =>
        exact .default hf (below (Nat.le_refl i) h hf (j := 0) rfl rfl rfl nofun)
      | _ => cases hform
    have htakes := (Bool.and_eq_true_iff.1 (h.admits ht hs hf)).1
    rcases cases_takes_of_isTarget hp htakes with hform | ⟨hne, hform⟩ | ⟨hslot, hform⟩ |
      ⟨hslot, hform⟩ | ⟨hslot, hform⟩
    · refine .of_simple ?_ hp
      cases form with
      | identifier name => exact .identifier hf
      | member object key computed optional =>
        obtain rfl : optional = false := by simpa [Form.isSimple] using hform
        exact .member hf
      | parenthesized value =>
        refine .parenthesized hf (below (Nat.le_refl i) h hf (j := 0) rfl ?_ rfl nofun)
        simp only [Place.into, Slot.into, hp, if_true]
      | _ => cases hform
    · refine .of_target ?_ hp hne
      cases form with
      | arrayPattern elements =>
        refine .array hf fun e he => ?_
        obtain ⟨j, hj⟩ := List.mem_iff_getElem?.1 he
        exact below (Nat.le_refl i) h hf hj rfl rfl nofun
      | objectPattern properties =>
        refine .object hf fun q hq => ?_
        obtain ⟨j, hj⟩ := List.mem_iff_getElem?.1 hq
        obtain ⟨hstands, hlt, g, hg⟩ := h.kid ht hf hj
        have hfield := (Bool.and_eq_true_iff.1 (hstands.admits ht hs hg)).1
        cases g with
        | property key value role traits =>
          obtain ⟨rfl, htraits⟩ : role = .init ∧ traits.method = false := by
            simpa [Place.into, Slot.into, Slot.takes] using hfield
          refine .property hg htraits (below (Nat.le_of_lt hlt) hstands hg (j := 1) rfl ?_ rfl nofun)
          simp [Place.into, Slot.into]
        | rest argument =>
          exact .others hg (below (Nat.le_of_lt hlt) hstands hg (j := 0) rfl rfl rfl nofun)
        | _ => cases hfield
      | _ => cases hform
    · rw [hslot]
      exact hdefault hform
    · have helement : (ofTree t).Fills .element i := by
        cases form with
        | assignmentPattern left right => exact (hdefault rfl).part
        | rest argument =>
          exact .rest hf (below (Nat.le_refl i) h hf (j := 0) rfl rfl rfl nofun)
        | _ => cases hform
      rcases hslot with hslot | hslot <;> rw [hslot]
      · exact helement
      · exact helement.param
    · rw [hb hslot] at hform
      cases hform

end StandsIn

/-- The values of properties in short form. -/
def shortValue? (ns : Nodes) (q : NodeId) : Option NodeId :=
  match ns.form? q with
  | some (.property _ value _ traits) => if traits.shorthand then some value else none
  | _ => none

/-- Whatever is written to is a target. -/
structure Assignable (ns : Nodes) : Prop where
  assigned : ∀ i left right, ns.form? i = some (.assignment (.punct .equals) left right) →
    ns.Fills .target left
  heads : ∀ i each left right body, ns.form? i = some (.forEach each left right body) →
    (∀ keyword ds, ns.form? left ≠ some (.bindings keyword ds)) → ns.Fills .target left
  /-- No literal stands where something is written to. -/
  literals : ∀ i p, ns.StandsIn {} i p → p.slot.isTarget = true →
    (∀ elements, ns.form? i ≠ some (.arrayLiteral elements)) ∧
      ∀ properties, ns.form? i ≠ some (.objectLiteral properties)

/-- Only in a pattern a property in short form has a default. -/
def DefaultsInPatterns (ns : Nodes) : Prop :=
  ∀ q value, ns.shortValue? q = some value → ns.identifier? value = none →
    ∃ o properties, ns.parent? q = some o ∧ ns.form? o = some (.objectPattern properties)

/-- In object literals the value of a property in short form is the name alone. -/
def PlainLiterals (ns : Nodes) : Prop :=
  ∀ o properties q value, ns.form? o = some (.objectLiteral properties) → q ∈ properties →
    ns.shortValue? q = some value → ns.identifier? value ≠ none

/-- What `PlainLiterals` asks of one node. -/
def plainLiteral (ns : Nodes) (o : NodeId) : Bool :=
  match ns.form? o with
  | some (.objectLiteral properties) =>
    properties.all fun q => (ns.shortValue? q).all fun value => (ns.identifier? value).isSome
  | _ => true

instance : Decidable ns.PlainLiterals :=
  decidable_of_iff ((List.range ns.size).all ns.plainLiteral = true) <| by
    rw [List.all_eq_true]
    constructor
    · intro h o properties q value ho hq hvalue
      obtain ⟨n, hn, -⟩ := Option.map_eq_some_iff.1 ho
      have hplain := h o (List.mem_range.2 (Array.getElem?_eq_some_iff.1 hn).1)
      simp only [plainLiteral, ho, List.all_eq_true] at hplain
      have hname := hplain q hq
      rw [hvalue, Option.all_some] at hname
      exact Option.isSome_iff_ne_none.1 hname
    · intro h o _
      unfold plainLiteral
      split
      · next properties ho =>
        refine List.all_eq_true.2 fun q hq => (Option.all_eq_true _ _).2 fun value hvalue => ?_
        exact Option.isSome_iff_ne_none.2 (h o properties q value ho hq hvalue)
      · rfl

theorem form?_of_shortValue? {q value : NodeId} (h : ns.shortValue? q = some value) :
    ∃ key role traits, ns.form? q = some (.property key value role traits) := by
  unfold shortValue? at h
  split at h
  · next key value' role traits hf =>
    split at h
    · cases h
      exact ⟨key, role, traits, hf⟩
    · cases h
  · cases h

/-- Only the children of an object literal and of an object pattern have slots for properties. -/
theorem eq_object_of_takes {j : Nat} {key value : NodeId} {role : PropertyRole}
    {traits : PropertyTraits} (h : (slot.into j form).takes
      (.property key value role traits : Form NodeId) = true) :
    (∃ properties, form = .objectLiteral properties) ∨
      ∃ properties, form = .objectPattern properties := by
  have hslot : slot.into j form = .entry ∨ slot.into j form = .field := by
    generalize slot.into j form = slot at h
    cases slot <;> first | exact .inl rfl | exact .inr rfl | cases h
  cases form with
  | objectLiteral properties => exact .inl ⟨properties, rfl⟩
  | objectPattern properties => exact .inr ⟨properties, rfl⟩
  | _ =>
    simp only [Slot.into] at hslot
    grind

/-- A property stands in an object literal or in an object pattern. -/
theorem parent_of_property {q key value : NodeId} {role : PropertyRole} {traits : PropertyTraits}
    (ht : t.WellFormed) (hs : t.Suits ks {})
    (hf : (ofTree t).form? q = some (.property key value role traits)) :
    ∃ o properties, (ofTree t).parent? q = some o ∧ q ∈ properties ∧
      ((ofTree t).form? o = some (.objectLiteral properties) ∨
        (ofTree t).form? o = some (.objectPattern properties)) := by
  obtain ⟨n, hn, -⟩ := Option.map_eq_some_iff.1 hf
  obtain ⟨p, hstands⟩ := exists_standsIn ht {} hn
  have htakes := (Bool.and_eq_true_iff.1 (hstands.admits ht hs hf)).1
  rcases hstands.cases_child with ⟨-, rfl⟩ | ⟨o, j, po, form, ho, hform, hj, rfl⟩
  · cases htakes
  · have hmem := List.mem_of_getElem? hj
    have hparent := parent?_of_form? (wellFormed_ofTree ht) hform hmem
    rcases eq_object_of_takes htakes with ⟨properties, rfl⟩ | ⟨properties, rfl⟩
    · exact ⟨o, properties, hparent, hmem, .inl hform⟩
    · exact ⟨o, properties, hparent, hmem, .inr hform⟩

end Syntax.Nodes

namespace Grammar

variable {source : List Char} {t : Tree}

/-- In an accepted program whatever is written to is a target. Only in patterns a property in short
form has a default, exactly if no object literal has one. -/
theorem parse_assignable (h : parse source = .ok t) : (Nodes.ofTree t).Assignable ∧
    ((Nodes.ofTree t).DefaultsInPatterns ↔ (Nodes.ofTree t).PlainLiterals) := by
  have ht := parse_wellFormed h
  obtain ⟨ks, -, hs⟩ := parse_suits h
  have hwf := Nodes.wellFormed_ofTree ht
  refine ⟨⟨fun i left right hf => ?_, fun i each left right body hf hleft => ?_,
    fun i p hstands hp => ⟨fun elements hf => ?_, fun properties hf => ?_⟩⟩,
    fun hall o properties q value ho hq hvalue hname => ?_, fun hplain q value hvalue hname => ?_⟩
  · obtain ⟨n, hn, -⟩ := Option.map_eq_some_iff.1 hf
    obtain ⟨p, hstands⟩ := Nodes.exists_standsIn ht {} hn
    obtain ⟨hleft, -, f, hf'⟩ := hstands.kid (c := left) (j := 0) ht hf rfl
    exact hleft.fills ht hs rfl hf' nofun
  · obtain ⟨n, hn, -⟩ := Option.map_eq_some_iff.1 hf
    obtain ⟨p, hstands⟩ := Nodes.exists_standsIn ht {} hn
    obtain ⟨hstands', -, f, hf'⟩ := hstands.kid (c := left) (j := 0) ht hf rfl
    have hfills : (Nodes.ofTree t).Fills .head left := hstands'.fills ht hs rfl hf' fun _ => by
      cases f with
      | bindings keyword ds => exact absurd hf' (hleft keyword ds)
      | _ => rfl
    cases hfills with
    | head h => exact h
  · exact Slot.not_takes_literal (f := .arrayLiteral elements) hp rfl
      (Bool.and_eq_true_iff.1 (hstands.admits ht hs hf)).1
  · exact Slot.not_takes_literal (f := .objectLiteral properties) hp rfl
      (Bool.and_eq_true_iff.1 (hstands.admits ht hs hf)).1
  · obtain ⟨o', properties', hparent, ho'⟩ := hall q value hvalue hname
    rw [Nodes.parent?_of_form? hwf ho hq, Option.some.injEq] at hparent
    subst hparent
    rw [ho] at ho'
    cases ho'
  · obtain ⟨key, role, traits, hf⟩ := Nodes.form?_of_shortValue? hvalue
    obtain ⟨o, properties, hparent, hmem, ho | ho⟩ := Nodes.parent_of_property ht hs hf
    · exact absurd hname (hplain o properties q value ho hmem hvalue)
    · exact ⟨o, properties, hparent, ho⟩

/-- A pattern, a literal and the head of a loop. -/
def targets : List Char :=
  "(\x7b a = 1, ...b \x7d = \x7b c \x7d); for ([x.y, (z)] of c);".toList

theorem parse_assignable_targets : ∃ t, parse targets = .ok t ∧
    (Nodes.ofTree t).Assignable ∧ (Nodes.ofTree t).DefaultsInPatterns := by
  have hrun : okAnd (parse targets) (fun t => decide (Nodes.ofTree t).PlainLiterals) = true := by
    decide +kernel
  obtain ⟨t, hparse, hplain⟩ := okAnd_iff.1 hrun
  obtain ⟨hassignable, hiff⟩ := parse_assignable hparse
  exact ⟨t, hparse, hassignable, hiff.2 (of_decide_eq_true hplain)⟩

/-- An object literal that is no pattern. -/
def shortDefault : List Char := "(\x7b a = 1 \x7d);".toList

theorem not_defaultsInPatterns_shortDefault : ∃ t, parse shortDefault = .ok t ∧
    ¬(Nodes.ofTree t).DefaultsInPatterns := by
  have hrun : okAnd (parse shortDefault) (fun t =>
      decide ((Nodes.ofTree t).shortValue? 4 = some 6 ∧ (Nodes.ofTree t).identifier? 6 = none ∧
        (Nodes.ofTree t).parent? 4 = some 3 ∧
        (Nodes.ofTree t).form? 3 = some (.objectLiteral [4]))) = true := by
    decide +kernel
  obtain ⟨t, hparse, hrun⟩ := okAnd_iff.1 hrun
  obtain ⟨hvalue, hname, hparent, hform⟩ := of_decide_eq_true hrun
  refine ⟨t, hparse, fun hall => ?_⟩
  obtain ⟨o, properties, ho, hpattern⟩ := hall 4 6 hvalue hname
  rw [hparent, Option.some.injEq] at ho
  subst ho
  rw [hform] at hpattern
  cases hpattern

end Grammar

end LoopClosure
