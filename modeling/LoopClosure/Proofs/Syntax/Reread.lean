import LoopClosure.Proofs.Syntax.Pattern
import LoopClosure.Proofs.Syntax.Places

/-!
# Patterns in their places

A literal, or an item of one, that is read again as a pattern suits the place of a target, with a
default where one may have one (`Tree.suits_toPattern`). A pattern stays what it is
(`Tree.Suits.eq_of_toPattern`).
-/

namespace LoopClosure.Syntax

open Token

namespace Tree

variable {ks : List Lexeme} {p q : Place} {place place' : Nat → Place} {i s e : Nat} {t u : Tree}
  {ts us : List Tree} {element : Bool}

theorem length_toElements (h : toElements ts = .ok us) : us.length = ts.length :=
  (recast_toElements h).length_eq.symm

theorem length_toProperties (h : toProperties ts = .ok us) : us.length = ts.length :=
  (recast_toProperties h).length_eq.symm

/-- A simple target may be written to. -/
theorem suits_simple {p : Place} {t : Tree} (h : t.Suits ks p) (hp : p.slot = .plain)
    (ht : t.isSimpleTarget = true) : t.Suits ks { p with slot := .simple } := by
  match t with
  | .node s e form ts =>
    obtain ⟨hadmits, hlength, hoperates, hkids⟩ := h
    unfold isSimpleTarget at ht
    split at ht
    · next heq =>
      cases heq
      have hallows := (Bool.and_eq_true_iff.1 hadmits).2
      rw [hp] at hallows
      exact ⟨Bool.and_eq_true_iff.2 ⟨rfl, hallows⟩, hlength, hoperates, hkids⟩
    · next heq =>
      cases heq
      exact ⟨by simpa [Place.admits, Slot.takes, Form.isSimple] using ht, hlength, hoperates, hkids⟩
    · next u heq =>
      cases heq
      have hplain (i : Nat) : (p.into (.parenthesized i) 0).slot = .plain := by
        simp only [Place.into, Slot.into, hp]
        rfl
      exact ⟨rfl, hlength, hoperates, suits_simple hkids.1 (hplain _) ht, trivial⟩
    · cases ht

/-- A pattern is read again as itself. -/
theorem Suits.eq_of_toPattern (h : t.Suits ks p) (hp : p.slot = .target)
    (hu : t.toPattern element = .ok u) : u = t := by
  match t with
  | .node s e form ts =>
    have hform : p.slot.takes form = true := (Bool.and_eq_true_iff.1 h.1).1
    rw [hp] at hform
    unfold toPattern at hu
    split at hu
    · cases hform
    · cases hform
    · cases hu
      rfl
    · cases hu
      rfl
    · cases hu
      rfl
    · split at hu
      · cases hu
      · cases hu
        rfl
    · split at hu
      · cases hu
        rfl
      · cases hu
    · cases hform
    · cases hform
    · cases hu

mutual

/-- The pattern that an expression, or an item of a list, stands for. -/
theorem suits_toPattern {p : Place} {element : Bool} {t u : Tree}
    (hp : p.slot = .plain ∨ p.slot = .item) (h : t.Suits ks p)
    (hu : toPattern element t = .ok u) : u.Suits ks (p.recast element) := by
  match t with
  | .node s e form kids =>
    obtain ⟨hadmits, hlength, hoperates, hkids⟩ := h
    have hplain := (Bool.and_eq_true_iff.1 hadmits).1
    have hsimple (f : Form Nat) (hf : f.isSimple = true) : (p.recast element).slot.takes f = true :=
      Slot.takes_recast (by rw [hf]; rfl)
    have hpattern (f : Form Nat) (hf : f.isPattern = true) :
        (p.recast element).slot.takes f = true := Slot.takes_recast (by rw [hf, Bool.or_true])
    unfold toPattern at hu
    split at hu
    · next op l r target value =>
      split at hu
      · next helement =>
        obtain ⟨rfl, rfl⟩ : element = true ∧ op = .punct .equals := by simpa using helement
        cases htarget : toPattern false target with
        | error d => simp [htarget] at hu
        | ok target' =>
          simp only [htarget, Except.ok.injEq] at hu
          subst hu
          obtain ⟨hleft, hright, -⟩ := hkids
          obtain rfl := hleft.eq_of_toPattern rfl htarget
          refine ⟨Bool.and_eq_true_iff.2 ⟨?_, rfl⟩, rfl, operates_of_not_binary nofun, hleft,
            hright, trivial⟩
          rcases hp with hp | hp <;> simp only [Place.recast, hp] <;> rfl
      · cases hu
    · next i argument =>
      split at hu
      · next helement =>
        subst helement
        cases hargument : toPattern false argument with
        | error d => simp [hargument] at hu
        | ok argument' =>
          simp only [hargument, Except.ok.injEq] at hu
          subst hu
          have hitem : p.slot = .item := hp.resolve_left fun hp => by
            rw [hp] at hplain
            cases hplain
          have hkid := suits_toPattern (.inl rfl) hkids.1 hargument
          refine ⟨Bool.and_eq_true_iff.2 ⟨?_, rfl⟩, rfl, operates_of_not_binary nofun, hkid,
            trivial⟩
          simp only [Place.recast, hitem]
          rfl
      · cases hu
    · next name =>
      cases hu
      refine ⟨?_, hlength, hoperates, hkids⟩
      have hallows := (Bool.and_eq_true_iff.1 hadmits).2
      have hfree : p.slot.isFree = false := by rcases hp with hp | hp <;> rw [hp] <;> rfl
      dsimp only at hallows
      rw [hfree] at hallows
      exact Bool.and_eq_true_iff.2 ⟨hsimple _ rfl, Bool.or_eq_true_iff.2 (.inr hallows)⟩
    · rcases hp with hp | hp <;> rw [hp] at hplain <;> cases hplain
    · rcases hp with hp | hp <;> rw [hp] at hplain <;> cases hplain
    · next object key computed optional =>
      split at hu
      · cases hu
      · next hoptional =>
        cases hu
        refine ⟨Bool.and_eq_true_iff.2 ⟨hsimple _ ?_, rfl⟩, hlength, hoperates, hkids⟩
        simpa [Form.isSimple] using hoptional
    · next i t =>
      split at hu
      · next ht =>
        cases hu
        have hslot : (p.into (.parenthesized i) 0).slot = .plain := by
          rcases hp with hp | hp <;> simp only [Place.into, Slot.into, hp] <;> rfl
        have hkid := suits_simple hkids.1 hslot ht
        refine ⟨Bool.and_eq_true_iff.2 ⟨hsimple _ rfl, rfl⟩, hlength, hoperates, ?_, trivial⟩
        rw [Place.into, Slot.into, Place.recast, if_pos (Slot.isTarget_recast _ _)]
        exact hkid
      · cases hu
    · next elements =>
      cases hts : toElements kids with
      | error d => simp [hts] at hu
      | ok us =>
        simp only [hts, Except.ok.injEq] at hu
        subst hu
        refine ⟨Bool.and_eq_true_iff.2 ⟨hpattern _ rfl, rfl⟩, ?_, operates_of_not_binary nofun,
          suits_toElements (fun _ => rfl) hkids hts⟩
        exact (length_toElements hts).trans hlength
    · next properties =>
      cases hts : toProperties kids with
      | error d => simp [hts] at hu
      | ok us =>
        simp only [hts, Except.ok.injEq] at hu
        subst hu
        refine ⟨Bool.and_eq_true_iff.2 ⟨hpattern _ rfl, rfl⟩, ?_, operates_of_not_binary nofun,
          suits_toProperties (fun _ => rfl) hkids hts⟩
        exact (length_toProperties hts).trans hlength
    · cases hu
termination_by sizeOf t

theorem suits_toElements {place : Nat → Place} {i : Nat} {ts us : List Tree}
    (hp : ∀ j, (place j).slot = .item) (h : AllSuit ks place i ts) (hu : toElements ts = .ok us) :
    AllSuit ks (fun j => (place j).recast true) i us := by
  match ts with
  | [] =>
    unfold toElements at hu
    cases hu
    trivial
  | t :: ts =>
    unfold toElements at hu
    split at hu
    · cases hu
    · next t' ht =>
      split at hu
      · cases hu
      · next ts' hts =>
        cases hu
        exact ⟨suits_toPattern (.inr (hp i)) h.1 ht, suits_toElements hp h.2 hts⟩
termination_by sizeOf ts

theorem suits_toProperty {p : Place} {t u : Tree} (hp : p.slot = .entry) (h : t.Suits ks p)
    (hu : toProperty t = .ok u) : u.Suits ks { p with slot := .field } := by
  match t with
  | .node s e form kids =>
    obtain ⟨hadmits, hlength, hoperates, hkids⟩ := h
    have hentry := (Bool.and_eq_true_iff.1 hadmits).1
    rw [hp] at hentry
    unfold toProperty at hu
    split at hu
    · next i j role traits key value =>
      split at hu
      · cases hu
      · next hrole =>
        cases hvalue : toPattern true value with
        | error d => simp [hvalue] at hu
        | ok value' =>
          simp only [hvalue, Except.ok.injEq] at hu
          subst hu
          obtain ⟨hkey, hval, -⟩ := hkids
          have hslot : (p.into (.property i j role traits) 1).slot = .plain := by
            simp only [Place.into, Slot.into, hp]
            rfl
          have hval := suits_toPattern (.inl hslot) hval hvalue
          refine ⟨?_, rfl, operates_of_not_binary nofun, hkey, ?_, trivial⟩
          · simpa [Place.admits, Slot.takes, and_comm] using hrole
          · rw [Place.recast, hslot] at hval
            exact hval
    · next i argument =>
      cases hargument : toPattern false argument with
      | error d => simp [hargument] at hu
      | ok argument' =>
        simp only [hargument, Except.ok.injEq] at hu
        subst hu
        have hkid := suits_toPattern (.inl rfl) hkids.1 hargument
        exact ⟨rfl, rfl, operates_of_not_binary nofun, hkid, trivial⟩
    · next hproperty hspread =>
      -- A property has two children, and a spread has one.
      cases form with
      | property i j role traits =>
        obtain ⟨key, value, rfl⟩ := List.length_eq_two.1 hlength
        exact absurd rfl (hproperty i j role traits key value rfl)
      | spread i =>
        obtain ⟨argument, rfl⟩ := List.length_eq_one_iff.1 hlength
        exact absurd rfl (hspread i argument rfl)
      | _ => cases hentry
termination_by sizeOf t

theorem suits_toProperties {place : Nat → Place} {i : Nat} {ts us : List Tree}
    (hp : ∀ j, (place j).slot = .entry) (h : AllSuit ks place i ts)
    (hu : toProperties ts = .ok us) :
    AllSuit ks (fun j => { place j with slot := .field }) i us := by
  match ts with
  | [] =>
    unfold toProperties at hu
    cases hu
    trivial
  | t :: ts =>
    unfold toProperties at hu
    split at hu
    · cases hu
    · next t' ht =>
      split at hu
      · cases hu
      · next ts' hts =>
        cases hu
        exact ⟨suits_toProperty (hp i) h.1 ht, suits_toProperties hp h.2 hts⟩
termination_by sizeOf ts

end

end Tree

end LoopClosure.Syntax
