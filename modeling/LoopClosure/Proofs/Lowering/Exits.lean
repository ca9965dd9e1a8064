import LoopClosure.Proofs.Lowering.Bodies
import LoopClosure.Proofs.Lowering.Nest
import Mathlib.Data.List.Forall2

/-!
# Relays and checks

Relays go up from wrap to wrap, and each wrap checks what it relays.

- `Lowering.Carried l k r`: a jump or return in the body of wrap `k`, or in a wrap that hands its
  relays on to `k`, relays `r`.
- `Relay.check?`: the text of a check.
- `Lowering.Finished`: the state that `finish` ends in. The relays of a wrap are those that it
  carries, and its checks are theirs, one for each (`finish_finished`).
-/

namespace LoopClosure

open Syntax Syntax.Nodes

/-- The label that a jump names. -/
def Relay.label? : Relay → Option String
  | .break_ label => label
  | .continue_ label => some label
  | _ => none

/-- The check of a relay behind a call, which hands it on or makes the jump. -/
def Relay.check? (n : Names) (handsOn : Bool) (r : Relay) : Option String := do
  let flag ← n.permanent? r.flagKey
  if handsOn then
    if r.isValued then return forwardText flag (some (← n.permanent? "value"))
    else return forwardText flag none
  else
    match r with
    | .break_ none => return jumpText flag "break"
    | .break_ (some label) => return jumpText flag ("break " ++ label)
    | .continue_ label => return jumpText flag ("continue " ++ label)
    | .returnVoid => return jumpText flag "return"
    | .returnPrimitive => return jumpText flag ("return " ++ (← n.permanent? "value"))
    | .returnValue => return returnText flag (← n.permanent? "value") (← n.permanent? "rp")

theorem Relay.check?_mono {n n' : Names} {handsOn : Bool} {r : Relay} {c : String}
    (hn : n.Extends n') (h : r.check? n handsOn = some c) : r.check? n' handsOn = some c := by
  obtain ⟨flag, hflag, h⟩ := Option.bind_eq_some_iff.1 h
  refine Option.bind_eq_some_iff.2 ⟨flag, hn.kept hflag, ?_⟩
  cases handsOn with
  | true =>
    rw [if_pos rfl] at h ⊢
    split at h
    · next hv =>
      obtain ⟨value, hvalue, h⟩ := Option.bind_eq_some_iff.1 h
      rw [if_pos hv]
      exact Option.bind_eq_some_iff.2 ⟨value, hn.kept hvalue, h⟩
    · next hv => rwa [if_neg hv]
  | false =>
    rw [if_neg Bool.false_ne_true] at h ⊢
    cases r with
    | break_ label => cases label <;> exact h
    | continue_ label => exact h
    | returnVoid => exact h
    | returnPrimitive =>
      obtain ⟨value, hvalue, h⟩ := Option.bind_eq_some_iff.1 h
      exact Option.bind_eq_some_iff.2 ⟨value, hn.kept hvalue, h⟩
    | returnValue =>
      obtain ⟨value, hvalue, h⟩ := Option.bind_eq_some_iff.1 h
      obtain ⟨caught, hcaught, h⟩ := Option.bind_eq_some_iff.1 h
      exact Option.bind_eq_some_iff.2 ⟨value, hn.kept hvalue,
        Option.bind_eq_some_iff.2 ⟨caught, hn.kept hcaught, h⟩⟩

/-- The check that hands a relay on, with the value if there is one. -/
theorem Relay.check?_handsOn {n : Names} {r : Relay} {flag : String} {value : Option String}
    (hflag : n.permanent? r.flagKey = some flag)
    (hvalue : value = if r.isValued then n.permanent? "value" else none)
    (hsome : r.isValued = true → ∃ name, value = some name) :
    r.check? n true = some (forwardText flag value) := by
  refine Option.bind_eq_some_iff.2 ⟨flag, hflag, ?_⟩
  rw [if_pos rfl]
  split
  · next hv =>
    obtain ⟨name, rfl⟩ := hsome hv
    rw [if_pos hv] at hvalue
    exact Option.bind_eq_some_iff.2 ⟨name, hvalue.symm, rfl⟩
  · next hv =>
    rw [if_neg hv] at hvalue
    rw [hvalue]
    rfl

namespace Lowering

variable {l l' : Lowering} {P : Edit → Prop} {i k p : Nat} {r : Relay}

theorem Keeps.forwardTo? (h : Keeps l l') (i : Nat) (r : Relay) :
    l'.forwardTo? i r = l.forwardTo? i r := by
  simp only [Lowering.forwardTo?, h.wraps, h.parent?, h.nodes]

theorem forwardTo?_eq_some (h : l.forwardTo? i r = some p) :
    ∃ w o, l.wraps[i]? = some w ∧ l.parent? i = some p ∧ l.wraps[p]? = some o ∧
      crosses l.nodes w.loop o.body r = true := by
  simp only [Lowering.forwardTo?, Option.bind_eq_bind, Option.bind_eq_some_iff] at h
  obtain ⟨w, hw, q, hq, o, ho, h⟩ := h
  split at h
  · next hc =>
    cases h
    exact ⟨w, o, hw, hq, ho, hc⟩
  · cases h

/-! ## One relay -/

theorem checkOf_quiet {flag check : String} (hflag : l.draft.names.permanent? r.flagKey = some flag)
    (h : l.checkOf flag r = .ok (l', check)) :
    Quiet P l l' ∧ r.check? l'.draft.names false = some check := by
  have hstart {n : Names} (hn : l.draft.names.Extends n) :
      n.permanent? r.flagKey = some flag := hn.kept hflag
  cases r with
  | break_ label =>
    cases label <;>
      · cases h
        refine ⟨.refl l, ?_⟩
        rw [Relay.check?, hflag]
        rfl
  | continue_ label =>
    cases h
    refine ⟨.refl l, ?_⟩
    rw [Relay.check?, hflag]
    rfl
  | returnVoid =>
    cases h
    refine ⟨.refl l, ?_⟩
    rw [Relay.check?, hflag]
    rfl
  | returnPrimitive =>
    obtain ⟨⟨l₁, value⟩, hvalue, h⟩ := bind_eq_ok.1 h
    cases h
    obtain ⟨h₁, hkey⟩ := permanentName_quiet (P := P) hvalue
    refine ⟨h₁, ?_⟩
    rw [Relay.check?, hstart h₁.names]
    simp [hkey]
  | returnValue =>
    obtain ⟨⟨l₁, value⟩, hvalue, h⟩ := bind_eq_ok.1 h
    obtain ⟨⟨l₂, caught⟩, hcaught, h⟩ := bind_eq_ok.1 h
    cases h
    obtain ⟨h₁, hkey⟩ := permanentName_quiet (P := P) hvalue
    obtain ⟨h₂, hkey'⟩ := permanentName_quiet (P := P) hcaught
    refine ⟨h₁.trans h₂, ?_⟩
    rw [Relay.check?, hstart (h₁.names.trans h₂.names)]
    simp [h₂.names.kept hkey, hkey']

/-- The relays `rs` of wrap `i` were handed on or met with their jumps. -/
structure Resolves (P : Edit → Prop) (i : Nat) (rs : List Relay) (l l' : Lowering) : Prop
    extends Writes P l l' where
  relays : ∀ k, (l'.exit k).relays =
    (rs.filter fun r => l.forwardTo? i r = some k).foldl appendNew (l.exit k).relays
  checks : ∃ cs, List.Forall₂
      (fun r c => r.check? l'.draft.names (l.forwardTo? i r).isSome = some c) rs cs ∧
    ∀ k, (l'.exit k).checks = if k = i then (l.exit k).checks ++ cs else (l.exit k).checks

theorem resolveRelay_resolves (hsize : l.exits.size = l.wraps.size) (hi : i < l.wraps.size)
    (h : resolveRelay i l r = .ok l') : Resolves P i [r] l l' := by
  unfold resolveRelay at h
  obtain ⟨⟨l₁, flag⟩, hname, h⟩ := bind_eq_ok.1 h
  obtain ⟨h₁, hflag⟩ := permanentName_quiet (P := P) hname
  dsimp only at h
  split at h
  · next p hp =>
    rw [h₁.forwardTo?] at hp
    obtain ⟨⟨l₂, value⟩, hvalue, h⟩ := bind_eq_ok.1 h
    cases h
    obtain ⟨h₂, hval, hsome⟩ := valueName?_quiet (P := P) hvalue
    have hq := h₁.trans h₂
    have hadd := addRelay_adds (P := P) (l₂.addCheck i (forwardText flag value)) p r
    have hcheck := addCheck_writes (P := P) l₂ i (forwardText flag value)
    refine ⟨hq.toWrites.trans (hcheck.trans hadd.toWrites), fun k => ?_,
      [forwardText flag value], ?_, fun k => ?_⟩
    · obtain ⟨w, o, -, -, ho, -⟩ := forwardTo?_eq_some hp
      have hlt : p < (l₂.addCheck i (forwardText flag value)).exits.size := by
        rw [hcheck.size, hq.size, hsize]
        exact (Array.getElem?_eq_some_iff.1 ho).1
      rw [hadd.relays, relays_addCheck, hq.relays, List.filter_singleton, hp]
      by_cases hk : k = p
      · rw [if_pos ⟨hk, hlt⟩, hk]
        simp
      · rw [if_neg fun h => hk h.1]
        simp [Ne.symm hk]
    · refine .cons ?_ .nil
      rw [hp]
      exact Relay.check?_handsOn (h₂.names.kept hflag) hval hsome
    · rw [hadd.checks, checks_addCheck, hq.checks, hq.size, hsize]
      simp [hi]
  · next hp =>
    rw [h₁.forwardTo?] at hp
    obtain ⟨⟨l₂, check⟩, hcheck, h⟩ := bind_eq_ok.1 h
    cases h
    obtain ⟨h₂, hc⟩ := checkOf_quiet (P := P) hflag hcheck
    have hq := h₁.trans h₂
    have hd := addDeclared_quiet (P := P) (l₂.addCheck i check) (l₂.outermost i) [flag]
    refine ⟨hq.toWrites.trans ((addCheck_writes l₂ i check).trans hd.toWrites), fun k => ?_,
      [check], ?_, fun k => ?_⟩
    · rw [hd.relays, relays_addCheck, hq.relays, List.filter_singleton, hp]
      rfl
    · refine .cons ?_ .nil
      rw [hp]
      exact hc
    · rw [hd.checks, checks_addCheck, hq.checks, hq.size, hsize]
      simp [hi]

namespace Resolves

variable {rs rs' : List Relay} {l'' : Lowering}

theorem nil (i : Nat) (l : Lowering) : Resolves P i [] l l :=
  ⟨.refl l, fun _ => rfl, [], .nil, fun k => by rw [List.append_nil, ite_self]⟩

theorem append (h : Resolves P i rs l l') (h' : Resolves P i rs' l' l'') :
    Resolves P i (rs ++ rs') l l'' := by
  obtain ⟨cs, hcs, hchecks⟩ := h.checks
  obtain ⟨cs', hcs', hchecks'⟩ := h'.checks
  refine ⟨h.toWrites.trans h'.toWrites, fun k => ?_, cs ++ cs', ?_, fun k => ?_⟩
  · rw [h'.relays, h.relays, List.filter_append, List.foldl_append]
    simp only [h.forwardTo?]
  · refine List.rel_append (hcs.imp fun {r c} hc => ?_) (hcs'.imp fun {r c} hc => ?_)
    · exact Relay.check?_mono h'.names hc
    · rwa [h.forwardTo?] at hc
  · rw [hchecks', hchecks]
    split
    · rw [List.append_assoc]
    · rfl

end Resolves

theorem foldlM_resolves {rs : List Relay} (hsize : l.exits.size = l.wraps.size)
    (hi : i < l.wraps.size) (h : rs.foldlM (resolveRelay i) l = .ok l') : Resolves P i rs l l' := by
  induction rs generalizing l with
  | nil =>
    rw [List.foldlM_nil, pure_eq_ok] at h
    exact h ▸ .nil i l
  | cons r rs ih =>
    obtain ⟨l₁, h₁, h⟩ := foldlM_cons_eq_ok.1 h
    have hr : Resolves P i [r] l l₁ := resolveRelay_resolves hsize hi h₁
    rw [← List.singleton_append]
    exact hr.append (ih (by rw [hr.size, hr.wraps, hsize]) (by rwa [hr.wraps]) h)

theorem resolveRelays_resolves (hsize : l.exits.size = l.wraps.size) (hi : i < l.wraps.size)
    (h : l.resolveRelays i = .ok l') : Resolves P i (l.exit i).relays l l' :=
  foldlM_resolves hsize hi h

/-! ## All relays -/

/-- Wrap `k` relays `r`: a jump or return of its body does, or a wrap that hands it on to `k`. -/
inductive Carried (l : Lowering) : Nat → Relay → Prop where
  | site {k : Nat} {r : Relay} (h : r ∈ l.ownRelays k) : Carried l k r
  | handedOn {i k : Nat} {r : Relay} (h : Carried l i r) (hf : l.forwardTo? i r = some k) :
    Carried l k r

theorem carried_iff : l.Carried k r ↔
    r ∈ l.ownRelays k ∨ ∃ i, l.Carried i r ∧ l.forwardTo? i r = some k := by
  constructor
  · intro h
    cases h with
    | site h => exact .inl h
    | handedOn h hf => exact .inr ⟨_, h, hf⟩
  · rintro (h | ⟨i, h, hf⟩)
    · exact .site h
    · exact .handedOn h hf

theorem Keeps.carried_iff (h : Keeps l l') : l'.Carried k r ↔ l.Carried k r := by
  constructor
  · intro hc
    induction hc with
    | site hs => exact .site (h.ownRelays _ ▸ hs)
    | handedOn _ hf ih => exact .handedOn ih (h.forwardTo? _ _ ▸ hf)
  · intro hc
    induction hc with
    | site hs => exact .site ((h.ownRelays _).symm ▸ hs)
    | handedOn _ hf ih => exact .handedOn ih ((h.forwardTo? _ _).trans hf)

/-- The checks of a wrap are those of its relays, one for each. -/
def Checked (l : Lowering) (k : Nat) : Prop :=
  List.Forall₂ (fun r c => r.check? l.draft.names (l.forwardTo? k r).isSome = some c)
    (l.exit k).relays (l.exit k).checks

theorem Checked.mono (h : Quiet P l l') (hk : l.Checked k) : l'.Checked k := by
  unfold Checked
  rw [h.relays, h.checks]
  refine hk.imp fun {r c} hc => ?_
  rw [h.forwardTo?]
  exact Relay.check?_mono h.names hc

theorem exists_of_forall₂ {α β : Type} {R : α → β → Prop} {as : List α} {bs : List β} {a : α}
    (h : List.Forall₂ R as bs) (ha : a ∈ as) : ∃ b ∈ bs, R a b := by
  induction h with
  | nil => cases ha
  | cons hab _ ih =>
    rcases List.mem_cons.1 ha with rfl | ha
    · exact ⟨_, List.mem_cons_self, hab⟩
    · obtain ⟨b, hb, hR⟩ := ih ha
      exact ⟨b, List.mem_cons_of_mem _ hb, hR⟩

/-! ## The order of the wraps -/

/-- The wraps are wraps of loops in a well-formed table, with their parents. -/
structure Nested (l : Lowering) : Prop where
  nodes : l.nodes.WellFormed
  wraps : WrapsOf l.nodes l.wraps
  parents : ∀ {i : Nat}, i < l.wraps.size → l.parent? i = parentOf? l.nodes l.wraps i

theorem Nested.parent (hn : l.Nested) {w : Wrap} (hi : l.wraps[i]? = some w)
    (hp : l.parent? i = some p) : p ≠ i ∧ ∃ o, l.wraps[p]? = some o ∧ l.nodes.Inside o.body w.loop ∧
      ∀ {j : Nat} {v : Wrap}, l.wraps[j]? = some v → j ≠ i → l.nodes.Inside v.body w.loop →
        l.nodes.Inside v.body o.body := by
  rw [hn.parents (Array.getElem?_eq_some_iff.1 hi).1] at hp
  exact hn.wraps.parentOf?_eq_some hn.nodes hi hp

/-- A wrap without parent lies in no wrapped body. -/
theorem Nested.not_inside_body (hn : l.Nested) {v w : Wrap} {j : Nat} (hi : l.wraps[i]? = some w)
    (hp : l.parent? i = none) (hj : l.wraps[j]? = some v) : ¬l.nodes.Inside v.body w.loop := by
  intro hin
  by_cases hji : j = i
  · subst hji
    rw [hj, Option.some.injEq] at hi
    subst hi
    exact absurd (hin.le hn.nodes) (Nat.not_le_of_lt (hn.wraps.loop_lt_body hn.nodes hj))
  · rw [hn.parents (Array.getElem?_eq_some_iff.1 hi).1] at hp
    exact hn.wraps.parentOf?_eq_none hn.nodes hi hp hj hji hin

theorem Keeps.nested (h : Keeps l l') (hn : l.Nested) : l'.Nested where
  nodes := h.nodes ▸ hn.nodes
  wraps := by
    rw [h.nodes, h.wraps]
    exact hn.wraps
  parents hi := by
    rw [h.wraps] at hi ⊢
    rw [h.parent?, h.nodes]
    exact hn.parents hi

theorem perm_innerFirst (l : Lowering) : l.innerFirst.Perm (List.range l.wraps.size) :=
  (sortBy_perm _ _).trans ((sortBy_perm _ _).trans (sortBy_perm _ _))

theorem mem_innerFirst : k ∈ l.innerFirst ↔ k < l.wraps.size := by
  rw [l.perm_innerFirst.mem_iff, List.mem_range]

/-- How long the body of a wrap is. -/
def bodyLength (l : Lowering) (i : Nat) : Nat :=
  l.nodes.length (((l.wraps[i]?).map (·.body)).getD Nodes.root)

/-- Short bodies come first. -/
theorem pairwise_bodyLength (l : Lowering) :
    l.innerFirst.Pairwise fun a b => decide (l.bodyLength a ≤ l.bodyLength b) = true :=
  @pairwise_sortBy _ (fun a b => decide (l.bodyLength a ≤ l.bodyLength b))
    (fun a b c hab hbc => decide_eq_true (Nat.le_trans (of_decide_eq_true hab) (of_decide_eq_true hbc)))
    (fun a b => by simpa using Nat.le_total (l.bodyLength a) (l.bodyLength b)) _

/-- A body that lies inside another one is shorter. -/
theorem Nested.bodyLength_lt (hn : l.Nested) {v w : Wrap} {i j : Nat} (hi : l.wraps[i]? = some v)
    (hj : l.wraps[j]? = some w) (hne : i ≠ j) (hin : l.nodes.Inside w.body v.body) :
    l.bodyLength i < l.bodyLength j := by
  have hlt := hn.wraps.length_lt hn.nodes hi hj hne hin
    (exists_get?_of_parent?_eq_some (hn.wraps.parent?_body hn.nodes hi))
  rwa [bodyLength, bodyLength, hi, hj]

/-- Each wrap comes before its parent. -/
theorem pairwise_innerFirst (hn : l.Nested) :
    l.innerFirst.Pairwise fun a b => a ≠ b ∧ l.parent? b ≠ some a := by
  have hne : l.innerFirst.Nodup := l.perm_innerFirst.nodup_iff.2 List.nodup_range
  refine (hne.and l.pairwise_bodyLength).imp_of_mem fun {a b} ha hb hab => ⟨hab.1, fun hp => ?_⟩
  have hb' := Array.getElem?_eq_getElem (mem_innerFirst.1 hb)
  obtain ⟨-, o, ho, hin, -⟩ := hn.parent hb' hp
  have hlt := hn.bodyLength_lt hb' ho hab.1.symm (.up (hn.wraps.parent?_body hn.nodes hb') hin)
  exact absurd hlt (Nat.not_lt_of_le (of_decide_eq_true hab.2))

/-! ## What the lowering ends with -/

/-- Relays have been resolved for all wraps but `rest`. -/
structure Resolved (l₀ : Lowering) (rest : List Nat) (l : Lowering) : Prop where
  nodup : ∀ k, (l.exit k).relays.Nodup
  waiting : ∀ k ∈ rest, (l.exit k).checks = [] ∧ ∀ r, r ∈ (l.exit k).relays ↔
    r ∈ l₀.ownRelays k ∨ ∃ i, i ∉ rest ∧ l₀.Carried i r ∧ l₀.forwardTo? i r = some k
  done : ∀ k < l₀.wraps.size, k ∉ rest →
    (∀ r, r ∈ (l.exit k).relays ↔ l₀.Carried k r) ∧ l.Checked k

/-- All wraps that hand something on to the next one are resolved. -/
theorem Resolved.mem_relays_head {l₀ : Lowering} {rest : List Nat} (hn : l₀.Nested)
    (hrest : (i :: rest).Pairwise fun a b => a ≠ b ∧ l₀.parent? b ≠ some a)
    (h : Resolved l₀ (i :: rest) l) (r : Relay) : r ∈ (l.exit i).relays ↔ l₀.Carried i r := by
  obtain ⟨hhead, -⟩ := List.pairwise_cons.1 hrest
  rw [(h.waiting i List.mem_cons_self).2 r, carried_iff]
  refine or_congr_right
    ⟨fun ⟨j, _, hj⟩ => ⟨j, hj⟩, fun ⟨j, hj, hf⟩ => ⟨j, fun hmem => ?_, hj, hf⟩⟩
  obtain ⟨w, o, hw, hp, -⟩ := forwardTo?_eq_some hf
  rcases List.mem_cons.1 hmem with rfl | hmem
  · exact (hn.parent hw hp).1 rfl
  · exact (hhead j hmem).2 hp

theorem Resolved.step {l₀ : Lowering} {rest : List Nat} (hn : l₀.Nested)
    (hsize : l.exits.size = l.wraps.size) (hk : Keeps l₀ l) (hi : i < l₀.wraps.size)
    (hrest : (i :: rest).Pairwise fun a b => a ≠ b ∧ l₀.parent? b ≠ some a)
    (hlater : ∀ p, l₀.parent? i = some p → p ∈ rest) (h : Resolved l₀ (i :: rest) l)
    (hstep : l.resolveRelays i = .ok l') : Resolved l₀ rest l' := by
  have hres : Resolves (fun _ => True) i (l.exit i).relays l l' :=
    resolveRelays_resolves hsize (hk.wraps ▸ hi) hstep
  obtain ⟨hhead, -⟩ := List.pairwise_cons.1 hrest
  have hnot : i ∉ rest := fun hmem => (hhead i hmem).1 rfl
  have hcarried := h.mem_relays_head hn hrest
  have hfilter {k : Nat} (hmem : k ∉ rest) :
      ((l.exit i).relays.filter fun r => l.forwardTo? i r = some k) = [] := by
    refine List.filter_eq_nil_iff.2 fun r _ hf => hmem ?_
    obtain ⟨w, o, -, hp, -⟩ := forwardTo?_eq_some (of_decide_eq_true hf)
    exact hlater k (hk.parent? i ▸ hp)
  obtain ⟨cs, hcs, hchecks⟩ := hres.checks
  refine ⟨fun k => ?_, fun k hmem => ⟨?_, fun r => ?_⟩, fun k hlt hmem => ?_⟩
  · rw [hres.relays]
    exact nodup_foldl_appendNew (h.nodup k) _
  · rw [hchecks, if_neg (hhead k hmem).1.symm]
    exact (h.waiting k (List.mem_cons_of_mem _ hmem)).1
  · rw [hres.relays, mem_foldl_appendNew, (h.waiting k (List.mem_cons_of_mem _ hmem)).2,
      List.mem_filter, hcarried, hk.forwardTo?, decide_eq_true_eq, or_assoc]
    refine or_congr_right ⟨?_, ?_⟩
    · rintro (⟨j, hj, hc⟩ | hc)
      · exact ⟨j, fun hj' => hj (List.mem_cons_of_mem _ hj'), hc⟩
      · exact ⟨i, hnot, hc⟩
    · rintro ⟨j, hj, hc⟩
      by_cases hji : j = i
      · exact .inr (hji ▸ hc)
      · exact .inl ⟨j, fun hmem' => (List.mem_cons.1 hmem').elim hji hj, hc⟩
  · by_cases hki : k = i
    · subst hki
      refine ⟨fun r => ?_, ?_⟩
      · rw [hres.relays, hfilter hmem]
        exact hcarried r
      · unfold Checked
        rw [hres.relays, hfilter hmem, hchecks, if_pos rfl,
          (h.waiting k List.mem_cons_self).1, List.nil_append]
        simp only [hres.forwardTo?]
        exact hcs
    · obtain ⟨hrelays, hchecked⟩ := h.done k hlt fun hmem' => (List.mem_cons.1 hmem').elim hki hmem
      have hsame : (l'.exit k).relays = (l.exit k).relays := by
        rw [hres.relays, hfilter hmem]
        rfl
      refine ⟨fun r => hsame ▸ hrelays r, ?_⟩
      unfold Checked
      rw [hsame, hchecks, if_neg hki]
      refine hchecked.imp fun {r c} hc => ?_
      rw [hres.forwardTo?]
      exact Relay.check?_mono hres.names hc

/-- Relays are resolved wrap by wrap, parents last, and `rest` come next. -/
structure Underway (l₀ : Lowering) (rest : List Nat) (l : Lowering) : Prop
    extends Resolved l₀ rest l where
  nested : l₀.Nested
  size : l.exits.size = l.wraps.size
  keeps : Keeps l₀ l
  lt_size : ∀ i ∈ rest, i < l₀.wraps.size
  ordered : rest.Pairwise fun a b => a ≠ b ∧ l₀.parent? b ≠ some a
  parent_mem : ∀ i ∈ rest, ∀ p, l₀.parent? i = some p → p ∈ rest

namespace Underway

variable {l₀ : Lowering} {rest : List Nat}

theorem step (h : Underway l₀ (i :: rest) l) (hstep : l.resolveRelays i = .ok l') :
    Underway l₀ rest l' := by
  have hi := h.lt_size i List.mem_cons_self
  have hwrites : Writes (fun _ => True) l l' :=
    (resolveRelays_resolves h.size (h.keeps.wraps ▸ hi) hstep).toWrites
  obtain ⟨hhead, htail⟩ := List.pairwise_cons.1 h.ordered
  have hafter {j p : Nat} (hj : j ∈ i :: rest) (hp : l₀.parent? j = some p) (hpi : p ≠ i) :
      p ∈ rest := by
    rcases List.mem_cons.1 (h.parent_mem j hj p hp) with heq | hmem
    · exact absurd heq hpi
    · exact hmem
  refine ⟨h.toResolved.step h.nested h.size h.keeps hi h.ordered
    (fun p hp => hafter List.mem_cons_self hp ?_) hstep, h.nested,
    by rw [hwrites.size, hwrites.wraps, h.size], h.keeps.trans hwrites.toKeeps,
    fun j hj => h.lt_size j (List.mem_cons_of_mem _ hj), htail,
    fun j hj p hp => hafter (List.mem_cons_of_mem _ hj) hp ?_⟩
  · rintro rfl
    exact (h.nested.parent (Array.getElem?_eq_getElem hi) hp).1 rfl
  · rintro rfl
    exact (hhead j hj).2 hp

theorem foldlM (h : Underway l₀ rest l) (hf : rest.foldlM resolveRelays l = .ok l') :
    Resolved l₀ [] l' :=
  (foldlM_induct (P := Underway l₀) (fun _ _ _ _ ht hstep => ht.step hstep) h hf).toResolved

end Underway

/-- The sites of all bodies. -/
def allSites (l : Lowering) : List NodeId :=
  (List.range l.wraps.size).flatMap fun i => (l.sites i).map (·.2)

theorem sites_subset_allSites (hi : i < l.wraps.size) : (l.sites i).map (·.2) ⊆ l.allSites :=
  fun _ hs => List.mem_flatMap.2 ⟨i, List.mem_range.2 hi, hs⟩

theorem foldlM_adaptBody {l₀ : Lowering} {order : List Nat} (hsize : l.exits.size = l.wraps.size)
    (hk : Keeps l₀ l) (hall : ∀ i ∈ order, i < l₀.wraps.size)
    (h : order.foldlM adaptBody l = .ok l') :
    Writes (Edit.At l₀.nodes l₀.allSites) l l' ∧
      (∀ k, (l'.exit k).checks = (l.exit k).checks) ∧
      (∀ k, (l.exit k).relays.Nodup → (l'.exit k).relays.Nodup) ∧
      ∀ k r, r ∈ (l'.exit k).relays ↔
        r ∈ (l.exit k).relays ∨ k ∈ order ∧ r ∈ l₀.ownRelays k := by
  induction order generalizing l with
  | nil =>
    rw [List.foldlM_nil, pure_eq_ok] at h
    subst h
    exact ⟨.refl l, fun _ => rfl, fun _ => id, by simp⟩
  | cons i order ih =>
    obtain ⟨l₁, h₁, h⟩ := foldlM_cons_eq_ok.1 h
    have hi := hall i List.mem_cons_self
    have hadds := adaptBody_adds h₁
    rw [hk.ownRelays, hk.sites, hk.nodes] at hadds
    have hwrites := hadds.toWrites.mono fun _ he => he.mono (sites_subset_allSites hi)
    obtain ⟨hrest, hchecks, hnodup, hmem⟩ := ih (by rw [hwrites.size, hwrites.wraps, hsize])
      (hk.trans hwrites.toKeeps) (fun j hj => hall j (List.mem_cons_of_mem _ hj)) h
    refine ⟨hwrites.trans hrest, fun k => (hchecks k).trans (hadds.checks k),
      fun k hk' => hnodup k ?_, fun k r => ?_⟩
    · rw [hadds.relays]
      split
      · exact nodup_foldl_appendNew hk' _
      · exact hk'
    · rw [hmem, hadds.relays]
      by_cases hki : k = i
      · subst hki
        rw [if_pos ⟨rfl, by rw [hsize, hk.wraps]; exact hi⟩, mem_foldl_appendNew]
        simp only [List.mem_cons, true_or, true_and]
        tauto
      · rw [if_neg fun h => hki h.1]
        simp [hki]

end Lowering

end LoopClosure
