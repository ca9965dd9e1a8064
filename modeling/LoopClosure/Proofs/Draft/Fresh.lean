import LoopClosure.Draft.Names
import LoopClosure.Proofs.Success
import Mathlib.Data.List.Nodup
import Mathlib.Data.List.Perm.Subperm

/-!
# Fresh names

A new name is the first candidate that is free (`Names.unique_cases`). A key keeps its name, and no
two keys share one (`Names.Sound`, `Names.permanentName_spec`).

`Names.Fresh ids n`: the names given out so far are candidates of their keys, and none of them is in
`ids`. No name is a candidate of two keys (`candidate_injective`), so only `ids` can use up the
candidates of a key, and with fewer of them than probes a name is always found
(`Fresh.exists_permanentName`).
-/

namespace LoopClosure.Names

variable {n n' n'' : Names} {ids : List String} {base base' key name : String} {i j : Nat}

/-! ## Names given out -/

/-- The names of keys may not be given out again, and no two keys share one. -/
structure Sound (n : Names) : Prop where
  taken : ∀ {key name : String}, n.permanent? key = some name → n.isTaken name = true
  injective : ∀ {key key' name : String}, n.permanent? key = some name →
    n.permanent? key' = some name → key = key'

/-- Names were given out, and none taken back. -/
structure Extends (n n' : Names) : Prop where
  kept : ∀ {key name : String}, n.permanent? key = some name → n'.permanent? key = some name
  sound : n.Sound → n'.Sound

theorem Extends.refl (n : Names) : Extends n n := ⟨id, id⟩

theorem Extends.trans (h : Extends n n') (h' : Extends n' n'') : Extends n n'' :=
  ⟨fun hk => h'.kept (h.kept hk), fun hs => h'.sound (h.sound hs)⟩

theorem sound_of_permanent (h : n.permanent = []) : n.Sound := by
  have hnone : ∀ key, n.permanent? key = none := fun key => by rw [permanent?, h]; rfl
  refine ⟨fun {key name} hk => ?_, fun {key _ name} hk => ?_⟩ <;>
    · rw [hnone] at hk
      cases hk

/-- A probe looks for the first number whose candidate is free. -/
theorem probe?_eq_find? (free : String → Bool) (base : String) (count i : Nat) :
    probe? free base count i =
      ((List.range' i count).find? (free ∘ candidate base)).map (candidate base) := by
  induction count generalizing i with
  | zero => rfl
  | succ count ih =>
    rw [probe?, List.range'_succ, List.find?_cons, Function.comp_apply]
    cases free (candidate base i) with
    | true => rfl
    | false => exact ih (i + 1)

/-- The name may be given out to a call that excludes some names. -/
def Free (n : Names) (excluded : String → Bool) (name : String) : Prop :=
  n.isTaken name = false ∧ excluded name = false

/-- What a call for a new name fails with. -/
def exhausted (base : String) : Failure :=
  .internal ("no free synthetic name for " ++ base ++ " after " ++ toString maxProbes ++ " probes")

/-- A call for a new name gets the first candidate that is free, or fails if none is. -/
theorem unique_cases (n : Names) (base : String) (excluded : String → Bool) :
    (∃ i < maxProbes, n.Free excluded (candidate base i) ∧
      (∀ j < i, ¬n.Free excluded (candidate base j)) ∧
      n.unique base excluded =
        .ok ({ n with taken := candidate base i :: n.taken }, candidate base i)) ∨
    (∀ i < maxProbes, ¬n.Free excluded (candidate base i)) ∧
      n.unique base excluded = .error (exhausted base) := by
  have hfree (name : String) :
      (!n.isTaken name && !excluded name) = true ↔ n.Free excluded name := by
    rw [Bool.and_eq_true, Bool.not_eq_true', Bool.not_eq_true']
    rfl
  unfold unique
  rw [probe?_eq_find?]
  cases hfind : (List.range' 0 maxProbes).find?
      ((fun name => !n.isTaken name && !excluded name) ∘ candidate base) with
  | some i =>
    obtain ⟨hi, hmem, hbefore⟩ := List.find?_range'_eq_some.1 hfind
    refine .inl ⟨i, by simpa using hmem, (hfree _).1 hi, fun j hj hf => ?_, rfl⟩
    have hnot := hbefore j (Nat.zero_le j) hj
    rw [Function.comp_apply, (hfree _).2 hf] at hnot
    cases hnot
  | none =>
    refine .inr ⟨fun i hi hf => ?_, rfl⟩
    have hnot := List.find?_range'_eq_none.1 hfind i (Nat.zero_le i) (by simpa using hi)
    rw [Function.comp_apply, (hfree _).2 hf] at hnot
    cases hnot

theorem unique_eq_ok (h : n.unique base = .ok (n', name)) :
    n.isTaken name = false ∧ n' = { n with taken := name :: n.taken } := by
  rcases unique_cases n base (fun _ => false) with ⟨i, -, hfree, -, heq⟩ | ⟨-, heq⟩
  · cases h.symm.trans heq
    exact ⟨hfree.1, rfl⟩
  · cases h.symm.trans heq

/-- Where nothing is excluded, what is not free is taken. -/
theorem isTaken_of_not_free (h : ¬n.Free (fun _ => false) name) : n.isTaken name = true := by
  by_contra hnot
  exact h ⟨Bool.eq_false_iff.2 hnot, rfl⟩

theorem permanent?_cons {p : List (String × String)} :
    permanent? ⟨n.taken, (key, name) :: p⟩ base =
      if base = key then some name else p.lookup base := by
  rw [permanent?, List.lookup_cons]
  by_cases hk : base = key
  · rw [hk, if_pos rfl, beq_self_eq_true]
  · rw [if_neg hk, beq_eq_false_iff_ne.2 hk]

theorem permanentName_spec (h : n.permanentName key = .ok (n', name)) :
    n'.permanent? key = some name ∧ n.Extends n' := by
  unfold permanentName at h
  split at h
  · next hk =>
    cases h
    exact ⟨hk, .refl n⟩
  · next hnone =>
    obtain ⟨⟨n₁, name₁⟩, hu, h⟩ := bind_eq_ok.1 h
    obtain ⟨hfree, rfl⟩ := unique_eq_ok hu
    cases h
    have hlookup (k : String) : permanent? ⟨name :: n.taken, (key, name) :: n.permanent⟩ k =
        if k = key then some name else n.permanent? k :=
      permanent?_cons (n := ⟨name :: n.taken, []⟩)
    refine ⟨by rw [hlookup, if_pos rfl], fun {k v} hk => ?_, fun hs => ⟨fun {k v} hk => ?_, ?_⟩⟩
    · have hne : k ≠ key := by
        rintro rfl
        rw [hnone] at hk
        cases hk
      rw [hlookup, if_neg hne, hk]
    · rw [isTaken, List.contains_cons, Bool.or_eq_true]
      rw [hlookup] at hk
      split at hk
      · cases hk
        exact .inl (beq_self_eq_true _)
      · exact .inr (hs.taken hk)
    · -- The new name is not one of the old names, which are all taken.
      have hnew {k : String} (hk : n.permanent? k = some name) : False := by
        rw [hs.taken hk] at hfree
        cases hfree
      intro k k' v hk hk'
      rw [hlookup] at hk hk'
      split at hk <;> split at hk'
      · exact Eq.trans ‹_› (Eq.symm ‹_›)
      · cases hk
        exact absurd hk' hnew
      · cases hk'
        exact absurd hk hnew
      · exact hs.injective hk hk'

/-! ## Candidates -/

theorem dollar_not_mem_toDigits (i : Nat) : '$' ∉ Nat.toDigits 10 i := fun h =>
  absurd (Nat.isDigit_of_mem_toDigits (by decide) (by decide) h) (by decide)

theorem toList_candidate (base : String) (i : Nat) :
    (candidate base i).toList = base.toList ++ '$' :: Nat.toDigits 10 i := by
  simp [candidate]

theorem dollar_mem_candidate (base : String) (i : Nat) : '$' ∈ (candidate base i).toList := by
  simp [toList_candidate]

/-- The number of a candidate is what follows its last dollar sign. -/
theorem reverse_candidate (base : String) (i : Nat) :
    (candidate base i).toList.reverse.takeWhile (· ≠ '$') = (Nat.toDigits 10 i).reverse ∧
      (candidate base i).toList.reverse.dropWhile (· ≠ '$') = '$' :: base.toList.reverse := by
  have hdigits : ∀ c ∈ (Nat.toDigits 10 i).reverse, decide (c ≠ '$') = true := fun c hc =>
    decide_eq_true (ne_of_mem_of_not_mem (List.mem_reverse.1 hc) (dollar_not_mem_toDigits i))
  rw [toList_candidate, List.reverse_append, List.reverse_cons, List.append_assoc,
    List.singleton_append, List.takeWhile_append_of_pos hdigits,
    List.dropWhile_append_of_pos hdigits]
  simp

theorem candidate_injective (h : candidate base i = candidate base' j) : base = base' ∧ i = j := by
  obtain ⟨hdigits, hbase⟩ := reverse_candidate base i
  obtain ⟨hdigits', hbase'⟩ := reverse_candidate base' j
  rw [h, hdigits'] at hdigits
  rw [h, hbase'] at hbase
  refine ⟨String.toList_inj.1 (List.reverse_injective (List.cons.inj hbase).2.symm), ?_⟩
  calc
    i = Nat.ofDigitChars 10 (Nat.toDigits 10 i) 0 := Nat.ofDigitChars_ten_toDigits.symm
    _ = Nat.ofDigitChars 10 (Nat.toDigits 10 j) 0 := by rw [List.reverse_injective hdigits]
    _ = j := Nat.ofDigitChars_ten_toDigits

/-- Fewer names than numbers cannot be all candidates of a base. -/
theorem exists_candidate_not_mem (base : String) {count : Nat} (h : ids.length < count) :
    ∃ k < count, candidate base k ∉ ids := by
  by_contra hall
  have hsub : (List.range count).map (candidate base) ⊆ ids := fun name hname => by
    obtain ⟨k, hk, rfl⟩ := List.mem_map.1 hname
    by_contra hnot
    exact hall ⟨k, List.mem_range.1 hk, hnot⟩
  have hnodup : ((List.range count).map (candidate base)).Nodup :=
    List.Nodup.map (fun _ _ hij => (candidate_injective hij).2) List.nodup_range
  have hle := (List.subperm_of_subset hnodup hsub).length_le
  rw [List.length_map, List.length_range] at hle
  exact absurd h (Nat.not_lt.2 hle)

/-! ## Names of keys -/

/-- What is given out are candidates, each of its key, none of them in `ids`; and no other names are
taken. -/
structure Fresh (ids : List String) (n : Names) : Prop where
  candidate : ∀ {key name : String}, n.permanent? key = some name →
    ∃ i, name = Names.candidate ("$" ++ key) i
  notMem : ∀ {key name : String}, n.permanent? key = some name → name ∉ ids
  taken : ∀ {name : String}, n.isTaken name = true ↔
    name ∈ ids ∨ ∃ key, n.permanent? key = some name

theorem fresh_of_taken (ids : List String) : Fresh ids { taken := ids } where
  candidate hk := (nomatch hk)
  notMem hk := (nomatch hk)
  taken {name} := by
    refine ⟨fun h => .inl (List.contains_iff_mem.1 h), ?_⟩
    rintro (h | ⟨key, hk⟩)
    · exact List.contains_iff_mem.2 h
    · cases hk

/-- The name for a key that had none. -/
def give (n : Names) (key name : String) : Names where
  taken := name :: n.taken
  permanent := (key, name) :: n.permanent

theorem permanent?_give (n : Names) (key name k : String) :
    (n.give key name).permanent? k = if k = key then some name else n.permanent? k :=
  permanent?_cons (n := { n with taken := name :: n.taken })

theorem isTaken_give (n : Names) (key name other : String) :
    (n.give key name).isTaken other = true ↔ other = name ∨ n.isTaken other = true := by
  rw [isTaken, Names.give, List.contains_cons, Bool.or_eq_true, beq_iff_eq]
  rfl

theorem Fresh.give (h : n.Fresh ids) (hnone : n.permanent? key = none)
    (hnew : n.isTaken (Names.candidate ("$" ++ key) i) = false) :
    (n.give key (Names.candidate ("$" ++ key) i)).Fresh ids := by
  have hother {k name : String} (hk : n.permanent? k = some name) : k ≠ key := by
    rintro rfl
    rw [hnone] at hk
    cases hk
  refine ⟨fun {k name} hk => ?_, fun {k name} hk hmem => ?_, fun {name} => ?_⟩
  · rw [permanent?_give] at hk
    split at hk
    · next heq => exact ⟨i, heq ▸ (Option.some.inj hk).symm⟩
    · exact h.candidate hk
  · rw [permanent?_give] at hk
    split at hk
    · cases hk
      rw [h.taken.2 (.inl hmem)] at hnew
      cases hnew
    · exact h.notMem hk hmem
  · rw [isTaken_give, h.taken]
    constructor
    · rintro (rfl | hmem | ⟨k, hk⟩)
      · exact .inr ⟨key, by rw [permanent?_give, if_pos rfl]⟩
      · exact .inl hmem
      · exact .inr ⟨k, by rw [permanent?_give, if_neg (hother hk), hk]⟩
    · rintro (hmem | ⟨k, hk⟩)
      · exact .inr (.inl hmem)
      · rw [permanent?_give] at hk
        split at hk
        · exact .inl (Option.some.inj hk).symm
        · exact .inr (.inr ⟨k, hk⟩)

/-- A key keeps its name, or gets a candidate that is free, unless none is. -/
theorem permanentName_cases (n : Names) (key : String) :
    (∃ name, n.permanent? key = some name ∧ n.permanentName key = .ok (n, name)) ∨
      n.permanent? key = none ∧
        ((∃ i, n.isTaken (Names.candidate ("$" ++ key) i) = false ∧ n.permanentName key =
            .ok (n.give key (Names.candidate ("$" ++ key) i), Names.candidate ("$" ++ key) i)) ∨
          (∃ e, n.permanentName key = .error e) ∧
            ∀ k < maxProbes, n.isTaken (Names.candidate ("$" ++ key) k) = true) := by
  unfold Names.permanentName
  cases hk : n.permanent? key with
  | some name => exact .inl ⟨name, rfl, rfl⟩
  | none =>
    refine .inr ⟨rfl, ?_⟩
    rcases unique_cases n ("$" ++ key) (fun _ => false) with ⟨i, -, hfree, -, heq⟩ | ⟨hall, heq⟩
    · refine .inl ⟨i, hfree.1, ?_⟩
      rw [heq]
      rfl
    · refine .inr ⟨?_, fun k hk => isTaken_of_not_free (hall k hk)⟩
      rw [heq]
      exact ⟨_, rfl⟩

theorem Fresh.of_permanentName (h : n.Fresh ids) (hname : n.permanentName key = .ok (n', name)) :
    n'.Fresh ids := by
  rcases permanentName_cases n key with ⟨_, -, heq⟩ | ⟨hnone, ⟨i, hnew, heq⟩ | ⟨⟨e, heq⟩, -⟩⟩
  · cases hname.symm.trans heq
    exact h
  · cases hname.symm.trans heq
    exact h.give hnone hnew
  · cases hname.symm.trans heq

/-- A key gets a name as long as there are fewer names to avoid than probes. -/
theorem Fresh.exists_permanentName (h : n.Fresh ids) (hids : ids.length < maxProbes)
    (key : String) : ∃ n' name, n.permanentName key = .ok (n', name) := by
  rcases permanentName_cases n key with ⟨_, -, heq⟩ | ⟨hnone, ⟨i, -, heq⟩ | ⟨-, hall⟩⟩
  · exact ⟨_, _, heq⟩
  · exact ⟨_, _, heq⟩
  · -- A candidate of this key that is taken is in `ids`: it is none of another key.
    obtain ⟨k, hk, hnot⟩ := exists_candidate_not_mem ("$" ++ key) hids
    refine absurd ((h.taken.1 (hall k hk)).resolve_right fun ⟨key', hkey'⟩ => ?_) hnot
    obtain ⟨j, hj⟩ := h.candidate hkey'
    obtain rfl : key = key' := by simpa using (candidate_injective hj).1
    rw [hnone] at hkey'
    cases hkey'

end LoopClosure.Names
