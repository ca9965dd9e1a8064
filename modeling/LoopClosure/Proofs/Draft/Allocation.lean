import LoopClosure.Proofs.Draft.Fresh

/-!
# Allocation of names

`Names.log n calls`: the calls for names, each with its answer, in the order in which they are made.
A call that fails changes nothing (`Names.after`).

- `Tracks ids past n`: the names `n` are what is left of the identifiers `ids` after the calls
  `past`. Each call keeps that (`Tracks.step`), and what it answers is told by the past alone
  (`Tracks.least`, `Tracks.stable`, `Tracks.apart`).
- `Allocates ids log`: the answers of a log are the least candidates that are available, keys keep
  their names, and no name is given out twice. So it is for every log (`log_allocates`).
-/

namespace LoopClosure.Names

variable {n : Names} {ids : List String} {name other key : String}

/-! ## Calls -/

/-- A call for a name. -/
inductive Call where
  | unique (base : String) (excluded : String → Bool)
  | permanent (key : String)

namespace Call

/-- What a new name for a call is made from. -/
def base : Call → String
  | unique base _ => base
  | permanent key => "$" ++ key

/-- What a new name for a call must not be. -/
def excluded : Call → String → Bool
  | unique _ excluded => excluded
  | permanent _ => fun _ => false

end Call

variable {c : Call}

/-- What a call returns, together with the names after it. -/
def respond (n : Names) : Call → Except Failure (Names × String)
  | .unique base excluded => n.unique base excluded
  | .permanent key => n.permanentName key

/-- What a call returns. -/
def answer (n : Names) (c : Call) : Except Failure String := (n.respond c).map (·.2)

/-- The names after a call. One that fails changes nothing. -/
def after (n : Names) (c : Call) : Names :=
  match n.respond c with
  | .ok (n', _) => n'
  | .error _ => n

/-- Calls with their answers, the first one first. -/
def log (n : Names) : List Call → List (Call × Except Failure String)
  | [] => []
  | c :: cs => (c, n.answer c) :: (n.after c).log cs

/-- A new name is given out for a call. -/
def grant (n : Names) (name : String) : Call → Names
  | .unique _ _ => { n with taken := name :: n.taken }
  | .permanent key => n.give key name

theorem isTaken_grant (n : Names) (c : Call) (name other : String) :
    (n.grant name c).isTaken other = true ↔ other = name ∨ n.isTaken other = true := by
  cases c with
  | unique base excluded => simp [grant, isTaken]
  | permanent key => exact isTaken_give n key name other

theorem permanent?_grant (n : Names) (c : Call) (name key : String) :
    (n.grant name c).permanent? key = some other ↔
      c = .permanent key ∧ name = other ∨ c ≠ .permanent key ∧ n.permanent? key = some other := by
  cases c with
  | unique base excluded => simp [grant, permanent?]
  | permanent key' =>
    rw [grant, permanent?_give]
    by_cases h : key = key'
    · simp [h]
    · simp [h, Ne.symm h]

/-! ## What a call does -/

/-- A call answers with the name that its key has, or gets the first candidate that is free, or
fails if none of those that are tried is free. -/
theorem respond_cases (n : Names) (c : Call) :
    (∃ key name, c = .permanent key ∧ n.permanent? key = some name ∧ n.respond c = .ok (n, name)) ∨
    (∀ key, c = .permanent key → n.permanent? key = none) ∧
      ((∃ i < maxProbes, n.Free c.excluded (candidate c.base i) ∧
          (∀ j < i, ¬n.Free c.excluded (candidate c.base j)) ∧
          n.respond c = .ok (n.grant (candidate c.base i) c, candidate c.base i)) ∨
        (∀ i < maxProbes, ¬n.Free c.excluded (candidate c.base i)) ∧
          n.respond c = .error (exhausted c.base)) := by
  cases c with
  | unique base excluded =>
    exact .inr ⟨fun key h => (nomatch h), unique_cases n base excluded⟩
  | permanent key =>
    cases hk : n.permanent? key with
    | some name =>
      refine .inl ⟨key, name, rfl, hk, ?_⟩
      rw [respond, permanentName, hk]
    | none =>
      refine .inr ⟨fun key' h => by cases h; exact hk, ?_⟩
      have hrespond : n.respond (.permanent key) = n.unique ("$" ++ key) >>= fun p =>
          .ok ({ p.1 with permanent := (key, p.2) :: p.1.permanent }, p.2) := by
        rw [respond, permanentName, hk]
        rfl
      rw [hrespond]
      rcases unique_cases n ("$" ++ key) (fun _ => false) with
        ⟨i, hi, hfree, hbefore, heq⟩ | ⟨hall, heq⟩
      · refine .inl ⟨i, hi, hfree, hbefore, ?_⟩
        rw [heq]
        rfl
      · refine .inr ⟨hall, ?_⟩
        rw [heq]
        rfl

theorem answer_of_ok {n' : Names} (h : n.respond c = .ok (n', name)) :
    n.answer c = .ok name ∧ n.after c = n' := by
  rw [answer, after, h]
  exact ⟨rfl, rfl⟩

theorem answer_of_error {f : Failure} (h : n.respond c = .error f) :
    n.answer c = .error f ∧ n.after c = n := by
  rw [answer, after, h]
  exact ⟨rfl, rfl⟩

theorem after_of_answer_eq_error {f : Failure} (h : n.answer c = .error f) : n.after c = n := by
  cases hr : n.respond c with
  | ok p =>
    rw [(answer_of_ok hr).1] at h
    cases h
  | error f => exact (answer_of_error hr).2

/-! ## What calls leave -/

variable {past : List (Call × Except Failure String)} {a : Except Failure String}

/-- The name is no identifier, was not given out before, and the call may get it. -/
def Available (ids : List String) (past : List (Call × Except Failure String)) (c : Call)
    (name : String) : Prop :=
  name ∉ ids ∧ (∀ c', (c', .ok name) ∉ past) ∧ c.excluded name = false

/-- The answer is the candidate with the least number that is available, or an error if none of
those that are tried is available. -/
def TakesLeast (ids : List String) (past : List (Call × Except Failure String)) (c : Call)
    (a : Except Failure String) : Prop :=
  (∀ name, a = .ok name ↔ ∃ i < maxProbes, name = candidate c.base i ∧ Available ids past c name ∧
    ∀ j < i, ¬Available ids past c (candidate c.base j)) ∧
  ((∃ f, a = .error f) ↔ ∀ i < maxProbes, ¬Available ids past c (candidate c.base i))

/-- The names `n` are what is left of the identifiers `ids` after the calls `past`. -/
structure Tracks (ids : List String) (past : List (Call × Except Failure String)) (n : Names) :
    Prop where
  taken : ∀ {name}, n.isTaken name = true ↔ name ∈ ids ∨ ∃ c, (c, .ok name) ∈ past
  permanent : ∀ {key name}, n.permanent? key = some name ↔ (.permanent key, .ok name) ∈ past
  /-- The name of a key was given out for no other call. -/
  owner : ∀ {key name c}, n.permanent? key = some name → (c, .ok name) ∈ past → c = .permanent key
  /-- A key that got no name gets none. -/
  barred : ∀ {key f}, (.permanent key, .error f) ∈ past → n.permanent? key = none ∧
    f = exhausted ("$" ++ key) ∧ ∀ i < maxProbes, n.isTaken (candidate ("$" ++ key) i) = true

theorem tracks_of_taken (ids : List String) : Tracks ids [] { taken := ids } where
  taken := by simp [isTaken]
  permanent := by simp [permanent?]
  owner h := (nomatch h)
  barred h := (nomatch h)

namespace Tracks

theorem isTaken_of_mem (h : Tracks ids past n) (hmem : (c, .ok name) ∈ past) :
    n.isTaken name = true :=
  h.taken.2 (.inr ⟨c, hmem⟩)

theorem isTaken_of_permanent? (h : Tracks ids past n) (hk : n.permanent? key = some name) :
    n.isTaken name = true :=
  h.isTaken_of_mem (h.permanent.1 hk)

/-- A new name was given out for a call. -/
theorem granted (h : Tracks ids past n) (hnew : ∀ key, c = .permanent key → n.permanent? key = none)
    {i : Nat} (hi : i < maxProbes) (hfree : n.isTaken (candidate c.base i) = false) :
    Tracks ids (past ++ [(c, .ok (candidate c.base i))]) (n.grant (candidate c.base i) c) := by
  have hfresh {name : String} (ht : n.isTaken name = true) : name ≠ candidate c.base i := by
    rintro rfl
    rw [ht] at hfree
    cases hfree
  have hmem {c' : Call} {a : Except Failure String} :
      (c', a) ∈ past ++ [(c, .ok (candidate c.base i))] ↔
        (c', a) ∈ past ∨ c' = c ∧ a = .ok (candidate c.base i) := by
    rw [List.mem_append, List.mem_singleton, Prod.mk.injEq]
  refine ⟨fun {name} => ?_, fun {key name} => ?_, fun {key name c'} hk hc' => ?_,
    fun {key f} hf => ?_⟩
  · rw [isTaken_grant, h.taken]
    simp only [hmem, Except.ok.injEq]
    constructor
    · rintro (rfl | hids | ⟨c', hc'⟩)
      · exact .inr ⟨c, .inr ⟨rfl, rfl⟩⟩
      · exact .inl hids
      · exact .inr ⟨c', .inl hc'⟩
    · rintro (hids | ⟨c', hc' | ⟨-, rfl⟩⟩)
      · exact .inr (.inl hids)
      · exact .inr (.inr ⟨c', hc'⟩)
      · exact .inl rfl
  · rw [permanent?_grant, hmem, ← h.permanent, Except.ok.injEq]
    constructor
    · rintro (⟨rfl, rfl⟩ | ⟨-, hk⟩)
      · exact .inr ⟨rfl, rfl⟩
      · exact .inl hk
    · rintro (hk | ⟨rfl, rfl⟩)
      · refine .inr ⟨fun e => ?_, hk⟩
        rw [hnew key e] at hk
        cases hk
      · exact .inl ⟨rfl, rfl⟩
  · rw [permanent?_grant] at hk
    rw [hmem, Except.ok.injEq] at hc'
    rcases hk with ⟨hc, rfl⟩ | ⟨-, hk⟩ <;> rcases hc' with hc' | ⟨rfl, heq⟩
    · exact absurd rfl (hfresh (h.isTaken_of_mem hc'))
    · exact hc
    · exact h.owner hk hc'
    · exact absurd heq (hfresh (h.isTaken_of_permanent? hk))
  · obtain ⟨hnone, rfl, hall⟩ := h.barred ((hmem.1 hf).resolve_right fun e => nomatch e.2)
    refine ⟨Option.eq_none_iff_forall_ne_some.2 fun name hk => ?_, rfl, fun j hj =>
      (isTaken_grant ..).2 (.inr (hall j hj))⟩
    rcases (permanent?_grant ..).1 hk with ⟨rfl, -⟩ | ⟨-, hk⟩
    · exact absurd rfl (hfresh (hall i hi))
    · rw [hnone] at hk
      cases hk

/-- No name was found for a call. -/
theorem failed (h : Tracks ids past n) (hnew : ∀ key, c = .permanent key → n.permanent? key = none)
    (hall : ∀ i < maxProbes, ¬n.Free c.excluded (candidate c.base i)) :
    Tracks ids (past ++ [(c, .error (exhausted c.base))]) n := by
  have hmem {c' : Call} {name : String} :
      (c', .ok name) ∈ past ++ [(c, .error (exhausted c.base))] ↔ (c', .ok name) ∈ past := by
    simp
  refine ⟨fun {name} => ?_, fun {key name} => ?_, fun {key name c'} hk hc' => ?_,
    fun {key f} hf => ?_⟩
  · simp only [h.taken, hmem]
  · rw [h.permanent, hmem]
  · exact h.owner hk (hmem.1 hc')
  · rcases List.mem_append.1 hf with hf | hf
    · exact h.barred hf
    · obtain ⟨rfl, heq⟩ := Prod.mk.inj (List.mem_singleton.1 hf)
      cases heq
      exact ⟨hnew key rfl, rfl, fun i hi => isTaken_of_not_free (hall i hi)⟩

/-- The name of a key was returned again. -/
theorem kept (h : Tracks ids past n) (hk : n.permanent? key = some name) :
    Tracks ids (past ++ [(.permanent key, .ok name)]) n := by
  have hmem {c' : Call} {a : Except Failure String} :
      (c', a) ∈ past ++ [(.permanent key, .ok name)] ↔ (c', a) ∈ past := by
    rw [List.mem_append, List.mem_singleton]
    exact or_iff_left_of_imp fun e => e ▸ h.permanent.1 hk
  refine ⟨fun {name} => ?_, fun {key name} => ?_, fun {key name c'} hk hc' => ?_,
    fun {key f} hf => ?_⟩
  · simp only [h.taken, hmem]
  · rw [h.permanent, hmem]
  · exact h.owner hk (hmem.1 hc')
  · exact h.barred (hmem.1 hf)

theorem step (h : Tracks ids past n) (c : Call) :
    Tracks ids (past ++ [(c, n.answer c)]) (n.after c) := by
  rcases respond_cases n c with
    ⟨key, name, rfl, hk, heq⟩ | ⟨hnew, ⟨i, hi, hfree, -, heq⟩ | ⟨hall, heq⟩⟩
  · obtain ⟨ha, hn⟩ := answer_of_ok heq
    rw [ha, hn]
    exact h.kept hk
  · obtain ⟨ha, hn⟩ := answer_of_ok heq
    rw [ha, hn]
    exact h.granted hnew hi hfree.1
  · obtain ⟨ha, hn⟩ := answer_of_error heq
    rw [ha, hn]
    exact h.failed hnew hall

/-! ## What calls answer -/

theorem free_iff (h : Tracks ids past n) : n.Free c.excluded name ↔ Available ids past c name := by
  rw [Free, Bool.eq_false_iff, ne_eq, h.taken]
  simp only [not_or, not_exists, Available, and_assoc]

/-- A call that needs a new name gets the least candidate that is available. -/
theorem least (h : Tracks ids past n) (hnew : ∀ key, c = .permanent key → n.permanent? key = none) :
    TakesLeast ids past c (n.answer c) := by
  rcases respond_cases n c with
    ⟨key, name, hc, hk, -⟩ | ⟨-, ⟨i, hi, hfree, hbefore, heq⟩ | ⟨hall, heq⟩⟩
  · rw [hnew key hc] at hk
    cases hk
  · simp only [h.free_iff] at hfree hbefore
    rw [TakesLeast, (answer_of_ok heq).1]
    refine ⟨fun name => ⟨?_, ?_⟩, iff_of_false ?_ fun hall => hall i hi hfree⟩
    · rintro ⟨⟩
      exact ⟨i, hi, rfl, hfree, hbefore⟩
    · rintro ⟨j, -, rfl, hj, hbefore'⟩
      obtain rfl : i = j := by
        rcases Nat.lt_trichotomy i j with hij | rfl | hij
        · exact absurd hfree (hbefore' i hij)
        · rfl
        · exact absurd hj (hbefore j hij)
      rfl
    · rintro ⟨f, hf⟩
      cases hf
  · simp only [h.free_iff] at hall
    rw [TakesLeast, (answer_of_error heq).1]
    refine ⟨fun name => iff_of_false (fun e => nomatch e) ?_, iff_of_true ⟨_, rfl⟩ hall⟩
    rintro ⟨i, hi, rfl, hfree, -⟩
    exact hall i hi hfree

/-- A key gets the answer that it got before. -/
theorem stable (h : Tracks ids past n) (hmem : (.permanent key, a) ∈ past) :
    n.answer (.permanent key) = a := by
  cases a with
  | ok name =>
    have hk := h.permanent.2 hmem
    have heq : n.respond (.permanent key) = .ok (n, name) := by rw [respond, permanentName, hk]
    exact (answer_of_ok heq).1
  | error f =>
    obtain ⟨hnone, rfl, hall⟩ := h.barred hmem
    rcases respond_cases n (.permanent key) with
      ⟨key', name, hc, hk, -⟩ | ⟨-, ⟨i, hi, hfree, -, -⟩ | ⟨-, heq⟩⟩
    · cases hc
      rw [hnone] at hk
      cases hk
    · have htaken : n.isTaken (candidate (Call.permanent key).base i) = true := hall i hi
      rw [hfree.1] at htaken
      cases htaken
    · exact (answer_of_error heq).1

/-- A name that was given out is given out again for its own key only. -/
theorem apart (h : Tracks ids past n) {c' : Call} (hmem : (c', .ok name) ∈ past)
    (ha : n.answer c = .ok name) : ∃ key, c' = .permanent key ∧ c = .permanent key := by
  rcases respond_cases n c with
    ⟨key, other, rfl, hk, heq⟩ | ⟨-, ⟨i, -, hfree, -, heq⟩ | ⟨-, heq⟩⟩
  · obtain rfl : other = name := by simpa [(answer_of_ok heq).1] using ha
    exact ⟨key, h.owner hk hmem, rfl⟩
  · obtain rfl : candidate c.base i = name := by simpa [(answer_of_ok heq).1] using ha
    have htaken := h.isTaken_of_mem hmem
    rw [hfree.1] at htaken
    cases htaken
  · rw [(answer_of_error heq).1] at ha
    cases ha

end Tracks

/-! ## Runs -/

variable {calls : List Call} {i : Nat}

theorem Tracks.run (h : Tracks ids past n) (hi : (n.log calls)[i]? = some (c, a)) :
    ∃ n', Tracks ids (past ++ (n.log calls).take i) n' ∧ a = n'.answer c := by
  induction calls generalizing n past i with
  | nil => cases hi
  | cons c' calls ih =>
    cases i with
    | zero =>
      cases hi
      exact ⟨n, by simpa [log] using h, rfl⟩
    | succ i =>
      obtain ⟨n', hn', ha⟩ := ih (h.step c') hi
      exact ⟨n', by simpa [log] using hn', ha⟩

/-- What relates each call that was made to every later answer relates the calls of a log. -/
theorem Tracks.pairwise {R : Call × Except Failure String → Call × Except Failure String → Prop}
    (hR : ∀ {past n e c}, Tracks ids past n → e ∈ past → R e (c, n.answer c))
    (h : Tracks ids past n) (calls : List Call) :
    (∀ e ∈ past, ∀ e' ∈ n.log calls, R e e') ∧ (n.log calls).Pairwise R := by
  induction calls generalizing n past with
  | nil => exact ⟨fun e _ e' he' => (nomatch he'), .nil⟩
  | cons c calls ih =>
    obtain ⟨hpast, hrest⟩ := ih (h.step c)
    refine ⟨fun e he e' he' => ?_, ?_⟩
    · rcases List.mem_cons.1 he' with rfl | he'
      · exact hR h he
      · exact hpast e (List.mem_append_left _ he) e' he'
    · exact List.pairwise_cons.2 ⟨hpast _ (List.mem_append_right _ List.mem_cons_self), hrest⟩

theorem map_fst_log (n : Names) (calls : List Call) : (n.log calls).map (·.1) = calls := by
  induction calls generalizing n with
  | nil => rfl
  | cons c calls ih => exact congrArg (List.cons c) (ih (n.after c))

/-- A call that failed leaves no trace: without it the others are answered as they were. -/
theorem log_eraseIdx {f : Failure} (h : (n.log calls)[i]? = some (c, .error f)) :
    n.log (calls.eraseIdx i) = (n.log calls).eraseIdx i := by
  induction calls generalizing n i with
  | nil => cases h
  | cons c' calls ih =>
    cases i with
    | zero =>
      have hanswer : n.answer c' = .error f := congrArg Prod.snd (Option.some.inj h)
      rw [List.eraseIdx_cons_zero, log, List.eraseIdx_cons_zero, after_of_answer_eq_error hanswer]
    | succ i => exact congrArg (List.cons _) (ih h)

/-- The answers of a log of calls are right, given the identifiers that are no names to give out. -/
structure Allocates (ids : List String) (log : List (Call × Except Failure String)) : Prop where
  /-- A call for a base, and the first one for a key, gets the least candidate that is available. -/
  least : ∀ i c a, log[i]? = some (c, a) →
    (∀ key, c = .permanent key → ∀ a', (c, a') ∉ log.take i) → TakesLeast ids (log.take i) c a
  /-- Calls for one key have one answer. -/
  stable : log.Pairwise fun e e' =>
    ∀ key, e.1 = .permanent key → e'.1 = .permanent key → e.2 = e'.2
  /-- No other calls get the same name. -/
  apart : log.Pairwise fun e e' => ∀ name, e.2 = .ok name → e'.2 = .ok name →
    ∃ key, e.1 = .permanent key ∧ e'.1 = .permanent key

/-- Names that are given out are fresh and have the least number that is possible. A call that fails
reserves nothing. -/
theorem log_allocates (ids : List String) (calls : List Call) :
    (log { taken := ids } calls).map (·.1) = calls ∧ Allocates ids (log { taken := ids } calls) ∧
      ∀ i c f, (log { taken := ids } calls)[i]? = some (c, .error f) →
        log { taken := ids } (calls.eraseIdx i) = (log { taken := ids } calls).eraseIdx i := by
  have hstart := tracks_of_taken ids
  refine ⟨map_fst_log _ calls, ⟨fun i c a hi hnew => ?_, ?_, ?_⟩, fun i c f => log_eraseIdx⟩
  · obtain ⟨n, hn, rfl⟩ := hstart.run hi
    rw [List.nil_append] at hn
    refine hn.least fun key hc => Option.eq_none_iff_forall_ne_some.2 fun name hk => ?_
    exact hnew key hc _ (hc ▸ hn.permanent.1 hk)
  · refine (hstart.pairwise (fun {past n e c} hn he key hc hc' => ?_) calls).2
    obtain ⟨c', a⟩ := e
    subst hc hc'
    exact (hn.stable he).symm
  · refine (hstart.pairwise (fun {past n e c} hn he name ha ha' => ?_) calls).2
    obtain ⟨c', a⟩ := e
    subst ha
    exact hn.apart he ha'

end LoopClosure.Names
