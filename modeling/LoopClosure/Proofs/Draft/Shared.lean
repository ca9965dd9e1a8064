import LoopClosure.Proofs.Draft.Ledger

/-!
# Shared variables

- **Names** (`Session.sharedName_eq_iff`): two requests for shared variables get one name exactly if
  they agree on the logical name and the value, and no request between them has another value for
  the logical name. The name of a variable is remembered until its logical name gets another value.
- **Declarations** (`Session.shared_covered_iff`): a variable is declared in one scope by one edit.
  That scope lies around all requests that were answered with the name, exactly as long as each of
  them reaches the declaration that it finds (`Session.Reaches`).
-/

namespace LoopClosure

open Syntax Scopes Draft Binding

namespace Draft

variable {d d' : Draft} {scope : Option ScopeId} {user : NodeId}
  {name base logical other value : String}

/-! ## What is remembered -/

/-- The name and the value of the variable of a logical name. -/
def memo? (d : Draft) (logical : String) : Option (String × String) :=
  (d.shared? logical).map fun v => (v.name, v.value)

theorem shared_declareVar (h : d.declareVar scope name = .ok d') :
    d'.shared = d.shared ∧ d'.names = d.names := by
  unfold declareVar at h
  split at h
  · cases h
    exact ⟨rfl, rfl⟩
  · cases h

theorem memo?_declareShared (h : d.declareShared logical name value scope = .ok d') :
    (∀ other, d'.memo? other = if other = logical then some (name, value) else d.memo? other) ∧
      d'.names = d.names := by
  obtain ⟨d₁, hd₁, h⟩ := bind_eq_ok.1 h
  obtain ⟨hshared, hnames⟩ := shared_declareVar hd₁
  cases h
  refine ⟨fun other => ?_, hnames⟩
  rw [memo?, shared?, List.lookup_cons, hshared]
  by_cases ho : other = logical
  · rw [if_pos ho, ho, beq_self_eq_true]
    rfl
  · rw [if_neg ho, beq_eq_false_iff_ne.2 ho]
    rfl

theorem unique_eq_ok (h : d.unique base = .ok (d', name)) :
    d.names.isTaken name = false ∧ d' = d.take name := by
  rcases d.unique_cases base with ⟨k, hk, heq⟩ | ⟨⟨e, heq⟩, -⟩
  · cases h.symm.trans heq
    exact ⟨hk, rfl⟩
  · cases h.symm.trans heq

/-- A request is answered with the name that is remembered for its value, or with a new one; the
answer is what is remembered then. -/
theorem memo?_sharedVar (h : d.sharedVar scope logical value = .ok (d', name)) :
    (∀ other, d'.memo? other = if other = logical then some (name, value) else d.memo? other) ∧
      (d.memo? logical = some (name, value) ∧ d'.names = d.names ∨
        (∀ n, d.memo? logical ≠ some (n, value)) ∧ d.names.isTaken name = false ∧
          d'.names = (d.take name).names) := by
  unfold sharedVar at h
  extract_lets hoist at h
  split at h
  · next v hfilter =>
    obtain ⟨hv, hvalue⟩ := Option.filter_eq_some_iff.1 hfilter
    have hmemo : d.memo? logical = some (v.name, value) := by
      rw [memo?, hv, Option.map_some, of_decide_eq_true hvalue]
    split at h
    · cases h
      refine ⟨fun other => ?_, .inl ⟨hmemo, rfl⟩⟩
      split
      · next ho => rw [ho, hmemo]
      · rfl
    · obtain ⟨d₁, hd₁, h⟩ := bind_eq_ok.1 h
      cases h
      obtain ⟨hall, hnames⟩ := memo?_declareShared hd₁
      exact ⟨hall, .inl ⟨hmemo, hnames⟩⟩
  · next hfilter =>
    obtain ⟨⟨d₁, name'⟩, hunique, h⟩ := bind_eq_ok.1 h
    obtain ⟨d₂, hd₂, h⟩ := bind_eq_ok.1 h
    cases h
    obtain ⟨hfresh, rfl⟩ := unique_eq_ok hunique
    obtain ⟨hall, hnames⟩ := memo?_declareShared hd₂
    refine ⟨hall, .inr ⟨fun n hn => ?_, hfresh, hnames⟩⟩
    obtain ⟨v, hv, hpair⟩ := Option.map_eq_some_iff.1 hn
    have hvalue : v.value = value := congrArg Prod.snd hpair
    have hsome : (d.shared? logical).filter (·.value = value) = some v :=
      Option.filter_eq_some_iff.2 ⟨hv, decide_eq_true hvalue⟩
    cases hfilter.symm.trans hsome

/-- Temporaries do not touch what is remembered. -/
theorem shared_temporary (h : d.temporary user scope base = .ok (d', name)) :
    d'.shared = d.shared ∧ ∀ n, d.names.isTaken n = true → d'.names.isTaken n = true := by
  unfold temporary at h
  extract_lets hoist at h
  split at h
  · cases h
    exact ⟨rfl, fun _ hn => hn⟩
  · obtain ⟨⟨d₁, name'⟩, hunique, h⟩ := bind_eq_ok.1 h
    obtain ⟨d₂, hd₂, h⟩ := bind_eq_ok.1 h
    cases h
    obtain ⟨-, rfl⟩ := unique_eq_ok hunique
    obtain ⟨hshared, hnames⟩ := shared_declareVar hd₂
    exact ⟨hshared, fun n hn => by
      rw [show (d₂.insertBefore _ _).names = d₂.names from rfl, hnames]
      exact (d.isTaken_take _ _).2 (.inr hn)⟩

theorem shared_release (d : Draft) (name : String) (user : NodeId) (cleanup : Bool) :
    (d.release name user cleanup).shared = d.shared ∧
      (d.release name user cleanup).names = d.names := by
  unfold release clear
  extract_lets
  split <;> exact ⟨rfl, rfl⟩

end Draft

/-! ## Names -/

namespace Served

/-- The request asked for a shared variable of a logical name with a value. -/
def Asks (e : Served) (logical value : String) : Prop :=
  ∃ scope, e.request = .shared scope logical value

/-- No request among `es` gives the logical name another value. -/
def Unchanged (logical value : String) (es : List Served) : Prop :=
  ∀ e ∈ es, ∀ other, e.Asks logical other → other = value

variable {e : Served} {es : List Served} {logical logical' value value' : String}

theorem Asks.unique (h : e.Asks logical value) (h' : e.Asks logical' value') :
    logical = logical' ∧ value = value' := by
  obtain ⟨_, h⟩ := h
  obtain ⟨_, h'⟩ := h'
  cases h.symm.trans h'
  exact ⟨rfl, rfl⟩

theorem asks_shared_iff {scope : Option ScopeId} {name : String} :
    Asks ⟨.shared scope logical value, name⟩ logical' value' ↔
      logical = logical' ∧ value = value' := by
  constructor
  · rintro ⟨_, heq⟩
    cases heq
    exact ⟨rfl, rfl⟩
  · rintro ⟨rfl, rfl⟩
    exact ⟨scope, rfl⟩

theorem unchanged_nil : Unchanged logical value [] := fun _ he => nomatch he

theorem unchanged_cons : Unchanged logical value (e :: es) ↔
    (∀ other, e.Asks logical other → other = value) ∧ Unchanged logical value es :=
  List.forall_mem_cons

end Served

open Served

/-- What a session remembers, told by its past. -/
structure Recalls (s : Session) : Prop where
  taken : ∀ {e logical value}, e ∈ s.past → e.Asks logical value →
    s.draft.names.isTaken e.name = true
  answered : ∀ {logical value name}, s.draft.memo? logical = some (name, value) →
    ∃ e ∈ s.past, e.Asks logical value ∧ e.name = name
  determined : ∀ {e f logical value logical' value'}, e ∈ s.past → f ∈ s.past →
    e.Asks logical value → f.Asks logical' value' → e.name = f.name →
      logical = logical' ∧ value = value'
  /-- A name is remembered until its logical name gets another value. -/
  current : ∀ {newer before e logical value}, s.past = newer ++ e :: before →
    e.Asks logical value →
      (s.draft.memo? logical = some (e.name, value) ↔ Unchanged logical value newer)
  eq_iff : ∀ {newer between before e f logical value logical' value'},
    s.past = newer ++ f :: (between ++ e :: before) → e.Asks logical value →
      f.Asks logical' value' → (e.name = f.name ↔
        logical = logical' ∧ value = value' ∧ Unchanged logical value between)

namespace Recalls

variable {s : Session} {d : Draft} {r : Request} {scope : Option ScopeId}
  {name logical value : String}

theorem start (b : Bound) : Recalls (.start b) where
  taken he := nomatch he
  answered h := nomatch h
  determined he := nomatch he
  current h := by simp [Session.start] at h
  eq_iff h := by simp [Session.start] at h

/-- A request for anything else changes nothing that is remembered. -/
theorem other (h : Recalls s) (hr : ∀ logical value, ¬Asks ⟨r, name⟩ logical value)
    (hshared : d.shared = s.draft.shared)
    (ht : ∀ n, s.draft.names.isTaken n = true → d.names.isTaken n = true) :
    Recalls ⟨d, ⟨r, name⟩ :: s.past⟩ := by
  have hmemo (logical : String) : d.memo? logical = s.draft.memo? logical := by
    rw [memo?, shared?, hshared]
    rfl
  refine ⟨fun he ha => ?_, fun hn => ?_, fun he hf ha hb => ?_, fun {newer before e l v} hp ha => ?_,
    fun {newer between before e f l v l' v'} hp ha hb => ?_⟩
  · rcases List.mem_cons.1 he with rfl | he
    · exact absurd ha (hr _ _)
    · exact ht _ (h.taken he ha)
  · obtain ⟨e, he, ha, hname⟩ := h.answered ((hmemo _).symm.trans hn)
    exact ⟨e, List.mem_cons_of_mem _ he, ha, hname⟩
  · rcases List.mem_cons.1 he with rfl | he
    · exact absurd ha (hr _ _)
    · rcases List.mem_cons.1 hf with rfl | hf
      · exact absurd hb (hr _ _)
      · exact h.determined he hf ha hb
  · cases newer with
    | nil =>
      obtain ⟨rfl, -⟩ := List.cons.inj hp
      exact absurd ha (hr _ _)
    | cons m newer =>
      obtain ⟨rfl, hrest⟩ := List.cons.inj hp
      rw [show (Session.mk d _).draft.memo? l = _ from hmemo l, h.current hrest ha, unchanged_cons]
      exact (and_iff_right fun w hw => absurd hw (hr _ _)).symm
  · cases newer with
    | nil =>
      obtain ⟨rfl, -⟩ := List.cons.inj hp
      exact absurd hb (hr _ _)
    | cons m newer =>
      exact h.eq_iff (List.cons.inj hp).2 ha hb

section Shared

variable (h : Recalls s) (ha : s.draft.sharedVar scope logical value = .ok (d, name))
include h ha

/-- An earlier request with the name was for the same variable, and this is remembered. -/
theorem remembered_of_name {e : Served} {l v : String} (he : e ∈ s.past) (hea : e.Asks l v)
    (hn : e.name = name) :
    l = logical ∧ v = value ∧ s.draft.memo? logical = some (name, value) := by
  rcases (memo?_sharedVar ha).2 with ⟨hrec, -⟩ | ⟨-, hfresh, -⟩
  · obtain ⟨f, hf, hfa, hfn⟩ := h.answered hrec
    obtain ⟨rfl, rfl⟩ := h.determined he hf hea hfa (hn.trans hfn.symm)
    exact ⟨rfl, rfl, hrec⟩
  · rw [← hn, h.taken he hea] at hfresh
    cases hfresh

theorem isTaken_of_shared : d.names.isTaken name = true ∧
    ∀ n, s.draft.names.isTaken n = true → d.names.isTaken n = true := by
  rcases (memo?_sharedVar ha).2 with ⟨hrec, hnames⟩ | ⟨-, -, hnames⟩
  · obtain ⟨f, hf, hfa, rfl⟩ := h.answered hrec
    rw [hnames]
    exact ⟨h.taken hf hfa, fun n hn => hn⟩
  · rw [hnames]
    exact ⟨(s.draft.isTaken_take _ _).2 (.inl rfl),
      fun n hn => (s.draft.isTaken_take _ _).2 (.inr hn)⟩

/-- A request for a shared variable gets the name that is remembered, or a new one. -/
theorem shared : Recalls ⟨d, ⟨.shared scope logical value, name⟩ :: s.past⟩ := by
  obtain ⟨hmemo, hcases⟩ := memo?_sharedVar ha
  obtain ⟨hname, hmono⟩ := h.isTaken_of_shared ha
  refine ⟨fun he hea => ?_, fun {l v n} hn => ?_, fun he hf hea hfa hn => ?_,
    fun {newer before e l v} hp hea => ?_, fun {newer between before e f l v l' v'} hp hea hfa => ?_⟩
  · rcases List.mem_cons.1 he with rfl | he
    · exact hname
    · exact hmono _ (h.taken he hea)
  · change d.memo? l = _ at hn
    rw [hmemo] at hn
    split at hn
    · next hl =>
      cases hn
      exact ⟨_, List.mem_cons_self, asks_shared_iff.2 ⟨hl.symm, rfl⟩, rfl⟩
    · obtain ⟨e, he, hea, hen⟩ := h.answered hn
      exact ⟨e, List.mem_cons_of_mem _ he, hea, hen⟩
  · rcases List.mem_cons.1 he with rfl | he <;> rcases List.mem_cons.1 hf with rfl | hf
    · exact hea.unique hfa
    · obtain ⟨rfl, rfl⟩ := asks_shared_iff.1 hea
      obtain ⟨rfl, rfl, -⟩ := h.remembered_of_name ha hf hfa hn.symm
      exact ⟨rfl, rfl⟩
    · obtain ⟨rfl, rfl⟩ := asks_shared_iff.1 hfa
      obtain ⟨rfl, rfl, -⟩ := h.remembered_of_name ha he hea hn
      exact ⟨rfl, rfl⟩
    · exact h.determined he hf hea hfa hn
  · change d.memo? l = _ ↔ _
    rw [hmemo]
    cases newer with
    | nil =>
      obtain ⟨rfl, -⟩ := List.cons.inj hp
      obtain ⟨rfl, rfl⟩ := asks_shared_iff.1 hea
      simp [unchanged_nil]
    | cons m newer =>
      obtain ⟨rfl, hrest⟩ := List.cons.inj hp
      have he : e ∈ s.past := hrest ▸ List.mem_append_right _ List.mem_cons_self
      have hcurrent := h.current hrest hea
      rw [unchanged_cons, ← hcurrent]
      by_cases hl : l = logical
      · subst hl
        rw [if_pos rfl]
        constructor
        · intro heq
          obtain ⟨rfl, rfl⟩ := Prod.mk.inj (Option.some.inj heq)
          obtain ⟨-, -, hrec⟩ := h.remembered_of_name ha he hea rfl
          exact ⟨fun w hw => (asks_shared_iff.1 hw).2.symm, hrec⟩
        · rintro ⟨hvalue, hrec⟩
          obtain rfl := hvalue value (asks_shared_iff.2 ⟨rfl, rfl⟩)
          rcases hcases with ⟨hrec', -⟩ | ⟨hno, -⟩
          · exact hrec'.symm.trans hrec
          · exact absurd hrec (hno _)
      · rw [if_neg hl]
        exact (and_iff_right fun w hw => absurd (asks_shared_iff.1 hw).1.symm hl).symm
  · cases newer with
    | cons m newer => exact h.eq_iff (List.cons.inj hp).2 hea hfa
    | nil =>
      obtain ⟨rfl, hrest⟩ := List.cons.inj hp
      obtain ⟨rfl, rfl⟩ := asks_shared_iff.1 hfa
      have he : e ∈ s.past := hrest ▸ List.mem_append_right _ List.mem_cons_self
      have hcurrent := h.current hrest hea
      constructor
      · intro hn
        obtain ⟨rfl, rfl, hrec⟩ := h.remembered_of_name ha he hea hn
        exact ⟨rfl, rfl, hcurrent.1 (hn ▸ hrec)⟩
      · rintro ⟨rfl, rfl, hunchanged⟩
        have hrec := hcurrent.2 hunchanged
        rcases hcases with ⟨hrec', -⟩ | ⟨hno, -⟩
        · exact (Prod.mk.inj (Option.some.inj (hrec.symm.trans hrec'))).1
        · exact absurd hrec (hno _)

end Shared

theorem run (b : Bound) (rs : List Request) : Recalls ((Session.start b).run rs) := by
  refine Session.run_induct (start b) fun {s r d name} _ hs ha => ?_
  cases r with
  | temporary user scope base =>
    obtain ⟨hshared, ht⟩ := shared_temporary ha
    exact hs.other (fun _ _ ⟨_, h⟩ => nomatch h) hshared ht
  | release name user cleanup =>
    cases ha
    obtain ⟨hshared, hnames⟩ := shared_release s.draft name user cleanup
    exact hs.other (fun _ _ ⟨_, h⟩ => nomatch h) hshared fun n hn => hnames ▸ hn
  | shared scope logical value => exact hs.shared ha

end Recalls

namespace Session

/-- **Memoized names.** Two requests for shared variables of a session get one name exactly if they
agree on the logical name and the value, and no request between them has another value for the
logical name. -/
theorem sharedName_eq_iff (b : Bound) (rs : List Request) {newer between before : List Served}
    {e f : Served} {logical logical' value value' : String}
    (hpast : ((start b).run rs).past = newer ++ f :: (between ++ e :: before))
    (he : e.Asks logical value) (hf : f.Asks logical' value') :
    e.name = f.name ↔ logical = logical' ∧ value = value' ∧ Unchanged logical value between :=
  (Recalls.run b rs).eq_iff hpast he hf

/-- Requests for one logical name, with a value twice. -/
def sameValueTwice (between : String) : List Request :=
  [.shared (some programScope) "$s" "1", .shared (some programScope) between "2",
    .shared (some programScope) "$s" "1"]

/-- With another value in between the name is forgotten, although logical name and value agree. -/
theorem sharedName_forgotten : ∃ t b, Grammar.parse "x;".toList = .ok t ∧
    bind ⟨"", "x;".toList, .ofTree t, {}⟩ = .ok b ∧ ((start b).run (sameValueTwice "$s")).past =
      [⟨.shared (some programScope) "$s" "1", "$s$2"⟩,
        ⟨.shared (some programScope) "$s" "2", "$s$1"⟩,
        ⟨.shared (some programScope) "$s" "1", "$s$0"⟩] := by
  have hrun : okAnd (Grammar.parse "x;".toList) (fun t =>
      okAnd (bind ⟨"", "x;".toList, .ofTree t, {}⟩) fun b =>
        decide (((start b).run (sameValueTwice "$s")).past =
          [⟨.shared (some programScope) "$s" "1", "$s$2"⟩,
            ⟨.shared (some programScope) "$s" "2", "$s$1"⟩,
            ⟨.shared (some programScope) "$s" "1", "$s$0"⟩])) = true := by
    decide +kernel
  obtain ⟨t, hparse, hrun⟩ := okAnd_iff.1 hrun
  obtain ⟨b, hb, hrun⟩ := okAnd_iff.1 hrun
  exact ⟨t, b, hparse, hb, of_decide_eq_true hrun⟩

theorem sharedName_kept : ∃ t b, Grammar.parse "x;".toList = .ok t ∧
    bind ⟨"", "x;".toList, .ofTree t, {}⟩ = .ok b ∧ ∃ e between f,
      ((start b).run (sameValueTwice "$t")).past = [f, between, e] ∧ e.Asks "$s" "1" ∧
        f.Asks "$s" "1" ∧ e.name = "$s$0" ∧ e.name = f.name := by
  have hrun : okAnd (Grammar.parse "x;".toList) (fun t =>
      okAnd (bind ⟨"", "x;".toList, .ofTree t, {}⟩) fun b =>
        decide (((start b).run (sameValueTwice "$t")).past =
          [⟨.shared (some programScope) "$s" "1", "$s$0"⟩,
            ⟨.shared (some programScope) "$t" "2", "$t$0"⟩,
            ⟨.shared (some programScope) "$s" "1", "$s$0"⟩])) = true := by
    decide +kernel
  obtain ⟨t, hparse, hrun⟩ := okAnd_iff.1 hrun
  obtain ⟨b, hb, hrun⟩ := okAnd_iff.1 hrun
  have hpast := of_decide_eq_true hrun
  refine ⟨t, b, hparse, hb, _, _, _, hpast, ⟨_, rfl⟩, ⟨_, rfl⟩, rfl, ?_⟩
  refine (@sharedName_eq_iff b (sameValueTwice "$t") [] [_] [] _ _ _ _ _ _ hpast ⟨_, rfl⟩
    ⟨_, rfl⟩).2 ⟨rfl, rfl, ?_⟩
  -- The request in between is about another logical name.
  exact unchanged_cons.2 ⟨fun _ ⟨_, h⟩ => by simp at h, unchanged_nil⟩

end Session

/-! ## What a declaration covers -/

namespace Session

variable {b : Bound} {s : Session} {vars : List Variable} {r : Request}
  {x y : ScopeId} {name other : String}

/-- The scope for the declarations of a request that was answered with the name. -/
def Needs (b : Bound) (s : Session) (name : String) (x : ScopeId) : Prop :=
  ∃ e ∈ s.past, e.name = name ∧ b.declarationScope? e.request.scope? = some x

/-- Where a name is declared lies around all requests that were answered with it. -/
def Covered (b : Bound) (s : Session) : Prop :=
  ∀ e ∈ s.past, ∀ y : ScopeId, (s.draft.scopes.declaration? (some y) e.name).isSome = true →
    ∃ x, b.declarationScope? e.request.scope? = some x ∧ b.scopes.Under y x

/-- The ways up from the place of a request and from the declaration that it finds meet before they
are cut off, or the request lies around the declaration. -/
def Reaches (b : Bound) (s : Session) : Request → Prop
  | .shared scope logical value => ∀ v x y, s.draft.shared? logical = some v → v.value = value →
      b.declarationScope? scope = some x → v.scope = some y →
        (∃ c, b.Meet x y c) ∨ b.scopes.Under x y
  | _ => True

/-- `y` is the innermost seat around all requests that were answered with the name. -/
def Fits (b : Bound) (s : Session) (name : String) (y : ScopeId) : Prop :=
  (∀ x, s.Needs b name x → b.scopes.Under y x) ∧
    ∀ z, b.IsSeat z → (∀ x, s.Needs b name x → b.scopes.Under z x) → b.scopes.Under z y

theorem needs_cons {d : Draft} (hx : b.declarationScope? r.scope? = some x) :
    (Session.mk d (⟨r, name⟩ :: s.past)).Needs b other y ↔
      name = other ∧ y = x ∨ s.Needs b other y := by
  rw [Needs, List.exists_mem_cons_iff, hx, Option.some.injEq]
  exact or_congr_left (and_congr_right fun _ => eq_comm)

theorem fits_of_ne {d : Draft} (hx : b.declarationScope? r.scope? = some x) (hne : name ≠ other)
    (h : s.Fits b other y) : (Session.mk d (⟨r, name⟩ :: s.past)).Fits b other y := by
  simpa only [Fits, needs_cons hx, hne, false_and, false_or] using h

/-- A request below the declaration. -/
theorem Fits.inside {d : Draft} (h : s.Fits b name y) (hx : b.declarationScope? r.scope? = some x)
    (hy : b.scopes.Under y x) : (Session.mk d (⟨r, name⟩ :: s.past)).Fits b name y := by
  refine ⟨fun z hz => ?_, fun z hz hall => h.2 z hz fun q hq => hall q ((needs_cons hx).2 (.inr hq))⟩
  rcases (needs_cons hx).1 hz with ⟨-, rfl⟩ | hz
  · exact hy
  · exact h.1 z hz

/-- The declaration moves out of scope `y`, to the place of the innermost scope around it and the
request. -/
theorem Fits.outward {d : Draft} {c o : ScopeId} (h : s.Fits b name o)
    (hx : b.declarationScope? r.scope? = some x) (hmeet : b.Meet x o c)
    (hc : ∀ z, b.scopes.kind? (some z) = some .hoist → b.scopes.Under z x → b.scopes.Under z o →
      b.scopes.Under z c) (hy : b.Seats y c) :
    (Session.mk d (⟨r, name⟩ :: s.past)).Fits b name y := by
  refine ⟨fun z hz => ?_, fun z hz hall => ?_⟩
  · rcases (needs_cons hx).1 hz with ⟨-, rfl⟩ | hz
    · exact hy.under.trans (under_of_mem_walkUp hmeet.1)
    · exact (hy.under.trans (under_of_mem_walkUp hmeet.2.1)).trans (h.1 z hz)
  · refine hy.innermost hz (hc z hz.1 (hall x ((needs_cons hx).2 (.inl ⟨rfl, rfl⟩))) ?_)
    exact h.2 z hz fun q hq => hall q ((needs_cons hx).2 (.inr hq))

/-- The declaration moves to the place of the request. -/
theorem Fits.onto {d : Draft} {o : ScopeId} (h : s.Fits b name o)
    (hx : b.declarationScope? r.scope? = some x) (hxo : b.scopes.Under x o) :
    (Session.mk d (⟨r, name⟩ :: s.past)).Fits b name x := by
  refine ⟨fun z hz => ?_, fun z _ hall => hall x ((needs_cons hx).2 (.inl ⟨rfl, rfl⟩))⟩
  rcases (needs_cons hx).1 hz with ⟨-, rfl⟩ | hz
  · exact .refl
  · exact hxo.trans (h.1 z hz)

/-- A request for a new name. -/
theorem fits_new {d : Draft} (hx : b.declarationScope? r.scope? = some x)
    (hnew : ∀ e ∈ s.past, e.name ≠ name) :
    (Session.mk d (⟨r, name⟩ :: s.past)).Fits b name x := by
  have hneeds {z : ScopeId} (hz : s.Needs b name z) : False := by
    obtain ⟨e, he, hn, -⟩ := hz
    exact hnew e he hn
  refine ⟨fun z hz => ?_, fun z _ hall => hall x ((needs_cons hx).2 (.inl ⟨rfl, rfl⟩))⟩
  rcases (needs_cons hx).1 hz with ⟨-, rfl⟩ | hz
  · exact .refl
  · exact (hneeds hz).elim

/-- Each variable is where it fits its requests. -/
def Fitted (b : Bound) (s : Session) (vars : List Variable) : Prop :=
  ∀ v ∈ vars, s.Fits b v.name v.scope

/-- A request keeps the ledger. While each variable fits its requests, the request reaches the
declaration exactly if they are covered behind it. -/
theorem serve_ledger (hfirm : b.Firm) (hs : Steady b s.draft) (hl : Ledger b s vars)
    (hr : r.IsShared = true) (hknown : r.Known b) :
    ∃ vars', Ledger b (s.serve r) vars' ∧
      (s.Fitted b vars → (s.Reaches b r → (s.serve r).Fitted b vars') ∧
        ((s.serve r).Covered b → s.Reaches b r)) := by
  cases r with
  | temporary => cases hr
  | release => cases hr
  | shared scope logical value =>
    obtain ⟨z, rfl, hz⟩ := hknown
    obtain ⟨x, hx⟩ := hfirm.seated hz
    have hseat := Bound.isSeat_of_declarationScope? hx
    -- What reaching says of the entry that the request finds.
    have hreaches {old : SharedVar} {v : Variable} (hold : s.draft.shared? logical = some old)
        (hvalue : old.value = value) (ho : v.NotedBy old) :
        s.Reaches b (.shared (some z) logical value) ↔
          (∃ c, b.Meet x v.scope c) ∨ b.scopes.Under x v.scope := by
      refine ⟨fun h => h old x v.scope hold hvalue hx ho.scope, fun h v' x' o' hv' _ hx' ho' => ?_⟩
      obtain rfl := Option.some.inj (hold.symm.trans hv')
      obtain rfl := Option.some.inj (hx.symm.trans hx')
      obtain rfl := Option.some.inj (ho.scope.symm.trans ho')
      exact h
    rcases hl.serve_shared hs hfirm hx rfl with
      ⟨v, old, hold, hvalue, hv, ho, hwalk, hserve, hl'⟩ |
      ⟨v, old, w, d, hold, hvalue, hv, ho, hy, hname, hserve, hl'⟩ |
      ⟨hother, ⟨w, d, rfl, hnew, hserve, hl'⟩ | hsame⟩
    · -- The variable lies around the request.
      refine ⟨vars, hl', fun hf => ⟨fun _ u hu => ?_, fun _ => ?_⟩⟩
      · rw [hserve]
        by_cases hn : v.name = u.name
        · obtain rfl := hl.eq_of_name hv hu hn
          exact (hf v hv).inside hx (under_of_mem_walkUp hwalk)
        · exact fits_of_ne hx hn (hf u hu)
      · exact (hreaches hold hvalue ho).2
          (.inl ⟨v.scope, hwalk, mem_walk_self _ _, (hl.declared hv).1.1⟩)
    · -- The variable is moved.
      refine ⟨_, hl', fun hf => ⟨fun hreach u hu => ?_, fun hcovered => ?_⟩⟩
      · rw [hserve]
        rcases List.mem_cons.1 hu with rfl | hu
        · rw [hname]
          rcases Bound.commonHoist_cases hfirm.rooted x v.scope with ⟨c, hc, hmeet, hlow⟩ | ⟨hc, hno⟩
          · exact (hf v hv).outward hx hmeet hlow (Bound.seats_of_declarationScope? (hc ▸ hy))
          · have hxo := ((hreaches hold hvalue ho).1 hreach).resolve_left fun ⟨c, hmeet⟩ =>
              hno c hmeet
            rw [hc, Bound.declarationScope?_of_isSeat hseat] at hy
            rw [← Option.some.inj hy]
            exact (hf v hv).onto hx hxo
        · obtain ⟨hne, hu⟩ := hl.mem_erase.1 hu
          exact fits_of_ne hx (fun hn => hne (hl.eq_of_name hv hu hn).symm) (hf u hu)
      · refine (hreaches hold hvalue ho).2 ?_
        rcases Bound.commonHoist_cases hfirm.rooted x v.scope with ⟨c, -, hmeet, -⟩ | ⟨hc, -⟩
        · exact .inl ⟨c, hmeet⟩
        · -- The declaration is where the request is, and lies around all requests.
          rw [hc, Bound.declarationScope?_of_isSeat hseat] at hy
          obtain rfl := Option.some.inj hy
          refine .inr ((hf v hv).2 w.scope hseat fun q hq => ?_)
          obtain ⟨e, he, hn, hq⟩ := hq
          obtain ⟨-, hdeclared⟩ := hl'.declared List.mem_cons_self
          have hmem : e ∈ (s.serve (.shared (some z) logical value)).past := by
            rw [hserve]
            exact List.mem_cons_of_mem _ he
          obtain ⟨q', hq', hunder⟩ := hcovered e hmem w.scope
            (hn ▸ hname ▸ (hdeclared w.scope).2 rfl)
          obtain rfl := Option.some.inj (hq.symm.trans hq')
          exact hunder
    · -- There is no such variable.
      refine ⟨_, hl', fun hf => ⟨fun _ u hu => ?_, fun _ v x o hv hvalue =>
        absurd hvalue (hother v hv)⟩⟩
      rw [hserve]
      rcases List.mem_cons.1 hu with rfl | hu
      · refine fits_new hx fun e he hn => ?_
        obtain ⟨v, hv, hvn⟩ := hl.exists_name_iff.2 ⟨e, he, rfl⟩
        exact hnew v hv (hvn.trans hn)
      · exact fits_of_ne hx (hnew u hu).symm (hf u hu)
    · -- There is no name.
      rw [hsame]
      exact ⟨vars, hl, fun hf => ⟨fun _ => hf, fun _ v x o hv hvalue => absurd hvalue (hother v hv)⟩⟩

/-- What fits its requests covers them. -/
theorem Fitted.covered (hf : s.Fitted b vars) (hl : Ledger b s vars)
    (hpast : ∀ e ∈ s.past, ∃ x, b.declarationScope? e.request.scope? = some x) : s.Covered b := by
  intro e he y hy
  obtain ⟨v, hv, hn⟩ := hl.exists_name_iff.2 ⟨e, he, rfl⟩
  obtain rfl := ((hl.declared hv).2 y).1 (hn ▸ hy)
  obtain ⟨x, hx⟩ := hpast e he
  exact ⟨x, hx, (hf v hv).1 x ⟨e, he, hn.symm, hx⟩⟩

/-- From a moment on at which each variable fits its requests, they stay covered exactly as long as
each request reaches what it finds. -/
theorem always_covered_iff (hfirm : b.Firm) {rs : List Request} (hs : Steady b s.draft)
    (hl : Ledger b s vars)
    (hpast : ∀ e ∈ s.past, ∃ x, b.declarationScope? e.request.scope? = some x)
    (hf : s.Fitted b vars) (hrs : ∀ r ∈ rs, r.IsShared = true ∧ r.Known b) :
    s.Always (Covered b) rs ↔ s.Each (Reaches b) rs := by
  induction rs generalizing s vars with
  | nil => exact ⟨fun _ => trivial, fun _ => hf.covered hl hpast⟩
  | cons r rs ih =>
    obtain ⟨hr, hknown⟩ := hrs r List.mem_cons_self
    have hs' := hs.serve hfirm hknown
    obtain ⟨vars', hl', hstep⟩ := serve_ledger hfirm hs hl hr hknown
    obtain ⟨hfit, hreach⟩ := hstep hf
    have hpast' : ∀ e ∈ (s.serve r).past, ∃ x, b.declarationScope? e.request.scope? = some x := by
      rcases serve_cases s r with heq | ⟨d, name, -, heq⟩
      · rwa [heq]
      · rw [heq]
        refine List.forall_mem_cons.2 ⟨?_, hpast⟩
        cases r with
        | shared scope logical value =>
          obtain ⟨z, rfl, hz⟩ := hknown
          exact hfirm.seated hz
        | _ => cases hr
    have ih (hr : s.Reaches b r) := ih hs' hl' hpast' (hfit hr) fun r' hr' =>
      hrs r' (List.mem_cons_of_mem _ hr')
    constructor
    · rintro ⟨-, hrest⟩
      have hr := hreach hrest.start
      exact ⟨hr, (ih hr).1 hrest⟩
    · rintro ⟨hr, hrest⟩
      exact ⟨hf.covered hl hpast, (ih hr).2 hrest⟩

/-- Where all ways up meet, each request reaches what it finds. -/
theorem each_reaches (hfirm : b.Firm) {rs : List Request}
    (hmeet : ∀ {x y}, b.IsSeat x → b.IsSeat y → ∃ c, b.Meet x y c) (hs : Steady b s.draft)
    (hrs : ∀ r ∈ rs, r.Known b) : s.Each (Reaches b) rs := by
  induction rs generalizing s with
  | nil => trivial
  | cons r rs ih =>
    refine ⟨?_, ih ?_ fun r' hr' => hrs r' (List.mem_cons_of_mem _ hr')⟩
    · cases r with
      | shared scope logical value =>
        intro v x y hv _ hx hy
        obtain ⟨-, y', hy', hseat⟩ := hs.taken_of_shared? hv
        obtain rfl := Option.some.inj (hy.symm.trans hy')
        exact .inl (hmeet (Bound.isSeat_of_declarationScope? hx) hseat)
      | _ => trivial
    · exact hs.serve hfirm (hrs r List.mem_cons_self)

section Parsed

variable {u : CompilationUnit} {t : Tree}

/-- **Shared variables.** At each moment of a session of requests for shared variables, each name
that was returned is declared in one scope and has one active edit, which introduces it there. That
scope lies around all requests that were answered with the name exactly as long as each request
reaches the declaration that it finds; so it is where no way up is cut off. -/
theorem shared_covered_iff (hparse : Grammar.parse u.source = .ok t) (hnodes : u.nodes = .ofTree t)
    (hb : bind u = .ok b) {rs : List Request} (hrs : ∀ r ∈ rs, r.IsShared = true ∧ r.Known b) :
    (∃ vars, Ledger b ((start b).run rs) vars) ∧
      ((start b).Always (Covered b) rs ↔ (start b).Each (Reaches b) rs) ∧
      (b.Uncut → (start b).Always (Covered b) rs) := by
  have hns : u.nodes.WellFormed :=
    hnodes ▸ Nodes.wellFormed_ofTree (Grammar.parse_wellFormed hparse)
  have hroot : u.nodes.Rooted := hnodes ▸ Grammar.parse_rooted hparse
  have hfirm := bind_firm hns hroot hb
  have hsteady : Steady b (start b).draft := .ofBound hfirm
  have hiff : (start b).Always (Covered b) rs ↔ (start b).Each (Reaches b) rs :=
    always_covered_iff hfirm hsteady (.start hfirm) (fun _ he => nomatch he)
      (fun _ hv => nomatch hv) hrs
  have hplain : ∀ r ∈ rs, r.Known b ∧ r.IsRelease = false := fun r hr => by
    obtain ⟨hshared, hknown⟩ := hrs r hr
    cases r with
    | shared => exact ⟨hknown, rfl⟩
    | _ => cases hshared
  refine ⟨(Ledger.start hfirm).run hfirm hsteady hplain, hiff, fun hwalk => hiff.2 ?_⟩
  exact each_reaches hfirm (fun hx hy => ⟨_, bind_meet hns hroot hb hwalk (hsteady.lt_size hx)
    (hsteady.lt_size hy)⟩) hsteady fun r hr => (hrs r hr).2

end Parsed

/-- Two functions that share a variable, and a class with a method. -/
def siblings : List Char :=
  "function f() \x7b \x7d class A \x7b m() \x7b \x7d \x7d".toList

/-- The first variable is moved from the function to the program. -/
def requestsOfSiblings : List Request :=
  [.shared (some 2) "$s" "1", .shared (some 3) "$t" "2", .shared (some 4) "$s" "1"]

theorem shared_covered_siblings : ∃ t b, Grammar.parse siblings = .ok t ∧
    bind ⟨"", siblings, .ofTree t, {}⟩ = .ok b ∧
      (∀ r ∈ requestsOfSiblings, r.IsShared = true ∧ r.Known b) ∧ b.Uncut ∧
      ((start b).run requestsOfSiblings).past.map (·.name) = ["$s$0", "$t$0", "$s$0"] ∧
      (start b).Always (Covered b) requestsOfSiblings := by
  have hrun : okAnd (Grammar.parse siblings) (fun t =>
      okAnd (bind ⟨"", siblings, .ofTree t, {}⟩) fun b => decide (5 ≤ b.scopes.size ∧ b.Uncut ∧
        ((start b).run requestsOfSiblings).past.map (·.name) = ["$s$0", "$t$0", "$s$0"])) = true := by
    decide +kernel
  obtain ⟨t, hparse, hrun⟩ := okAnd_iff.1 hrun
  obtain ⟨b, hb, hrun⟩ := okAnd_iff.1 hrun
  obtain ⟨hsize, hwalk, hnames⟩ := of_decide_eq_true hrun
  have hknown : ∀ r ∈ requestsOfSiblings, r.IsShared = true ∧ r.Known b := by
    intro r hr
    simp only [requestsOfSiblings, List.mem_cons, List.not_mem_nil, or_false] at hr
    rcases hr with rfl | rfl | rfl <;>
      exact ⟨rfl, _, rfl, Nat.lt_of_lt_of_le (by decide) hsize⟩
  exact ⟨t, b, hparse, hb, hknown, hwalk, hnames,
    (shared_covered_iff (u := ⟨"", siblings, .ofTree t, {}⟩) hparse rfl hb hknown).2.2 hwalk⟩

end Session

end LoopClosure
