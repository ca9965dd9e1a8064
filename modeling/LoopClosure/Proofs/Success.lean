import LoopClosure.Diagnostic

/-!
# Computations that succeed

What the success of a sequence or of a fold tells about its steps.
-/

namespace LoopClosure

variable {α β σ ε : Type}

theorem bind_eq_ok {x : Except ε α} {f : α → Except ε β} {b : β} :
    (x >>= f) = .ok b ↔ ∃ a, x = .ok a ∧ f a = .ok b := by
  cases x with
  | error e => simp [bind, Except.bind]
  | ok a => simp [bind, Except.bind]

theorem ok_bind (a : α) (f : α → Except ε β) : (Except.ok a >>= f) = f a := rfl

theorem map_eq_ok {x : Except ε α} {f : α → β} {b : β} :
    x.map f = .ok b ↔ ∃ a, x = .ok a ∧ f a = b := by
  cases x with
  | error e => simp [Except.map]
  | ok a => simp [Except.map]

theorem mapError_eq_ok {ε' : Type} {x : Except ε α} {f : ε → ε'} {a : α} :
    x.mapError f = .ok a ↔ x = .ok a := by
  cases x with
  | error e =>
    constructor
    · intro h
      cases h
    · intro h
      cases h
  | ok b =>
    constructor
    · intro h
      cases h
      rfl
    · intro h
      cases h
      rfl

theorem mapError_eq_error {ε' : Type} {x : Except ε α} {f : ε → ε'} {e' : ε'} :
    x.mapError f = .error e' ↔ ∃ e, x = .error e ∧ f e = e' := by
  cases x with
  | error e =>
    constructor
    · intro h
      cases h
      exact ⟨e, rfl, rfl⟩
    · rintro ⟨e, h, rfl⟩
      cases h
      rfl
  | ok b =>
    constructor
    · intro h
      cases h
    · rintro ⟨e, h, -⟩
      cases h

theorem toOption_eq_some {x : Except ε α} {a : α} : x.toOption = some a ↔ x = .ok a := by
  cases x <;> simp [Except.toOption]

theorem pure_eq_ok {a b : α} : (pure a : Except ε α) = .ok b ↔ a = b := by
  simp [pure, Except.pure]

theorem foldlM_cons_eq_ok {f : σ → α → Except ε σ} {a : α} {as : List α} {s u : σ} :
    (a :: as).foldlM f s = .ok u ↔ ∃ t, f s a = .ok t ∧ as.foldlM f t = .ok u := by
  rw [List.foldlM_cons, bind_eq_ok]

/-- What each step of a fold keeps, given what is left to go over, the fold keeps. -/
theorem foldlM_induct {f : σ → α → Except ε σ} {P : List α → σ → Prop}
    (step : ∀ a as s t, P (a :: as) s → f s a = .ok t → P as t) {as : List α} {s u : σ}
    (hs : P as s) (h : as.foldlM f s = .ok u) : P [] u := by
  induction as generalizing s with
  | nil =>
    rw [List.foldlM_nil, pure_eq_ok] at h
    exact h ▸ hs
  | cons a as ih =>
    obtain ⟨t, ht, hrest⟩ := foldlM_cons_eq_ok.1 h
    exact ih (step a as s t hs ht) hrest

/-- A fold whose steps succeed and keep an invariant. -/
theorem exists_foldlM {f : σ → α → Except ε σ} {I : σ → Prop} {as : List α} {s : σ} (hs : I s)
    (hstep : ∀ s a, a ∈ as → I s → ∃ t, f s a = .ok t ∧ I t) : ∃ t, as.foldlM f s = .ok t := by
  induction as generalizing s with
  | nil => exact ⟨s, rfl⟩
  | cons a as ih =>
    obtain ⟨t, ht, hI⟩ := hstep s a List.mem_cons_self hs
    obtain ⟨u, hu⟩ := ih hI fun s x hx => hstep s x (List.mem_cons_of_mem _ hx)
    exact ⟨u, foldlM_cons_eq_ok.2 ⟨t, ht, hu⟩⟩

section Relation

variable {R : σ → σ → Prop} (hrefl : ∀ s, R s s) (htrans : ∀ {s t u}, R s t → R t u → R s u)
include hrefl htrans

/-- A fold of steps in a preorder. -/
theorem foldlM_rel {f : σ → α → Except ε σ} {as : List α} {s u : σ}
    (hstep : ∀ t t' a, a ∈ as → R s t → f t a = .ok t' → R t t') (h : as.foldlM f s = .ok u) :
    R s u := by
  refine (foldlM_induct (P := fun rest t => rest ⊆ as ∧ R s t) ?_ ⟨fun _ ha => ha, hrefl s⟩ h).2
  rintro a rest t t' ⟨hsub, ht⟩ hf
  exact ⟨fun x hx => hsub (List.mem_cons_of_mem _ hx),
    htrans ht (hstep t t' a (hsub List.mem_cons_self) ht hf)⟩

/-- Each step of a fold was taken, with steps of the preorder before and behind. -/
theorem foldlM_exists_step {f : σ → α → Except ε σ} {as : List α} {s u : σ} {a : α} (ha : a ∈ as)
    (hstep : ∀ t t' a, a ∈ as → R s t → f t a = .ok t' → R t t') (h : as.foldlM f s = .ok u) :
    ∃ t t', R s t ∧ f t a = .ok t' ∧ R t' u := by
  obtain ⟨pre, post, rfl⟩ := List.append_of_mem ha
  rw [List.foldlM_append] at h
  obtain ⟨t, hpre, h⟩ := bind_eq_ok.1 h
  obtain ⟨t', hf, hpost⟩ := foldlM_cons_eq_ok.1 h
  have hst : R s t := foldlM_rel hrefl htrans
    (fun x x' y hy => hstep x x' y (List.mem_append_left _ hy)) hpre
  refine ⟨t, t', hst, hf, foldlM_rel hrefl htrans (fun x x' y hy hx => ?_) hpost⟩
  exact hstep x x' y (List.mem_append_right _ (List.mem_cons_of_mem _ hy))
    (htrans hst (htrans (hstep t t' a ha hst hf) hx))

theorem foldl_rel {f : σ → α → σ} {as : List α} {s : σ}
    (hstep : ∀ t a, a ∈ as → R s t → R t (f t a)) : R s (as.foldl f s) := by
  induction as generalizing s with
  | nil => exact hrefl s
  | cons a as ih =>
    have ha := hstep s a List.mem_cons_self (hrefl s)
    exact htrans ha (ih fun t x hx ht => hstep t x (List.mem_cons_of_mem _ hx) (htrans ha ht))

theorem foldl_exists_step {f : σ → α → σ} {as : List α} {s : σ} {a : α} (ha : a ∈ as)
    (hstep : ∀ t a, R t (f t a)) : ∃ t, R s t ∧ R (f t a) (as.foldl f s) := by
  obtain ⟨pre, post, rfl⟩ := List.append_of_mem ha
  rw [List.foldl_append, List.foldl_cons]
  exact ⟨pre.foldl f s, foldl_rel hrefl htrans fun t a _ _ => hstep t a,
    foldl_rel hrefl htrans fun t a _ _ => hstep t a⟩

end Relation

/-- The computation succeeds with a value that passes a test. -/
def okAnd (x : Except ε α) (p : α → Bool) : Bool :=
  match x with
  | .ok a => p a
  | .error _ => false

theorem okAnd_iff {x : Except ε α} {p : α → Bool} :
    okAnd x p = true ↔ ∃ a, x = .ok a ∧ p a = true := by
  cases x with
  | error e => simp [okAnd]
  | ok a => simp [okAnd]

end LoopClosure
