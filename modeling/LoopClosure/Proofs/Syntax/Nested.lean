import LoopClosure.Proofs.Syntax.Inside

/-!
# What lies inside what

In a well-formed table the range of a node tells what it lies inside of: a statement that a keyword
begins lies in the range of another node exactly if it lies inside it (`contains_iff`), and so does
every node in the range of the body of a loop (`contains_body_iff`). Of two blocks one lies inside the
other or in front of it (`block_cases`). Statements lie in a class only in the blocks of functions
(`IsDepth.exists_function`).
-/

namespace LoopClosure.Syntax.Nodes

variable {ns : Nodes} {a b c p : NodeId} {m n : Node}

theorem children_of_form? {form : Form NodeId} (hf : ns.form? p = some form) :
    ns.children p = form.children := by
  obtain ⟨n, hn, rfl⟩ := Option.map_eq_some_iff.1 hf
  rw [children, hn]

theorem parent?_of_form? {form : Form NodeId} (h : ns.WellFormed) (hf : ns.form? p = some form)
    (hc : c ∈ form.children) : ns.parent? c = some p :=
  h.parent_iff.2 (children_of_form? hf ▸ hc)

theorem exists_form?_of_parent? (h : ns.WellFormed) (hp : ns.parent? c = some p) :
    ∃ form, ns.form? p = some form ∧ c ∈ form.children := by
  have hc := h.parent_iff.1 hp
  unfold children at hc
  split at hc
  · next n hn => exact ⟨n.form, by rw [form?, hn]; rfl, hc⟩
  · cases hc

theorem exists_get?_of_parent? (h : ns.WellFormed) (hp : ns.parent? c = some p) :
    ∃ n, ns.get? p = some n := by
  obtain ⟨form, hf, -⟩ := exists_form?_of_parent? h hp
  obtain ⟨n, hn, -⟩ := Option.map_eq_some_iff.1 hf
  exact ⟨n, hn⟩

theorem exists_get?_of_parent?_eq_some (hp : ns.parent? c = some p) : ∃ n, ns.get? c = some n := by
  obtain ⟨n, hn, -⟩ := Option.bind_eq_some_iff.1 hp
  exact ⟨n, hn⟩

theorem WellFormed.start_le_stop (h : ns.WellFormed) (hn : ns.get? a = some n) :
    n.start ≤ n.stop := by
  have := h.room hn
  omega

namespace Inside

/-- What lies inside a node is the node or lies inside a child. -/
theorem eq_or_child (hi : ns.Inside a b) :
    a = b ∨ ∃ c, ns.parent? c = some a ∧ ns.Inside c b := by
  induction hi with
  | refl => exact .inl rfl
  | @up id p hp _ ih =>
    rcases ih with rfl | ⟨c, hc, hi⟩
    · exact .inr ⟨id, hp, .refl⟩
    · exact .inr ⟨c, hc, .up hp hi⟩

theorem le (h : ns.WellFormed) (hi : ns.Inside a b) : a ≤ b := by
  induction hi with
  | refl => exact Nat.le_refl a
  | up hp _ ih => exact Nat.le_of_lt (Nat.lt_of_le_of_lt ih (h.parent_lt hp))

theorem antisymm (h : ns.WellFormed) (hab : ns.Inside a b) (hba : ns.Inside b a) : a = b :=
  Nat.le_antisymm (hab.le h) (hba.le h)

theorem parent (hi : ns.Inside a b) (hne : a ≠ b) (hp : ns.parent? b = some p) :
    ns.Inside a p := by
  cases hi with
  | refl => exact absurd rfl hne
  | up hp' hi =>
    rw [hp, Option.some.injEq] at hp'
    exact hp' ▸ hi

theorem exists_parent? (hi : ns.Inside a b) (hne : a ≠ b) : ∃ p, ns.parent? b = some p := by
  cases hi with
  | refl => exact absurd rfl hne
  | up hp => exact ⟨_, hp⟩

theorem exists_get? (h : ns.WellFormed) (hi : ns.Inside a b) (hb : ns.get? b = some n) :
    ∃ m, ns.get? a = some m := by
  rcases hi.eq_or_child with rfl | ⟨c, hc, -⟩
  · exact ⟨n, hb⟩
  · exact exists_get?_of_parent? h hc

/-- The range of a node holds those of the nodes inside. -/
theorem within (h : ns.WellFormed) (hi : ns.Inside a b) (ha : ns.get? a = some m)
    (hb : ns.get? b = some n) : m.start ≤ n.start ∧ n.stop ≤ m.stop := by
  induction hi generalizing n with
  | refl =>
    rw [ha, Option.some.injEq] at hb
    exact hb ▸ ⟨Nat.le_refl _, Nat.le_refl _⟩
  | up hp _ ih =>
    obtain ⟨o, ho⟩ := exists_get?_of_parent? h hp
    have hstep := h.within hp hb ho
    have := ih ho
    omega

theorem start_lt (h : ns.WellFormed) (hi : ns.Inside a b) (hne : a ≠ b) (ha : ns.get? a = some m)
    (hb : ns.get? b = some n) (hk : m.form.hasKeyword = true) : m.start < n.start := by
  rcases hi.eq_or_child with rfl | ⟨c, hc, hi⟩
  · exact absurd rfl hne
  · obtain ⟨o, ho⟩ := hi.exists_get? h hb
    have hstep := h.keyword hc ho ha hk
    have := (hi.within h ho hb).1
    omega

/-- An identifier has nothing inside. -/
theorem eq_of_identifier? {name : String} (h : ns.WellFormed) (hi : ns.Inside a b)
    (hname : ns.identifier? a = some name) : a = b := by
  rcases hi.eq_or_child with rfl | ⟨c, hc, -⟩
  · rfl
  · obtain ⟨form, hf, hmem⟩ := exists_form?_of_parent? h hc
    rw [identifier?_eq_some_iff.1 hname, Option.some.injEq] at hf
    subst hf
    cases hmem

end Inside

/-- A statement inside a sealed node lies in the block of a function there. -/
theorem IsDepth.exists_function {depth : NodeId → Nat} {form : Form NodeId} (hd : ns.IsDepth depth)
    (h : ns.WellFormed) (ha : ns.form? a = some form) (hsealed : form.isSealed = true)
    (hi : ns.Inside a b) (hne : a ≠ b) (hb : 0 < depth b) :
    ∃ f c form, ns.Inside a f ∧ ns.form? f = some form ∧ form.blockBody? = some c ∧
      ns.Inside f c ∧ ns.Inside c b := by
  induction hi with
  | refl => exact absurd rfl hne
  | @up b p hp hi ih =>
    obtain ⟨f, hf, -⟩ := exists_form?_of_parent? h hp
    cases hfun : f.isFunction with
    | true => exact ⟨p, b, f, hi, hf, hd.body hp hf hfun hb, .of_parent hp, .refl⟩
    | false =>
      obtain ⟨hopen, hlt⟩ := hd.step hp hf hfun hb
      have hap : a ≠ p := by
        rintro rfl
        cases ha.symm.trans hf
        exact Bool.false_ne_true (hopen.symm.trans hsealed)
      obtain ⟨g, c, form', hag, hg, hbody, hgc, hcp⟩ :=
        ih hap (Nat.lt_of_le_of_lt (Nat.zero_le _) hlt)
      exact ⟨g, c, form', hag, hg, hbody, hgc, .up hp hcp⟩

theorem identifier?_eq_none (hn : ns.get? a = some n) (hname : ∀ name, n.form ≠ .identifier name) :
    ns.identifier? a = none := by
  cases hi : ns.identifier? a with
  | none => rfl
  | some name =>
    rw [identifier?_eq_some_iff, form?, hn, Option.map_some, Option.some.injEq] at hi
    exact absurd hi (hname name)

theorem identifier?_eq_none_of_hasKeyword (hn : ns.get? a = some n)
    (hk : n.form.hasKeyword = true) : ns.identifier? a = none :=
  identifier?_eq_none hn fun name hform => by rw [hform] at hk; cases hk

theorem children_of_identifier? {name : String} (h : ns.identifier? a = some name) :
    ns.children a = [] :=
  children_of_form? (identifier?_eq_some_iff.1 h)

theorem contains_of_inside (h : ns.WellFormed) (hi : ns.Inside a b) (hb : ns.get? b = some n) :
    ns.contains a b = true := by
  obtain ⟨m, hm⟩ := hi.exists_get? h hb
  have := hi.within h hm hb
  simp [contains, hm, hb, this]

/-- Only identifiers and what begins with the same token can lie in the range of a node without
lying inside it. -/
theorem inside_or_of_contains (h : ns.WellFormed) (hc : ns.contains a b = true)
    (ha : ns.identifier? a = none) (hb : ns.get? b = some n) (hname : ns.identifier? b = none)
    (hne : n.start < n.stop) :
    ns.Inside a b ∨ ∃ m, ns.get? a = some m ∧ ns.Inside b a ∧ m.start = n.start := by
  unfold contains at hc
  rw [hb] at hc
  cases hm : ns.get? a with
  | none => simp [hm] at hc
  | some m =>
    simp only [hm, Bool.and_eq_true, decide_eq_true_eq] at hc
    rcases h.laminar hm hb ha hname with hi | hi | hi | hi
    · exact .inl hi
    · have := (hi.within h hb hm).1
      exact .inr ⟨m, rfl, hi, by omega⟩
    · omega
    · omega

/-- A statement that a keyword begins lies in the range of a node exactly if it lies inside it. -/
theorem contains_iff (h : ns.WellFormed) (hb : ns.get? b = some n)
    (hk : n.form.hasKeyword = true) : ns.contains a b = true ↔ ns.Inside a b := by
  refine ⟨fun hc => ?_, fun hi => contains_of_inside h hi hb⟩
  have hlt := h.nonempty hb hk
  cases ha : ns.identifier? a with
  | none =>
    rcases inside_or_of_contains h hc ha hb (identifier?_eq_none_of_hasKeyword hb hk) hlt with
      hi | ⟨m, hm, hi, heq⟩
    · exact hi
    · by_cases hne : b = a
      · exact hne ▸ .refl
      · exact absurd heq (Nat.ne_of_gt (hi.start_lt h hne hb hm hk))
  | some name =>
    obtain ⟨m, hm, hform⟩ := Option.map_eq_some_iff.1 (identifier?_eq_some_iff.1 ha)
    have hapart := h.name_apart hm hform hb hk
    simp only [contains, hm, hb, Bool.and_eq_true, decide_eq_true_eq] at hc
    omega

/-! ## Blocks -/

/-- What lies inside a node lies between what opens and what closes it. -/
theorem WellFormed.margins_of_inside (h : ns.WellFormed) (hi : ns.Inside a c) (hne : a ≠ c)
    (hn : ns.get? a = some n) (hm : ns.get? c = some m) :
    n.start + n.form.lead ≤ m.start ∧ m.stop ≤ n.stop - n.form.trail := by
  obtain ⟨k, hk, hkc⟩ := hi.eq_or_child.resolve_left hne
  obtain ⟨o, ho⟩ := exists_get?_of_parent?_eq_some hk
  obtain ⟨hstart, hstop⟩ := hkc.within h ho hm
  obtain ⟨hlead, htrail⟩ := h.margins hk ho hn
  exact ⟨Nat.le_trans hlead hstart, Nat.le_trans hstop htrail⟩

section Blocks

variable {statements statements' : List NodeId}

theorem WellFormed.start_lt_stop_of_block (h : ns.WellFormed) (hn : ns.get? a = some n)
    (hform : n.form = .block statements) : n.start + 1 < n.stop := by
  have hroom := h.room hn
  rw [hform] at hroom
  simp only [Form.lead, Form.trail] at hroom
  omega

theorem WellFormed.within_block (h : ns.WellFormed) (hi : ns.Inside a c) (hne : a ≠ c)
    (hn : ns.get? a = some n) (hm : ns.get? c = some m) (hform : n.form = .block statements) :
    n.start < m.start ∧ m.stop < n.stop := by
  have hlt := h.start_lt_stop_of_block hn hform
  obtain ⟨hlead, htrail⟩ := h.margins_of_inside hi hne hn hm
  rw [hform] at hlead htrail
  simp only [Form.lead, Form.trail] at hlead htrail
  omega

/-- Of two blocks one lies inside the other, between its braces, or in front of it. -/
theorem WellFormed.block_cases (h : ns.WellFormed) (hn : ns.get? a = some n)
    (hm : ns.get? c = some m) (hform : n.form = .block statements)
    (hform' : m.form = .block statements') : a = c ∨
      (a ≠ c ∧ ns.Inside a c ∧ n.start < m.start ∧ m.stop < n.stop) ∨
      (ns.Inside c a ∧ m.start < n.start ∧ n.stop < m.stop) ∨
      n.stop ≤ m.start ∨ m.stop ≤ n.start := by
  have hname {i : NodeId} {o : Node} {ss : List NodeId} (ho : ns.get? i = some o)
      (hform : o.form = .block ss) : ns.identifier? i = none :=
    identifier?_eq_none ho fun name hform' => by cases hform.symm.trans hform'
  by_cases hne : a = c
  · exact .inl hne
  rcases h.laminar hn hm (hname hn hform) (hname hm hform') with hi | hi | hle | hle
  · exact .inr (.inl ⟨hne, hi, h.within_block hi hne hn hm hform⟩)
  · exact .inr (.inr (.inl ⟨hi, h.within_block hi (Ne.symm hne) hm hn hform'⟩))
  · exact .inr (.inr (.inr (.inl hle)))
  · exact .inr (.inr (.inr (.inr hle)))

/-- A block is known by where it ends. -/
theorem WellFormed.block_unique (h : ns.WellFormed) (hn : ns.get? a = some n)
    (hm : ns.get? c = some m) (hform : n.form = .block statements)
    (hform' : m.form = .block statements') (hstop : n.stop = m.stop) : a = c := by
  have hlt := h.start_lt_stop_of_block hn hform
  have hlt' := h.start_lt_stop_of_block hm hform'
  refine (h.block_cases hn hm hform hform').resolve_right fun hcases => ?_
  rcases hcases with ⟨-, -, -, hstops⟩ | ⟨-, -, hstops⟩ | hle | hle <;> omega

end Blocks

/-! ## Bodies of loops -/

/-- The name in front of the value of a property is no key itself. -/
theorem Fronts.not_twins {q key value s : NodeId} {role : PropertyRole} {traits : PropertyTraits}
    (h : ns.WellFormed) (hprop : ns.form? q = some (.property key value role traits))
    (hfront : ns.Fronts value s) : ¬ns.Twins s c := by
  rintro ⟨p, value', role', traits', hprop', -⟩
  have hp : ns.parent? s = some p := parent?_of_form? h hprop' List.mem_cons_self
  have hdefault {f : Form NodeId} (hform : ns.form? value = some f) (hmem : s ∈ f.children)
      (hf : ∀ key value role traits, f ≠ .property key value role traits) : False := by
    rw [parent?_of_form? h hform hmem, Option.some.injEq] at hp
    rw [← hp, hform, Option.some.injEq] at hprop'
    exact hf _ _ _ _ hprop'
  cases hfront with
  | name =>
    rw [parent?_of_form? h hprop (List.mem_cons_of_mem _ List.mem_cons_self), Option.some.injEq] at hp
    rw [← hp, hprop, Option.some.injEq] at hprop'
    obtain ⟨rfl, rfl, -⟩ := Form.property.inj hprop'
    have hnodup := h.nodup q
    simp [children_of_form? hprop, Form.children] at hnodup
  | default hform => exact hdefault hform List.mem_cons_self (by simp)
  | assigned hform => exact hdefault hform List.mem_cons_self (by simp)

section Body

variable {loop : NodeId} {form : Form NodeId} (h : ns.WellFormed) (hf : ns.form? loop = some form)
  (hbody : form.loopBody? = some b)
include h hf hbody

theorem parent?_body : ns.parent? b = some loop :=
  parent?_of_form? h hf (Form.mem_children_of_loopBody? hbody)

theorem isLoop_of_parent?_body {f : Form NodeId} (hp : ns.parent? b = some p)
    (hpf : ns.form? p = some f) : f.isLoop = true := by
  rw [parent?_body h hf hbody, Option.some.injEq] at hp
  rw [← hp, hf, Option.some.injEq] at hpf
  rw [← hpf, Form.isLoop, hbody]
  rfl

/-- A node around the body of a loop, but for the body, begins in front of it. -/
theorem start_lt_body (hi : ns.Inside a b) (hne : a ≠ b) (ha : ns.get? a = some m)
    (hb : ns.get? b = some n) : m.start < n.start := by
  have hp := parent?_body h hf hbody
  obtain ⟨l, hl, rfl⟩ := Option.map_eq_some_iff.1 hf
  have hle := ((hi.parent hne hp).within h ha hl).1
  have hlt := h.keyword hp hb hl (Form.hasKeyword_of_loopBody? hbody)
  omega

/-- The body of a loop is no key in short form, -/
theorem not_twins_body : ¬ns.Twins b c := by
  rintro ⟨p, value, role, traits, hprop, -⟩
  have hp : ns.parent? b = some p := parent?_of_form? h hprop List.mem_cons_self
  exact absurd (isLoop_of_parent?_body h hf hbody hp hprop) Bool.false_ne_true

/-- and no name at the front of a value in short form. What is inside of neither, but around the
name, is around the property. -/
theorem inside_of_twins_body {q key value s : NodeId} {role : PropertyRole} {traits : PropertyTraits}
    (hprop : ns.form? q = some (.property key value role traits)) (hfront : ns.Fronts value s) :
    b ≠ s ∧ (ns.Inside b s → ns.Inside b q) := by
  have hvalue : ns.parent? value = some q :=
    parent?_of_form? h hprop (List.mem_cons_of_mem _ List.mem_cons_self)
  have hne : b ≠ value := by
    rintro rfl
    exact absurd (isLoop_of_parent?_body h hf hbody hvalue hprop) Bool.false_ne_true
  -- A default stands between the name and the property.
  have hdefault {f : Form NodeId} (hform : ns.form? value = some f) (hmem : s ∈ f.children)
      (hloop : f.isLoop = false) : b ≠ s ∧ (ns.Inside b s → ns.Inside b q) := by
    have hs : ns.parent? s = some value := parent?_of_form? h hform hmem
    have hne' : b ≠ s := by
      rintro rfl
      exact absurd (isLoop_of_parent?_body h hf hbody hs hform) (Bool.eq_false_iff.1 hloop)
    exact ⟨hne', fun hi => (hi.parent hne' hs).parent hne hvalue⟩
  cases hfront with
  | name => exact ⟨hne, fun hi => hi.parent hne hvalue⟩
  | default hform => exact hdefault hform List.mem_cons_self rfl
  | assigned hform => exact hdefault hform List.mem_cons_self rfl

/-- A key in short form has the place of the name in front of the value, so it lies inside the body
whose range it is in. -/
theorem inside_body_of_twins {s : NodeId} (hs : ns.Twins c s) (hb : ns.identifier? b = none)
    (hm : ns.get? b = some m) (hn : ns.get? c = some n) (hstart : m.start ≤ n.start)
    (hlt : n.start < n.stop) (hstop : n.stop ≤ m.stop) : ns.Inside b c := by
  obtain ⟨mc, ms, _, hmc, hms, hstarts, hstops, -⟩ := h.twins hs
  rw [hn, Option.some.injEq] at hmc
  subst hmc
  obtain ⟨q, value, role, traits, hprop, -, hfront⟩ := hs
  obtain ⟨hne, hup⟩ := inside_of_twins_body h hf hbody hprop hfront
  refine .up (parent?_of_form? h hprop List.mem_cons_self) (hup ?_)
  cases hs : ns.identifier? s with
  | none =>
    rcases h.laminar hm hms hb hs with hi | hi | hi | hi
    · exact hi
    · have := start_lt_body h hf hbody hi (Ne.symm hne) hms hm
      omega
    · omega
    · omega
  | some name =>
    rcases h.leaf hms (children_of_identifier? hs) hm with hi | hi | hi | ⟨x, hx⟩ | hx
    · exact hi
    · omega
    · omega
    · exact absurd hx (hfront.not_twins h hprop)
    · exact absurd hx (not_twins_body h hf hbody)

/-- A node lies in the range of the body of a loop exactly if it lies inside it. -/
theorem contains_body_iff (hp : ns.parent? c = some p) :
    ns.contains b c = true ↔ ns.Inside b c := by
  have hloop := parent?_body h hf hbody
  obtain ⟨m, hm⟩ := exists_get?_of_parent?_eq_some hloop
  obtain ⟨n, hn⟩ := exists_get?_of_parent?_eq_some hp
  obtain ⟨o, ho⟩ := exists_get?_of_parent? h hp
  refine ⟨fun hc => ?_, fun hi => contains_of_inside h hi hn⟩
  simp only [contains, hm, hn, Bool.and_eq_true, decide_eq_true_eq] at hc
  obtain ⟨hstart, hstop⟩ := hc
  have hlt := (h.within hp hn ho).2.1
  have habove (hi : ns.Inside c b) : ns.Inside b c := by
    by_cases hne : c = b
    · exact hne ▸ .refl
    · have := start_lt_body h hf hbody hi hne hn hm
      omega
  cases hb : ns.identifier? b with
  | some name =>
    rcases h.leaf hm (children_of_identifier? hb) hn with
      hi | hi | hi | ⟨s, hs⟩ | ⟨q, value, role, traits, hprop, -, hfront⟩
    · exact habove hi
    · omega
    · omega
    · exact absurd hs (not_twins_body h hf hbody)
    · exact absurd rfl (inside_of_twins_body h hf hbody hprop hfront).1
  | none =>
    cases hc : ns.identifier? c with
    | none =>
      rcases h.laminar hm hn hb hc with hi | hi | hi | hi
      · exact hi
      · exact habove hi
      · omega
      · omega
    | some name =>
      rcases h.leaf hn (children_of_identifier? hc) hm with hi | hi | hi | ⟨s, hs⟩ | hs
      · exact hi
      · omega
      · omega
      · exact inside_body_of_twins h hf hbody hs hb hm hn hstart hlt hstop
      · exact absurd hs (not_twins_body h hf hbody)

/-- This holds of the root of the tree, too, if the node that lies around both is known. -/
theorem contains_body_iff_of_inside (hb : ns.Inside a b) (hc : ns.Inside a c) :
    ns.contains b c = true ↔ ns.Inside b c := by
  cases hp : ns.parent? c with
  | some p => exact contains_body_iff h hf hbody hp
  | none =>
    -- A node without parent is the one around the body.
    have hloop := parent?_body h hf hbody
    have hac : a = c := by
      cases hc with
      | refl => rfl
      | up hq => rw [hp] at hq; cases hq
    subst hac
    have hne : a ≠ b := fun e => by rw [e, hloop] at hp; cases hp
    obtain ⟨n, hn⟩ := exists_get?_of_parent?_eq_some hloop
    obtain ⟨m, hm⟩ := hb.exists_get? h hn
    have hlt := start_lt_body h hf hbody hb hne hm hn
    constructor
    · intro hcontains
      simp only [contains, hm, hn, Bool.and_eq_true, decide_eq_true_eq] at hcontains
      omega
    · intro hi
      exact absurd (hb.antisymm h hi) hne

end Body

end LoopClosure.Syntax.Nodes
