import LoopClosure.Proofs.Syntax.Ways
import LoopClosure.Proofs.Syntax.Nested
import LoopClosure.Grammar.Basic

/-!
# How far targets reach

The names that a target binds stand in it behind patterns, defaults, rests and parentheses.
`Nodes.Holds ns n a c`: such a way leads `n` levels down from `a` to `c`; the identifiers that it leads
to are those of `bindingIds` (`mem_bindingIds`). In a tree whose nodes the grammar comes to, the way
is no longer than three times the levels of nesting (`reach_le`), so climbing up from a name comes
to the target.
-/

namespace LoopClosure.Syntax

namespace Form

variable {α β : Type} {f : Form α} {g : α → β} {a : α}

@[simp] theorem isSpread_map : (f.map g).isSpread = f.isSpread := by
  cases f <;> rfl

@[simp] theorem isProperty_map : (f.map g).isProperty = f.isProperty := by
  cases f <;> rfl

end Form

namespace Tree

mutual

/-- How many levels a target reaches down. -/
def reach : Tree → Nat
  | .node _ _ form ts => reaches form 0 ts

def reaches (form : Form Nat) (i : Nat) : List Tree → Nat
  | [] => 0
  | t :: ts => max (if i ∈ form.targets then t.reach + 1 else 0) (reaches form (i + 1) ts)

end

variable {s e i j n : Nat} {w : Way} {form : Form Nat} {t u : Tree} {ts : List Tree} {k : Way → Bool}

theorem reaches_le_iff : reaches form i ts ≤ n ↔
    ∀ j u, ts[j]? = some u → i + j ∈ form.targets → u.reach + 1 ≤ n := by
  induction ts generalizing i with
  | nil => simp [reaches]
  | cons t ts ih =>
    rw [reaches, Nat.max_le, ih]
    constructor
    · rintro ⟨hfirst, hothers⟩ j u hu hj
      cases j with
      | zero =>
        cases hu
        rwa [if_pos (show i ∈ form.targets from hj)] at hfirst
      | succ j => exact hothers j u hu (by rwa [Nat.add_assoc, Nat.add_comm 1])
    · refine fun h => ⟨?_, fun j u hu hj => ?_⟩
      · split
        · exact h 0 t rfl ‹_›
        · exact Nat.zero_le _
      · exact h (j + 1) u hu (by rwa [Nat.add_assoc, Nat.add_comm 1] at hj)

theorem reach_le_iff : (node s e form ts).reach ≤ n ↔
    ∀ j u, ts[j]? = some u → j ∈ form.targets → u.reach + 1 ≤ n := by
  rw [reach, reaches_le_iff]
  simp only [Nat.zero_add]

theorem reach_lt (hu : ts[j]? = some u) (hj : j ∈ form.targets) :
    u.reach < (node s e form ts).reach :=
  reach_le_iff.1 (Nat.le_refl _) j u hu hj

theorem nestings_child_le {f : Form Nat} (hu : ts[j]? = some u) :
    (if k (w.into f (i + j) u.form) then 1 else 0) + u.nesting k (w.into f (i + j) u.form) ≤
      nestings k w f i ts := by
  induction ts generalizing i j with
  | nil => cases hu
  | cons t ts ih =>
    rw [nestings]
    cases j with
    | zero =>
      cases hu
      exact Nat.le_max_left _ _
    | succ j =>
      refine Nat.le_trans ?_ (Nat.le_max_right _ _)
      have := ih (i := i + 1) hu
      rwa [Nat.add_assoc, Nat.add_comm 1] at this

/-- A child nests no deeper than its parent. -/
theorem nesting_child_le {f : Form Nat} (hu : ts[j]? = some u) :
    (if k (w.into f j u.form) then 1 else 0) + u.nesting k (w.into f j u.form) ≤
      (node s e f ts).nesting k w := by
  have := nestings_child_le (i := 0) (k := k) (w := w) (f := f) hu
  rwa [Nat.zero_add] at this

/-- What the grammar comes to in a tree, it comes to in its children. -/
theorem child_known (hu : ts[j]? = some u) (hall : (node s e form ts).nesting Way.isStray w = 0) :
    (w.into form j u.form).isStray = false ∧ u.nesting Way.isStray (w.into form j u.form) = 0 := by
  have hle := nesting_child_le (s := s) (e := e) (k := Way.isStray) (w := w) (f := form) hu
  rw [hall, Nat.le_zero, Nat.add_eq_zero_iff] at hle
  exact ⟨by simpa using hle.1, hle.2⟩

/-- A target and its items share their levels of nesting with one another, three at most. -/
def slack : Form Nat → Nat
  | .arrayPattern _ | .parenthesized _ | .property _ _ _ _ => 2
  | .objectPattern _ => 3
  | .assignmentPattern _ _ | .rest _ => 4
  | _ => 0

theorem slack_le (form : Form Nat) : slack form ≤ 4 := by
  unfold slack
  split <;> decide

theorem slack_of_not_isItem (h : form.isItem = false) : slack form ≤ 3 := by
  unfold slack
  split <;> first | decide | cases h

theorem slack_of_isProperty (h : form.isProperty = true) : slack form = 2 := by
  cases form <;> first | rfl | cases h

theorem reach_of_targets (h : form.targets = []) : (node s e form ts).reach = 0 :=
  Nat.le_zero.1 (reach_le_iff.2 fun j u _ hj => by rw [h] at hj; cases hj)

theorem reach_of_isName (h : t.IsName) : t.reach = 0 := by
  cases t with
  | node s e form ts =>
    cases form with
    | identifier name => exact reach_of_targets rfl
    | _ => exact h.elim

theorem reach_of_isFunction (h : t.form.isFunction = true) : t.reach = 0 := by
  cases t with
  | node s e form ts => cases form <;> first | exact reach_of_targets rfl | cases h

theorem IsShort.reach_le {key value : Tree} (hname : key.IsName) (h : key.IsShort value) :
    value.reach ≤ 1 := by
  cases h with
  | name => exact reach_of_isName hname ▸ Nat.zero_le 1
  | default =>
    refine reach_le_iff.2 fun j u hu hj => ?_
    obtain rfl : j = 0 := List.mem_singleton.1 hj
    cases hu
    exact Nat.le_of_eq (congrArg (· + 1) (reach_of_isName hname))
  | assigned => exact Nat.le_trans (Nat.le_of_eq (reach_of_targets rfl)) (Nat.zero_le 1)

/-- A target where an expression may stand reaches no further than three levels for each one that is
counted. -/
theorem reach_le (ht : t.WellFormed) (hw : w.isPlain = true) (hall : t.nesting Way.isStray w = 0) :
    t.reach ≤ 3 * t.nesting Way.isCharged w + slack t.form := by
  induction ht generalizing w with
  | @node start stop form ts children placed _ _ _ _ _ _ _ kids ih =>
    refine reach_le_iff.2 fun j u hu hj => ?_
    obtain ⟨hknown, hbelow⟩ := child_known hu hall
    have hle := nesting_child_le (s := start) (e := stop) (k := Way.isCharged) (w := w) (f := form) hu
    have hreach {w' : Way} (hinto : w.into form j u.form = w') (hplain : w'.isPlain = true) :
        u.reach ≤ 3 * u.nesting Way.isCharged w' + slack u.form :=
      ih u (List.mem_of_getElem? hu) hplain (hinto ▸ hbelow)
    -- A level is counted, and so the child may use up all of its own.
    have charged {w' : Way} (hinto : w.into form j u.form = w') (hplain : w'.isPlain = true)
        (hcharged : w'.isCharged = true) :
        u.reach + 1 ≤ 3 * (node start stop form ts).nesting Way.isCharged w + 2 := by
      have := hreach hinto hplain
      have := slack_le u.form
      rw [hinto, hcharged, if_pos rfl] at hle
      omega
    have inline (hinto : w.into form j u.form = .inline) :
        u.reach + 1 ≤ 3 * (node start stop form ts).nesting Way.isCharged w + slack u.form + 1 := by
      have := hreach hinto rfl
      rw [hinto] at hle
      simp only [Way.isCharged] at hle
      omega
    cases form with
    | arrayPattern elements => exact charged (item_of_isPlain hw) rfl rfl
    | parenthesized e => exact charged rfl rfl rfl
    | objectPattern properties =>
      have hinto : w.into (.objectPattern properties) j u.form =
          if u.form.isSpread then w.item else if u.form.isProperty then w.part else .stray := rfl
      split at hinto
      · exact Nat.le_succ_of_le (charged (hinto.trans (item_of_isPlain hw)) rfl rfl)
      · split at hinto
        · next hproperty =>
          have := inline (hinto.trans (part_of_isPlain hw))
          rwa [slack_of_isProperty hproperty] at this
        · rw [hinto] at hknown
          cases hknown
    | property key value role traits =>
      obtain rfl : j = value := List.mem_singleton.1 hj
      obtain ⟨rfl, rfl⟩ : key = 0 ∧ j = 1 := by
        have hlen : ts.length = 2 := by simpa [Form.children] using congrArg List.length children.symm
        simpa [Form.children, hlen, List.range_succ] using children
      cases placed with
      | short hshort _ hname _ _ h =>
        cases hu
        have := h.reach_le hname
        simp only [Tree.form, slack]
        omega
      | spread hlong =>
        have hlong : traits.shorthand = false := hlong
        have hinto : w.into (.property 0 1 role traits) 1 u.form =
            if traits.method || role ≠ .init then if u.form.isFunction then w.part else .stray
            else w.item := by
          rw [Way.into, hlong]
          rfl
        split at hinto
        · split at hinto
          · next hfunction =>
            rw [reach_of_isFunction hfunction]
            simp only [Tree.form, slack]
            omega
          · rw [hinto] at hknown
            cases hknown
        · exact charged (hinto.trans (item_of_isPlain hw)) rfl rfl
    | assignmentPattern left right =>
      obtain rfl : j = left := List.mem_singleton.1 hj
      have hinto : w.into (.assignmentPattern j right) j u.form =
          if u.form.isItem then .stray else w.part := if_pos rfl
      split at hinto
      · rw [hinto] at hknown
        cases hknown
      · next hitem =>
        have := inline (hinto.trans (part_of_isPlain hw))
        have := slack_of_not_isItem (Bool.eq_false_iff.2 hitem)
        simp only [Tree.form, slack]
        omega
    | rest argument =>
      have hinto : w.into (.rest argument) j u.form = if u.form.isItem then .stray else w.part := rfl
      split at hinto
      · rw [hinto] at hknown
        cases hknown
      · next hitem =>
        have := inline (hinto.trans (part_of_isPlain hw))
        have := slack_of_not_isItem (Bool.eq_false_iff.2 hitem)
        simp only [Tree.form, slack]
        omega
    | _ => cases hj

/-- The grammar comes to a subtree as it comes to the tree, and no deeper. -/
theorem Located.exists_nesting_le {id i : Nat} {parent p : Option NodeId}
    (h : Located id parent t i p u) (w : Way) : ∃ w', ∀ k, u.nesting k w' ≤ t.nesting k w := by
  induction h generalizing w with
  | here => exact ⟨w, fun _ => Nat.le_refl _⟩
  | @child _ _ _ _ start stop form pre post c u _ ih =>
    obtain ⟨w', hle⟩ := ih (w.into form pre.length c.form)
    have hc : (pre ++ c :: post)[pre.length]? = some c := by simp
    exact ⟨w', fun k => Nat.le_trans (hle k)
      (Nat.le_trans (Nat.le_add_left _ _) (nesting_child_le hc))⟩

end Tree

namespace Form

variable {α β : Type}

/-- The target that a node writes to. -/
def assigned? : Form α → Option α
  | .assignment _ left _ => some left
  | .update _ _ argument => some argument
  | .forEach _ left _ _ => some left
  | _ => none

theorem assigned?_map {f : Form α} {g : α → β} : (f.map g).assigned? = f.assigned?.map g := by
  cases f <;> rfl

theorem mem_children_of_assigned? {f : Form α} {a : α} (h : f.assigned? = some a) :
    a ∈ f.children := by
  cases f with
  | assignment op left right => exact List.mem_cons.2 (.inl (Option.some.inj h).symm)
  | update op before argument => exact List.mem_cons.2 (.inl (Option.some.inj h).symm)
  | forEach each left right body => exact List.mem_cons.2 (.inl (Option.some.inj h).symm)
  | _ => cases h

/-- A target is written where an expression may stand. -/
theorem isPlain_of_assigned? {f : Form Nat} {k : Nat} {w : Way} {child : Form Nat}
    (h : f.assigned? = some k) : (w.into f k child).isPlain = true := by
  cases f with
  | assignment op left right =>
    simp only [Way.into]
    (repeat' split) <;> rfl
  | update op before argument =>
    simp only [Way.into]
    split <;> rfl
  | forEach each left right body =>
    simp only [Way.into, Way.loopHead]
    (repeat' split) <;> rfl
  | _ => cases h

end Form

namespace Nodes

variable {ns : Nodes} {a b c p : NodeId} {i j n : Nat} {f : Form NodeId}

/-- The item of an object pattern. -/
def IsObjectItem (ns : Nodes) (b : NodeId) : Prop :=
  ∃ q properties, ns.parent? b = some q ∧ ns.form? q = some (.objectPattern properties)

/-- The target `a` binds through the node `n` levels below. -/
inductive Holds (ns : Nodes) (a : NodeId) : Nat → NodeId → Prop where
  | refl : Holds ns a 0 a
  | step {n : Nat} {b c : NodeId} {f : Form NodeId} (h : Holds ns a n b)
    (hf : ns.form? b = some f) (hc : c ∈ f.targets)
    (hobject : f.isProperty = true → ns.IsObjectItem b) : Holds ns a (n + 1) c

/-- A node writes to the target. -/
def IsAssigned (ns : Nodes) (a : NodeId) : Prop :=
  ∃ p f, ns.form? p = some f ∧ f.assigned? = some a

/-- A declarator, a function or a `catch` clause binds the target. -/
def IsBound (ns : Nodes) (a : NodeId) : Prop :=
  ∃ p f, ns.form? p = some f ∧ a ∈ f.bound

theorem IsAssigned.not_isObjectItem (hns : ns.WellFormed) (ha : ns.IsAssigned a) :
    ¬ns.IsObjectItem a := by
  rintro ⟨q, properties, hq, hqf⟩
  obtain ⟨p, g, hg, hassigned⟩ := ha
  cases (parent?_of_form? hns hg (Form.mem_children_of_assigned? hassigned)).symm.trans hq
  cases hg.symm.trans hqf
  cases hassigned

theorem IsBound.not_isObjectItem (hns : ns.WellFormed) (ha : ns.IsBound a) :
    ¬ns.IsObjectItem a := by
  rintro ⟨q, properties, hq, hqf⟩
  obtain ⟨p, g, hg, hbound⟩ := ha
  cases (parent?_of_form? hns hg (Form.mem_children_of_mem_bound hbound)).symm.trans hq
  cases hg.symm.trans hqf
  cases hbound

/-- The items of object patterns are properties and rests, and climbing up from a name comes to the
target that is written. -/
structure Targeted (ns : Nodes) : Prop where
  item : ∀ {b c : NodeId} {properties : List NodeId} {f : Form NodeId},
    ns.form? b = some (.objectPattern properties) → c ∈ properties → ns.form? c = some f →
      f.isProperty = true ∨ f.isSpread = true
  lt : ∀ {a c : NodeId} {n : Nat}, ns.IsAssigned a → ns.Holds a n c → n < maxClimb

namespace Holds

theorem inside (hns : ns.WellFormed) (h : ns.Holds a n c) : ns.Inside a c := by
  induction h with
  | refl => exact .refl
  | step _ hf hc _ ih =>
    exact .up (parent?_of_form? hns hf (Form.mem_children_of_mem_targets hc)) ih

theorem trans (h : ns.Holds a i b) (h' : ns.Holds b j c) : ns.Holds a (i + j) c := by
  induction h' with
  | refl => exact h
  | step _ hf hc hobject ih => exact .step ih hf hc hobject

theorem cases_head (h : ns.Holds a n c) : (a = c ∧ n = 0) ∨
    ∃ f b m, n = m + 1 ∧ ns.form? a = some f ∧ b ∈ f.targets ∧
      (f.isProperty = true → ns.IsObjectItem a) ∧ ns.Holds b m c := by
  induction h with
  | refl => exact .inl ⟨rfl, rfl⟩
  | step h hf hc hobject ih =>
    right
    rcases ih with ⟨rfl, rfl⟩ | ⟨f, b, m, rfl, hf', hb, hobject', h'⟩
    · exact ⟨_, _, 0, rfl, hf, hc, hobject, .refl⟩
    · exact ⟨f, b, _, rfl, hf', hb, hobject', .step h' hf hc hobject⟩

/-- A node around the inner one divides the way. -/
theorem split (hns : ns.WellFormed) (h : ns.Holds a n c) (hp : ns.Inside p c)
    (ha : ns.Inside a p) : ∃ i j, ns.Holds a i p ∧ ns.Holds p j c := by
  induction h with
  | refl =>
    obtain rfl := hp.antisymm hns ha
    exact ⟨0, 0, .refl, .refl⟩
  | @step n b c f h hf hc hobject ih =>
    by_cases hne : p = c
    · subst hne
      exact ⟨n + 1, 0, .step h hf hc hobject, .refl⟩
    · have hb := parent?_of_form? hns hf (Form.mem_children_of_mem_targets hc)
      obtain ⟨i, j, hi, hj⟩ := ih (hp.parent hne hb)
      exact ⟨i, j + 1, hi, .step hj hf hc hobject⟩

end Holds

/-! ## The identifiers of a target -/

theorem exists_holds_of_mem (hns : ns.WellFormed) {depth : Nat}
    (h : c ∈ ns.bindingIdsWithin depth a) :
    (∃ n, ns.Holds a n c) ∧ ∃ name, ns.identifier? c = some name := by
  induction depth generalizing a with
  | zero => cases h
  | succ depth ih =>
    -- One step down, and what `ih` says of the rest.
    have descend {f : Form NodeId} {b : NodeId} (hf : ns.form? a = some f) (hb : b ∈ f.targets)
        (hproperty : f.isProperty = false) (hc : c ∈ ns.bindingIdsWithin depth b) :
        (∃ n, ns.Holds a n c) ∧ ∃ name, ns.identifier? c = some name := by
      obtain ⟨⟨n, hn⟩, hname⟩ := ih hc
      refine ⟨⟨_, Holds.trans (.step .refl hf hb fun h => ?_) hn⟩, hname⟩
      rw [hproperty] at h
      cases h
    rw [bindingIdsWithin] at h
    split at h
    · next name hf =>
      obtain rfl := List.mem_singleton.1 h
      exact ⟨⟨0, .refl⟩, name, identifier?_eq_some_iff.2 hf⟩
    · next elements hf =>
      obtain ⟨b, hb, hc⟩ := List.mem_flatMap.1 h
      exact descend hf hb rfl hc
    · next properties hf =>
      obtain ⟨p, hp, hc⟩ := List.mem_flatMap.1 h
      have hparent : ns.parent? p = some a := parent?_of_form? hns hf hp
      have hitem : ns.Holds a 1 p := .step .refl hf hp nofun
      split at hc
      · next key value role traits hpf =>
        obtain ⟨⟨n, hn⟩, hname⟩ := ih hc
        refine ⟨⟨_, Holds.trans (.step hitem hpf List.mem_cons_self fun _ => ?_) hn⟩, hname⟩
        exact ⟨a, properties, hparent, hf⟩
      · next argument hpf =>
        obtain ⟨⟨n, hn⟩, hname⟩ := ih hc
        exact ⟨⟨_, Holds.trans (.step hitem hpf List.mem_cons_self nofun) hn⟩, hname⟩
      · cases hc
    · next left right hf => exact descend hf List.mem_cons_self rfl h
    · next argument hf => exact descend hf List.mem_cons_self rfl h
    · next e hf => exact descend hf List.mem_cons_self rfl h
    · cases h

theorem mem_of_holds (hns : ns.WellFormed) (ht : ns.Targeted) {depth : Nat} {name : String}
    (hname : ns.identifier? c = some name) (h : ns.Holds a n c) (hdepth : n < depth)
    (ha : ∀ f, ns.form? a = some f → f.isProperty = true → ¬ns.IsObjectItem a) :
    c ∈ ns.bindingIdsWithin depth a := by
  induction depth generalizing a n with
  | zero => cases hdepth
  | succ depth ih =>
    rcases h.cases_head with ⟨rfl, -⟩ | ⟨f, b, m, rfl, hf, hb, hobject, h⟩
    · rw [bindingIdsWithin, identifier?_eq_some_iff.1 hname]
      exact List.mem_singleton.2 rfl
    · have hparent : ns.parent? b = some a :=
        parent?_of_form? hns hf (Form.mem_children_of_mem_targets hb)
      -- What is below is no item of an object pattern, unless the target is one.
      have hlong (hnot : ∀ properties, f ≠ .objectPattern properties) : ¬ns.IsObjectItem b := by
        rintro ⟨q, properties, hq, hqf⟩
        cases hparent.symm.trans hq
        cases hf.symm.trans hqf
        exact hnot properties rfl
      rw [bindingIdsWithin, hf]
      cases f with
      | arrayPattern elements =>
        exact List.mem_flatMap.2 ⟨b, hb, ih h (by omega) fun _ _ _ => hlong nofun⟩
      | assignmentPattern left right =>
        obtain rfl := List.mem_singleton.1 hb
        exact ih h (by omega) fun _ _ _ => hlong nofun
      | rest argument =>
        obtain rfl := List.mem_singleton.1 hb
        exact ih h (by omega) fun _ _ _ => hlong nofun
      | parenthesized e =>
        obtain rfl := List.mem_singleton.1 hb
        exact ih h (by omega) fun _ _ _ => hlong nofun
      | property key value role traits => exact absurd (hobject rfl) (ha _ hf rfl)
      | objectPattern properties =>
        refine List.mem_flatMap.2 ⟨b, hb, ?_⟩
        rcases h.cases_head with ⟨rfl, -⟩ | ⟨g, d, k, rfl, hg, hd, -, h⟩
        · rcases ht.item hf hb (identifier?_eq_some_iff.1 hname) with h | h <;> cases h
        · have hd' : ns.parent? d = some b :=
            parent?_of_form? hns hg (Form.mem_children_of_mem_targets hd)
          have hinner : ¬ns.IsObjectItem d := by
            rintro ⟨q, inner, hq, hqf⟩
            cases hd'.symm.trans hq
            cases hg.symm.trans hqf
            rcases ht.item hf hb hg with h | h <;> cases h
          rcases ht.item hf hb hg with h' | h'
          · cases g with
            | property key value role traits =>
              obtain rfl := List.mem_singleton.1 hd
              rw [hg]
              exact ih h (by omega) fun _ _ _ => hinner
            | _ => cases h'
          · cases g with
            | rest argument =>
              obtain rfl := List.mem_singleton.1 hd
              rw [hg]
              exact ih h (by omega) fun _ _ _ => hinner
            | spread argument => cases hd
            | _ => cases h'
      | _ => cases hb

theorem Holds.add_le (hns : ns.WellFormed) (h : ns.Holds a n c) : a + n ≤ c := by
  induction h with
  | refl => exact Nat.le_refl a
  | step _ hf hc _ ih =>
    have hlt := hns.parent_lt (parent?_of_form? hns hf (Form.mem_children_of_mem_targets hc))
    exact Nat.lt_of_le_of_lt ih hlt

/-- The identifiers of a target that is no part of an object pattern. -/
theorem mem_bindingIds (hns : ns.WellFormed) (ht : ns.Targeted) (ha : ¬ns.IsObjectItem a) :
    c ∈ ns.bindingIds a ↔ (∃ n, ns.Holds a n c) ∧ ∃ name, ns.identifier? c = some name := by
  refine ⟨exists_holds_of_mem hns, fun ⟨⟨n, h⟩, name, hname⟩ => ?_⟩
  have hlt : c < ns.size := by
    obtain ⟨m, hm, -⟩ := Option.map_eq_some_iff.1 (identifier?_eq_some_iff.1 hname)
    exact (Array.getElem?_eq_some_iff.1 hm).1
  have hn : n ≤ c := Nat.le_trans (Nat.le_add_left n a) (h.add_le hns)
  exact mem_of_holds hns ht hname h (Nat.lt_of_le_of_lt hn hlt) fun _ _ _ => ha

/-! ## The table of a tree that the grammar comes to -/

open LoopClosure.Syntax.Tree in
/-- A way down from a target is no longer than its tree reaches. -/
theorem Holds.add_reach_le {t u : Tree} {q : Option NodeId} (ht : t.WellFormed)
    (h : (ofTree t).Holds a n c) (ha : Located 0 none t a q u) :
    ∃ v r, Located 0 none t c r v ∧ n + v.reach ≤ u.reach := by
  induction h with
  | refl => exact ⟨u, q, ha, by omega⟩
  | @step n b c f h hf hc _ ih =>
    obtain ⟨v, r, hv, hle⟩ := ih
    obtain ⟨q', start, stop, g, ts, k, x, hv', hk, hx, hcx⟩ :=
      located_of_part ht Form.targets (fun _ _ => Form.targets_map)
        (fun _ _ => Form.mem_children_of_mem_targets) hf hc
    obtain ⟨-, rfl⟩ := hv.unique hv'
    have := reach_lt (s := start) (e := stop) hx hk
    exact ⟨x, _, hcx, by omega⟩

open LoopClosure.Syntax.Tree in
/-- What is bound is bound through no parentheses. -/
theorem Holds.not_parenthesized {t : Tree} (ht : t.WellFormed) (ha : (ofTree t).IsBound a)
    (h : (ofTree t).Holds a n c) (e : NodeId) : (ofTree t).form? c ≠ some (.parenthesized e) := by
  obtain ⟨u, q, hu, hbare⟩ : ∃ u q, Located 0 none t c q u ∧ u.Bare := by
    induction h with
    | refl =>
      obtain ⟨p, f, hf, hbound⟩ := ha
      obtain ⟨q, start, stop, g, ts, k, u, hv, hk, hu, hau⟩ :=
        located_of_part ht Form.bound (fun _ _ => Form.bound_map)
          (fun _ _ => Form.mem_children_of_mem_bound) hf hbound
      exact ⟨u, some p, hau, (hv.wellFormed ht).parts.bare k u hk hu⟩
    | step _ hf hc _ ih =>
      obtain ⟨v, r, hv, hbare⟩ := ih
      obtain ⟨q, start, stop, g, ts, k, u, hv', hk, hu, hcu⟩ :=
        located_of_part ht Form.targets (fun _ _ => Form.targets_map)
          (fun _ _ => Form.mem_children_of_mem_targets) hf hc
      obtain ⟨-, rfl⟩ := hv.unique hv'
      cases hbare with
      | node _ targets => exact ⟨u, _, hcu, targets k u hk hu⟩
  intro hf
  rw [form?_ofTree hu, Option.some.injEq] at hf
  cases hbare with
  | @node start stop form ts hopen targets =>
    cases form <;> cases hf
    exact hopen _ rfl

open LoopClosure.Syntax.Tree in
theorem targeted_ofTree {t : Tree} (ht : t.WellFormed) (hwithin : t.Within Grammar.maxNesting .inline) :
    (ofTree t).Targeted where
  item {b c properties f} hb hc hf := by
    obtain ⟨q, start, stop, g, ts, k, u, hv, hk, hu, hcu⟩ :=
      located_of_part ht Form.targets (fun _ _ => Form.targets_map)
        (fun _ _ => Form.mem_children_of_mem_targets) hb hc
    rw [form?_ofTree hv, Option.some.injEq] at hb
    rw [form?_ofTree hcu, Option.some.injEq] at hf
    obtain ⟨w, hle⟩ := hv.exists_nesting_le .inline
    have hall : (Tree.node start stop g ts).nesting Way.isStray w = 0 :=
      Nat.le_zero.1 (hwithin.all ▸ hle Way.isStray)
    obtain ⟨hknown, -⟩ := child_known hu hall
    cases g with
    | objectPattern indices =>
      have hinto : w.into (.objectPattern indices) k u.form =
          if u.form.isSpread then w.item else if u.form.isProperty then w.part else .stray := rfl
      subst hf
      rw [nodeAt, Form.isProperty_map, Form.isSpread_map]
      split at hinto
      · exact .inr ‹_›
      · split at hinto
        · exact .inl ‹_›
        · rw [hinto] at hknown
          cases hknown
    | _ => cases hb
  lt {a c n} ha h := by
    obtain ⟨p, f, hf, hassigned⟩ := ha
    obtain ⟨q, start, stop, g, ts, k, u, hv, hk, hu, hau⟩ :=
      located_of_part ht (fun f => f.assigned?.toList)
        (fun f g => by rw [Form.assigned?_map]; cases f.assigned? <;> rfl)
        (fun f a ha => Form.mem_children_of_assigned? (by simpa using ha)) hf (by simpa using hassigned)
    obtain ⟨w, hle⟩ := hv.exists_nesting_le .inline
    have hall : (Tree.node start stop g ts).nesting Way.isStray w = 0 :=
      Nat.le_zero.1 (hwithin.all ▸ hle Way.isStray)
    obtain ⟨-, hbelow⟩ := child_known hu hall
    have hplain : (w.into g k u.form).isPlain = true := Form.isPlain_of_assigned? (by simpa using hk)
    have hreach := reach_le (hau.wellFormed ht) hplain hbelow
    have hnesting : u.nesting Way.isCharged (w.into g k u.form) ≤ Grammar.maxNesting := by
      have hchild := nesting_child_le (s := start) (e := stop) (k := Way.isCharged) (w := w) (f := g) hu
      have hlevels : 0 + t.nesting Way.isCharged .inline ≤ Grammar.maxNesting := hwithin.levels
      have := hle Way.isCharged
      omega
    obtain ⟨v, r, -, hlen⟩ := h.add_reach_le ht hau
    have := slack_le u.form
    unfold Grammar.maxNesting at hnesting
    unfold maxClimb
    omega

end Nodes

end LoopClosure.Syntax
