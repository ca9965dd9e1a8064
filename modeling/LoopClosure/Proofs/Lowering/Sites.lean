import LoopClosure.Lowering.Site
import LoopClosure.Proofs.Syntax.Nested

/-!
# Which nodes are sites

A site lies inside its body with no other wrapped body on the way, on a way that passes no functions
but arrows and no classes but through their heritage; jumps and returns are sites where the way
passes no arrow either (`mem_sitesWithin`, `mem_sitesWithin_of`).
-/

namespace LoopClosure

open Syntax Syntax.Nodes

theorem Syntax.Nodes.Inside.child_unique {ns : Nodes} {c c' p s : NodeId} (h : ns.WellFormed)
    (hp : ns.parent? c = some p) (hp' : ns.parent? c' = some p) (hs : ns.Inside c s)
    (hs' : ns.Inside c' s) : c = c' := by
  have hlt {x y : NodeId} (hx : ns.parent? x = some p) (hy : ns.parent? y = some p)
      (hxy : ns.Inside x y) : x = y := by
    by_cases hne : x = y
    · exact hne
    · exact absurd ((hxy.parent hne hy).le h) (Nat.not_le_of_lt (h.parent_lt hx))
  rcases hs.comparable hs' with hcc | hcc
  · exact hlt hp hp' hcc
  · exact (hlt hp' hp hcc).symm

/-- What lies between a node and one inside its child is the node or lies inside the child. -/
theorem Syntax.Nodes.Inside.eq_or_inside_child {ns : Nodes} {c p x s : NodeId} (h : ns.WellFormed)
    (hp : ns.parent? c = some p) (hs : ns.Inside c s) (hx : ns.Inside p x) (hxs : ns.Inside x s) :
    x = p ∨ ns.Inside c x := by
  rcases hx.eq_or_child with rfl | ⟨c', hp', hx⟩
  · exact .inl rfl
  · rw [Inside.child_unique h hp hp' hs (hx.trans hxs)]
    exact .inr hx

namespace Bound

variable {b : Bound} {isWrapped : NodeId → Bool} {body id s : NodeId} {depth : Nat}
  {inArrow : Bool} {kind : SiteKind}

theorem siteChildren_subset (form : Form NodeId) : siteChildren form ⊆ form.children := by
  cases form with
  | function place name params body traits => cases place <;> simp [siteChildren, Form.children]
  | classBody place name heritage members =>
    intro c hc
    simp only [siteChildren] at hc
    simp [Form.children, Option.mem_toList.1 hc]
  | _ => exact fun _ hc => hc

/-- The search for sites goes from one node down to another: of a function that is no arrow it leaves
out the children, and of a class all but the heritage. -/
def Leads (ns : Nodes) (id s : NodeId) : Prop :=
  ∀ x y form, ns.Inside id x → ns.parent? y = some x → ns.Inside y s → ns.form? x = some form →
    y ∈ siteChildren form

/-- An arrow lies on the way from one node down to another, but not at its end. -/
def ArrowTo (ns : Nodes) (id s : NodeId) : Prop :=
  ∃ x form, ns.Inside id x ∧ ns.Inside x s ∧ x ≠ s ∧ ns.form? x = some form ∧ form.isArrow = true

/-- No wrapped body but `body` lies on the way from one node down to another. -/
def Unwrapped (ns : Nodes) (isWrapped : NodeId → Bool) (body id s : NodeId) : Prop :=
  ∀ x, ns.Inside id x → ns.Inside x s → x ≠ body → isWrapped x = false

/-- No function lies on the way from one node down to another, but perhaps at its end. -/
def NoFunctionTo (ns : Nodes) (id s : NodeId) : Prop :=
  ∀ x form, ns.Inside id x → ns.Inside x s → x ≠ s → ns.form? x = some form →
    form.isFunction = false

section Ways

variable {ns : Nodes} {c : NodeId} {form : Form NodeId}

theorem leads_refl (h : ns.WellFormed) : Leads ns s s := by
  intro x y form hx hp hy _
  have hlt := h.parent_lt hp
  exact absurd (hx.le h) (Nat.not_le_of_lt (Nat.lt_of_lt_of_le hlt (hy.le h)))

theorem not_arrowTo_refl (h : ns.WellFormed) : ¬ArrowTo ns s s :=
  fun ⟨_, _, hx, hxs, hne, _⟩ => hne (hxs.antisymm h hx)

variable (h : ns.WellFormed) (hp : ns.parent? c = some id) (hf : ns.form? id = some form)
  (hc : ns.Inside c s)

include h hp hf hc

theorem leads_iff : Leads ns id s ↔ c ∈ siteChildren form ∧ Leads ns c s := by
  refine ⟨fun hl => ⟨hl id c form .refl hp hc hf, fun x y fx hx => hl x y fx
    ((Inside.of_parent hp).trans hx)⟩, fun ⟨hmem, hl⟩ x y fx hx hy hys hfx => ?_⟩
  rcases hc.eq_or_inside_child h hp hx ((Inside.of_parent hy).trans hys) with rfl | hx
  · obtain rfl : fx = form := Option.some.inj (hfx.symm.trans hf)
    exact Inside.child_unique h hp hy hc hys ▸ hmem
  · exact hl x y fx hx hy hys hfx

theorem arrowTo_iff : ArrowTo ns id s ↔ form.isArrow = true ∨ ArrowTo ns c s := by
  have hne : id ≠ s := Nat.ne_of_lt (Nat.lt_of_lt_of_le (h.parent_lt hp) (hc.le h))
  constructor
  · rintro ⟨x, fx, hx, hxs, hxne, hfx, harrow⟩
    rcases hc.eq_or_inside_child h hp hx hxs with rfl | hx
    · exact .inl (Option.some.inj (hfx.symm.trans hf) ▸ harrow)
    · exact .inr ⟨x, fx, hx, hxs, hxne, hfx, harrow⟩
  · rintro (harrow | ⟨x, fx, hx, hrest⟩)
    · exact ⟨id, form, .refl, (Inside.of_parent hp).trans hc, hne, hf, harrow⟩
    · exact ⟨x, fx, (Inside.of_parent hp).trans hx, hrest⟩

omit hf in
theorem unwrapped_iff : Unwrapped ns isWrapped body id s ↔
    (id ≠ body → isWrapped id = false) ∧ Unwrapped ns isWrapped body c s := by
  refine ⟨fun hu => ⟨hu id .refl ((Inside.of_parent hp).trans hc), fun x hx =>
    hu x ((Inside.of_parent hp).trans hx)⟩, fun ⟨hid, hu⟩ x hx hxs => ?_⟩
  rcases hc.eq_or_inside_child h hp hx hxs with rfl | hx
  · exact hid
  · exact hu x hx hxs

end Ways

/-- Where no arrow is passed, no function is. -/
theorem Leads.noFunctionTo {ns : Nodes} (hl : Leads ns id s) (ha : ¬ArrowTo ns id s) :
    NoFunctionTo ns id s := by
  intro x form hx hxs hne hf
  by_contra hfun
  rcases hxs.eq_or_child with rfl | ⟨y, hp, hy⟩
  · exact hne rfl
  · have hmem := hl x y form hx hp hy hf
    cases form with
    | function place name params body traits =>
      cases place with
      | arrow => exact ha ⟨x, _, hx, hxs, hne, hf, rfl⟩
      | _ => cases hmem
    | _ => exact hfun rfl

theorem siteChildren_eq {form : Form NodeId} (hf : form.isFunction = false)
    (hc : form.isClass = false) : siteChildren form = form.children := by
  cases form with
  | function place name params body traits => cases hf
  | classBody place name heritage members => cases hc
  | _ => rfl

theorem leads_of {ns : Nodes} (h : ns.WellFormed)
    (hway : ∀ x form, ns.Inside id x → ns.Inside x s → x ≠ s → ns.form? x = some form →
      form.isFunction = false ∧ form.isClass = false) : Leads ns id s := by
  intro x y form hx hp hy hf
  have hlt := Nat.lt_of_lt_of_le (h.parent_lt hp) (hy.le h)
  obtain ⟨hfun, hclass⟩ := hway x form hx ((Inside.of_parent hp).trans hy) (Nat.ne_of_lt hlt) hf
  obtain ⟨form', hf', hmem⟩ := exists_form?_of_parent? h hp
  obtain rfl : form = form' := Option.some.inj (hf.symm.trans hf')
  rwa [siteChildren_eq hfun hclass]

theorem mem_sitesWithin (h : b.nodes.WellFormed)
    (hs : (kind, s) ∈ b.sitesWithin isWrapped body depth inArrow id) : b.nodes.Inside id s ∧
      Unwrapped b.nodes isWrapped body id s ∧ Leads b.nodes id s ∧
      ∃ inArrow' form, b.nodes.form? s = some form ∧
        b.siteKind? body inArrow' s form = some kind ∧
        (inArrow' = true ↔ inArrow = true ∨ ArrowTo b.nodes id s) := by
  induction depth generalizing inArrow id with
  | zero => cases hs
  | succ depth ih =>
    unfold sitesWithin at hs
    split at hs
    · cases hs
    · next hopen =>
      have hid : id ≠ body → isWrapped id = false := by simpa using hopen
      split at hs
      · cases hs
      · next form hf =>
        rcases List.mem_append.1 hs with hs | hs
        · obtain ⟨kind', hkind, heq⟩ := Option.map_eq_some_iff.1 (Option.mem_toList.1 hs)
          obtain ⟨rfl, rfl⟩ := Prod.mk.inj heq
          refine ⟨.refl, fun x hx hxs => hxs.antisymm h hx ▸ hid, leads_refl h, inArrow, form, hf,
            hkind, (or_iff_left (not_arrowTo_refl h)).symm⟩
        · obtain ⟨c, hc, hs⟩ := List.mem_flatMap.1 hs
          have hp := parent?_of_form? h hf (siteChildren_subset form hc)
          obtain ⟨hin, hwrapped, hleads, inArrow', form', hf', hkind, hway⟩ := ih hs
          refine ⟨(Inside.of_parent hp).trans hin, (unwrapped_iff h hp hin).2 ⟨hid, hwrapped⟩,
            (leads_iff h hp hf hin).2 ⟨hc, hleads⟩, inArrow', form', hf', hkind, ?_⟩
          rw [hway, arrowTo_iff h hp hf hin, Bool.or_eq_true, or_assoc]

theorem mem_sitesWithin_of (h : b.nodes.WellFormed) (hin : b.nodes.Inside id s)
    (hdepth : s < id + depth) (hwrapped : Unwrapped b.nodes isWrapped body id s)
    (hleads : Leads b.nodes id s) {inArrow' : Bool}
    (harrow : inArrow' = true ↔ inArrow = true ∨ ArrowTo b.nodes id s)
    {form : Form NodeId} (hf : b.nodes.form? s = some form)
    (hkind : b.siteKind? body inArrow' s form = some kind) :
    (kind, s) ∈ b.sitesWithin isWrapped body depth inArrow id := by
  induction depth generalizing inArrow id with
  | zero => exact absurd (hin.le h) (Nat.not_le_of_lt hdepth)
  | succ depth ih =>
    have hopen : ¬(id ≠ body && isWrapped id) = true := by
      by_cases hid : id = body
      · simp [hid]
      · simp [hwrapped id .refl hin hid]
    unfold sitesWithin
    rw [if_neg hopen]
    rcases hin.eq_or_child with rfl | ⟨c, hp, hc⟩
    · obtain rfl : inArrow' = inArrow := Bool.eq_iff_iff.2
        (harrow.trans (or_iff_left (not_arrowTo_refl h)))
      rw [hf]
      dsimp only
      rw [hkind]
      exact List.mem_append_left _ List.mem_cons_self
    · obtain ⟨form', hf', -⟩ := exists_form?_of_parent? h hp
      obtain ⟨hmem, hleads⟩ := (leads_iff h hp hf' hc).1 hleads
      rw [hf']
      dsimp only
      refine List.mem_append_right _ (List.mem_flatMap.2 ⟨c, hmem, ih hc ?_
        ((unwrapped_iff h hp hc).1 hwrapped).2 hleads ?_⟩)
      · refine Nat.lt_of_lt_of_le hdepth ?_
        rw [Nat.add_comm depth 1, ← Nat.add_assoc]
        exact Nat.add_le_add_right (h.parent_lt hp) depth
      · rw [harrow, arrowTo_iff h hp hf' hc, Bool.or_eq_true, or_assoc]

/-- A site is a keyword, a name, or begins with a keyword. -/
theorem form_of_siteKind? {form : Form NodeId} (h : b.siteKind? body inArrow s form = some kind) :
    form = .this ∨ (∃ name, form = .identifier name) ∨ form.hasKeyword = true := by
  cases form with
  | this => exact .inl rfl
  | identifier name => exact .inr (.inl ⟨name, rfl⟩)
  | jump => exact .inr (.inr rfl)
  | returns => exact .inr (.inr rfl)
  | bindings => exact .inr (.inr rfl)
  | _ => cases h

/-- No site but the statement itself begins where a statement with a keyword begins. -/
theorem eq_of_start_eq {ns : Nodes} (h : ns.WellFormed) {id p : NodeId} {m n : Node}
    (hs : ns.get? s = some m) (hid : ns.get? id = some n) (hk : n.form.hasKeyword = true)
    (hp : ns.parent? s = some p)
    (hform : m.form = .this ∨ (∃ name, m.form = .identifier name) ∨ m.form.hasKeyword = true)
    (hstart : m.start = n.start) : s = id := by
  by_contra hne
  have hname : ns.identifier? s = none := by
    rcases hform with hthis | ⟨name, hname⟩ | hkey
    · exact identifier?_eq_none hs fun name hname => by rw [hthis] at hname; cases hname
    · have := h.name_apart hs hname hid hk
      omega
    · exact identifier?_eq_none_of_hasKeyword hs hkey
  obtain ⟨o, ho⟩ := exists_get?_of_parent? h hp
  have hnonempty := h.within hp hs ho
  have hlt := h.nonempty hid hk
  have hnoname := identifier?_eq_none_of_hasKeyword hid hk
  rcases h.laminar hs hid hname hnoname with hin | hin | hle | hle
  · rcases hform with hthis | ⟨name, hname'⟩ | hkey
    · rcases hin.eq_or_child with heq | ⟨c, hc, -⟩
      · exact hne heq
      · obtain ⟨form, hf, hmem⟩ := exists_form?_of_parent? h hc
        rw [form?, hs, Option.map_some, Option.some.injEq, hthis] at hf
        subst hf
        cases hmem
    · rw [identifier?_eq_some_iff.2 (by rw [form?, hs, Option.map_some, hname'])] at hname
      cases hname
    · have := hin.start_lt h hne hs hid hkey
      omega
  · have := hin.start_lt h (Ne.symm hne) hid hs hk
    omega
  · omega
  · omega

end Bound

end LoopClosure
