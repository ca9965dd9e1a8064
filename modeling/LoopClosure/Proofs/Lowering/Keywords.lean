import LoopClosure.Proofs.Lowering.Jumps
import LoopClosure.Proofs.Lowering.Account
import LoopClosure.Proofs.Syntax.Provider
import Mathlib.Data.Nat.Init

/-!
# The values of `this` and `arguments`

A `this` or a free `arguments` whose provider is around the loop of its innermost wrapped body gets
its value handed in (`Lowering.Handed`), and these are the sites of its kind
(`Lowering.Nested.handed_iff`). Of a class only the heritage is looked at: what its members or their
computed keys use is no site, whatever provides it.
-/

namespace LoopClosure

open Syntax Syntax.Nodes Piece Atom

/-- The node `s` lies in a class below `a`, but not in its heritage. -/
def Syntax.Nodes.InMembers (ns : Nodes) (a s : NodeId) : Prop :=
  ∃ x y place name heritage members, ns.Inside a x ∧
    ns.form? x = some (.classBody place name heritage members) ∧ ns.parent? y = some x ∧
      ns.Inside y s ∧ heritage ≠ some y

/-- A loop provides nothing. -/
theorem Syntax.Nodes.not_provides_of_loop {ns : Nodes} {a b c : NodeId} {form : Form NodeId}
    (hroot : ∃ statements comments, ns.form? root = some (.program statements comments))
    (hf : ns.form? a = some form) (hloop : form.loopBody? = some b) : ¬ns.Provides a c := by
  rintro (⟨hf', -⟩ | rfl | ⟨hf', -⟩)
  · cases hf.symm.trans hf'
    cases hloop
  · obtain ⟨statements, comments, hroot⟩ := hroot
    cases hf.symm.trans hroot
    cases hloop
  · cases hf.symm.trans hf'
    cases hloop

/-- The search for sites leads from the body of a loop to what has its values from around the body,
but for what lies in a class and not in its heritage. -/
theorem Bound.leads_iff_passes {ns : Nodes} {a b s : NodeId} {form : Form NodeId}
    (h : ns.WellFormed) (hb : ns.parent? b = some a) (ha : ns.form? a = some form)
    (hloop : form.loopBody? = some b) :
    Bound.Leads ns b s ↔ ns.Passes b s ∧ ¬ns.InMembers b s := by
  constructor
  · intro hl
    refine ⟨fun x y hx hy hys hprovides => ?_, ?_⟩
    · cases hprovides with
      | @function place _ _ _ _ hf hplace =>
        have hmem := hl x y _ hx hy hys hf
        cases place with
        | arrow => exact hplace rfl
        | _ => cases hmem
      | program hroot =>
        have hle : b ≤ root := hroot ▸ hx.le h
        exact Nat.not_lt_zero a (Nat.lt_of_lt_of_le (h.parent_lt hb) hle)
      | @field _ q _ _ _ _ heritage _ hf hq hclass hmem =>
        cases hx with
        | refl =>
          cases hb.symm.trans hq
          cases ha.symm.trans hclass
          cases hloop
        | up hq' hin =>
          -- The member is no heritage, so that the search does not go into it.
          cases hq.symm.trans hq'
          have hheritage := hl q x _ hin hq ((Inside.of_parent hy).trans hys) hclass
          have hnodup := h.nodup q
          rw [children_of_form? hclass] at hnodup
          exact (List.nodup_append.1 hnodup).2.2 x (List.mem_append_right _ hheritage) x hmem rfl
    · rintro ⟨x, y, place, name, heritage, members, hx, hf, hy, hys, hne⟩
      exact hne (Option.mem_toList.1 (hl x y _ hx hy hys hf))
  · rintro ⟨hpasses, hmembers⟩ x y form hx hy hys hf
    obtain ⟨form', hf', hmem⟩ := exists_form?_of_parent? h hy
    cases hf.symm.trans hf'
    cases form with
    | function place name params body traits =>
      cases place with
      | arrow => exact hmem
      | _ => exact absurd (.function hf (by simp)) (hpasses x y hx hy hys)
    | classBody place name heritage members =>
      by_contra hout
      exact hmembers ⟨x, y, place, name, heritage, members, hx, hf, hy, hys,
        fun heq => hout (Option.mem_toList.2 heq)⟩
    | _ => exact hmem

namespace Lowering

variable {l : Lowering} {a : Alias} {i j : Nat} {w : Wrap} {p s : NodeId}

/-- A node is an occurrence of a keyword: a `this`, or an `arguments` that no declaration of the
program binds. -/
def Occurs (l : Lowering) (s : NodeId) : Alias → Prop
  | .this => l.nodes.form? s = some .this
  | .arguments => l.nodes.form? s = some (.identifier "arguments") ∧
    l.bound.isFreeArguments s = true

theorem siteKind?_eq_iff {body : NodeId} {inArrow : Bool} {form : Form NodeId}
    (hf : l.nodes.form? s = some form) :
    l.bound.siteKind? body inArrow s form = some a.siteKind ↔ l.Occurs s a := by
  have hthis : l.Occurs s .this ↔ form = .this := by
    rw [Occurs, hf, Option.some.injEq]
  have harguments : l.Occurs s .arguments ↔
      form = .identifier "arguments" ∧ l.bound.isFreeArguments s = true := by
    rw [Occurs, hf, Option.some.injEq]
  unfold Bound.siteKind?
  cases a with
  | this =>
    rw [hthis]
    split <;> simp_all [Alias.siteKind]
  | arguments =>
    rw [harguments]
    split <;> simp_all [Alias.siteKind]

/-! ## Sites -/

theorem Innermost.body_eq {v : Wrap} (hn : l.Nested) (h : l.Innermost w s) (h' : l.Innermost v s)
    (hw : l.wraps[i]? = some w) (hv : l.wraps[j]? = some v) : w.body = v.body :=
  (h'.least i w hw h.inside).antisymm hn.nodes (h.least j v hv h'.inside)

theorem innermost_of_unwrapped (hin : l.nodes.Inside w.body s)
    (hu : Bound.Unwrapped l.nodes l.isWrappedBody w.body w.body s) : l.Innermost w s where
  inside := hin
  least k v hv hvs := by
    rcases hvs.comparable hin with hvw | hwv
    · exact hvw
    · by_cases heq : v.body = w.body
      · exact heq ▸ .refl
      · have hopen := hu v.body hwv hvs heq
        rw [isWrappedBody_iff.2 ⟨k, v, hv, rfl⟩] at hopen
        cases hopen

/-- The sites of a keyword are its occurrences with the body for their innermost wrapped one that
the search leads to. -/
theorem Nested.mem_sitesOf_keyword_iff (hn : l.Nested) : s ∈ l.sitesOf i a.siteKind ↔
    l.Occurs s a ∧ ∃ w, l.wraps[i]? = some w ∧ l.Innermost w s ∧ Bound.Leads l.nodes w.body s := by
  constructor
  · intro hs
    obtain ⟨w, hw, hmem⟩ := mem_sitesOf hs
    obtain ⟨hin, hu, hl, inArrow, form, hf, hkind, -⟩ := Bound.mem_sitesWithin hn.nodes hmem
    exact ⟨(siteKind?_eq_iff hf).1 hkind, w, hw, innermost_of_unwrapped hin hu, hl⟩
  · classical
    rintro ⟨ho, w, hw, hi, hl⟩
    obtain ⟨form, hf⟩ : ∃ form, l.nodes.form? s = some form := by
      cases a with
      | this => exact ⟨_, ho⟩
      | arguments => exact ⟨_, ho.1⟩
    have hsize : s < l.nodes.size := lt_size_of_form? hf
    have harrow : decide (Bound.ArrowTo l.nodes w.body s) = true ↔
        false = true ∨ Bound.ArrowTo l.nodes w.body s := by simp
    exact mem_sitesOf_of_mem hw (Bound.mem_sitesWithin_of hn.nodes hi.inside
      (Nat.lt_of_lt_of_le hsize (Nat.le_add_left _ _)) (hi.unwrapped hn) hl harrow hf
      ((siteKind?_eq_iff hf).2 ho))

/-- A node with the provider `p` around the loop of its innermost wrapped body, and in no member of a
class in that body. -/
def Handed (l : Lowering) (p s : NodeId) : Prop :=
  ∃ (i : Nat) (w : Wrap), l.wraps[i]? = some w ∧ l.Innermost w s ∧ l.nodes.Inside p w.loop ∧
    ¬l.nodes.InMembers w.body s

/-- A keyword is a site exactly if its value is handed in. -/
theorem Nested.handed_iff (hn : l.Nested)
    (hroot : ∃ statements comments, l.nodes.form? root = some (.program statements comments))
    (ho : l.Occurs s a) (hp : l.nodes.Provider p s) :
    l.Handed p s ↔ ∃ i, s ∈ l.sitesOf i a.siteKind := by
  simp only [Handed, hn.mem_sitesOf_keyword_iff, ho, true_and]
  refine exists_congr fun i => exists_congr fun w => and_congr_right fun hw =>
    and_congr_right fun hi => ?_
  obtain ⟨form, hf, hbody⟩ := hn.wraps.loop hw
  have hparent := hn.wraps.parent?_body hn.nodes hw
  rw [Bound.leads_iff_passes hn.nodes hparent hf hbody,
    hp.inside_iff hn.nodes hparent hi.inside (not_provides_of_loop hroot hf hbody)]

end Lowering

end LoopClosure
