import LoopClosure.Proofs.Lowering.Faithful
import LoopClosure.Proofs.Lowering.Families
import LoopClosure.Proofs.Lowering.Hosts

/-!
# Homes of keyword values

The variable for a keyword is declared in the scope that `Lowering.aliasScope?` finds on the way up
from a wrapped body, and none is found if the way comes to a class first.

- `Bound.Lowers b b'`: while loops are wrapped, scopes and nodes only get further down.
- `Bound.Wrapped b b' wraps`: where the scopes of wraps come to lie among those of the bound unit.

The grammar has loops in a class only in functions with blocks, whose scopes lie below that of the
class and around the body; so a variable finds its place. The exception is a class that is itself
the body of a loop: it has a scope of its own, and that of the wrap comes below it
(`wraps_homed`).
-/

namespace LoopClosure

open Syntax Syntax.Nodes Scopes Binding

namespace Scopes

variable {s t : Scopes} {x y outer : ScopeId}

theorem Inserted.under (h : Inserted s t outer) (hu : s.Under x y) : t.Under x y := by
  induction hu with
  | refl => exact .refl
  | @up y p hp _ ih =>
    rcases h.parent_old (lt_size_of_parent? hp) with hsame | ⟨hnew, hold⟩
    · exact .up (hsame.trans hp) ih
    · obtain rfl := Option.some.inj (hold.symm.trans hp)
      exact .up hnew (.up h.parent_new ih)

end Scopes

namespace Bound

variable {b b' b₁ : Bound} {w : Wrap} {wraps : Array Wrap} {body loop i n : NodeId}
  {form : Form NodeId} {outer x y p : ScopeId}

/-! ## Further down -/

/-- What lies under a scope in `b` does so in `b'`. -/
structure Lowers (b b' : Bound) : Prop where
  under : ∀ {x y : ScopeId}, b.scopes.Under x y → b'.scopes.Under x y
  node : ∀ {i : NodeId} {x : ScopeId}, b.nodeScope? i = some x →
    ∃ y, b'.nodeScope? i = some y ∧ b'.scopes.Under x y

namespace Lowers

theorem refl (b : Bound) : Lowers b b := ⟨id, fun h => ⟨_, h, .refl⟩⟩

theorem trans (h : Lowers b b₁) (h' : Lowers b₁ b') : Lowers b b' where
  under hu := h'.under (h.under hu)
  node hi := by
    obtain ⟨y, hy, hxy⟩ := h.node hi
    obtain ⟨z, hz, hyz⟩ := h'.node hy
    exact ⟨z, hz, (h'.under hxy).trans hyz⟩

theorem of_sameShape (hs : b.scopes.SameShape b'.scopes) (hn : b'.nodeScopes = b.nodeScopes) :
    Lowers b b' where
  under hu := hu.congr fun _ => hs.parent? _
  node {i x} hi := ⟨x, by rw [nodeScope?, hn]; exact hi, .refl⟩

theorem splitBody (hw : b.WellScoped) (hlt : outer < b.scopes.size) (body : NodeId) :
    Lowers b (b.splitBody body outer).1 where
  under := (split_splitBody hw.wellFormed hlt body).inserted.under
  node {i x} hi := by
    rw [nodeScope?_splitBody]
    split
    · next hin =>
      obtain rfl := Option.some.inj (hi.symm.trans hin.2)
      have hnew := (split_splitBody hw.wellFormed hlt body).inserted.parent_new
      exact ⟨_, rfl, .up hnew .refl⟩
    · exact ⟨x, hi, .refl⟩

end Lowers

/-! ## One wrap -/

/-- The body of a loop is wrapped: it gets the scope `w.scope`, the one that it had or one below. -/
structure Rescopes (b b' : Bound) (w : Wrap) : Prop extends Lowers b b' where
  outer : ∃ x, b.nodeScope? w.body = some x ∧
    ((∃ statements, b.nodes.form? w.body = some (.block statements)) ∧
        b.scopes.node? (some x) = some w.body ∧ w.scope = x ∨
      w.scope = b.scopes.size ∧ b'.scopes.parent? (some w.scope) = some x)
  body : b'.nodeScope? w.body = some w.scope
  parent : ∀ {x p : ScopeId}, b.scopes.parent? (some x) = some p →
    b'.scopes.parent? (some x) = some p ∨ b.nodeScope? w.body = some p ∧
      ∀ n, b.scopes.node? (some x) = some n → b.nodes.Inside w.body n
  size : ∀ {x : ScopeId}, x < b'.scopes.size → x < b.scopes.size ∨ x = w.scope
  wrapper_iff : ∀ {x : ScopeId}, (b'.scopes.flags (some x)).loopWrapper = true ↔
    (b.scopes.flags (some x)).loopWrapper = true ∨ x = w.scope

theorem Rescopes.sameFrame (h : Rescopes b b₁ w) (hs : SameFrame b₁ b') : Rescopes b b' w where
  toLowers := h.toLowers.trans (.of_sameShape hs.shape hs.nodeScopes)
  outer := by
    rw [hs.shape.parent?]
    exact h.outer
  body := by
    rw [nodeScope?, hs.nodeScopes]
    exact h.body
  parent := by
    simp only [hs.shape.parent?]
    exact h.parent
  size := by
    rw [hs.shape.size]
    exact h.size
  wrapper_iff := by
    simp only [hs.flags]
    exact h.wrapper_iff

theorem rescopes_openBlock (hw : b.WellScoped) {statements : List NodeId}
    (hblock : b.nodes.form? w.body = some (.block statements))
    (houter : b.nodeScope? w.body = some w.scope)
    (hnode : b.scopes.node? (some w.scope) = some w.body) :
    Rescopes b (b.withScopes ((b.scopes.setKind w.scope .hoist).addFlags w.scope
      { loopWrapper := true })) w where
  toLowers := .of_sameShape (openBlock_sameShape b w.scope) rfl
  outer := ⟨w.scope, houter, .inl ⟨⟨statements, hblock⟩, hnode, rfl⟩⟩
  body := houter
  parent hp := .inl (((openBlock_sameShape b w.scope).parent? _).trans hp)
  size hx := .inl ((openBlock_sameShape b w.scope).size ▸ hx)
  wrapper_iff {x} := by
    by_cases hx : x = w.scope
    · subst hx
      obtain ⟨c, hc⟩ := get?_of_lt (hw.nodeScope_lt houter)
      simp [withScopes, flags, addFlags, setKind, get?_update_self, hc, Flags.union]
    · have hne : some w.scope ≠ some x := fun e => hx (Option.some.inj e).symm
      rw [withScopes, flags, addFlags, get?_update_of_ne hne, setKind, get?_update_of_ne hne,
        or_iff_left hx, flags]

theorem Nests.rescopes_splitBody (h : b.Nests) (hw : b.WellScoped) (hns : b.nodes.WellFormed)
    (hf : b.nodes.form? w.loop = some form) (hbody : form.loopBody? = some w.body)
    (houter : b.nodeScope? w.body = some outer) (hscope : w.scope = b.scopes.size) :
    Rescopes b (b.splitBody w.body outer).1 w := by
  have hlt := hw.nodeScope_lt houter
  have hsplit := split_splitBody hw.wellFormed hlt w.body
  refine ⟨.splitBody hw hlt w.body, ⟨outer, houter, .inr ⟨hscope, ?_⟩⟩, ?_, fun {x p} hp => ?_,
    fun {x} hx => ?_, fun {x} => ?_⟩
  · rw [hscope]
    exact hsplit.inserted.parent_new
  · rw [hscope]
    exact nodeScope?_split_new hns hf hbody houter .refl
  · rw [parent?_splitBody hlt hw.wellFormed h.listed]
    split
    · next hmoved =>
      obtain ⟨hup, n, hn, -⟩ := (mem_moved_iff hlt hw.wellFormed h.listed).1 hmoved
      obtain rfl := Option.some.inj (hup.symm.trans hp)
      refine .inr ⟨houter, fun m hm => ?_⟩
      exact ((h.mem_moved_iff_inside hw hns hf hbody houter hm).1 hmoved).2
    · rw [if_neg (Nat.ne_of_lt (lt_size_of_parent? hp))]
      exact .inl hp
  · rw [hsplit.size] at hx
    exact (Nat.lt_succ_iff_lt_or_eq.1 hx).imp_right fun h => h.trans hscope.symm
  · by_cases hx : x = b.scopes.size
    · rw [hx, flags_splitBody_new hlt, hscope]
      simp
    · rw [flags_splitBody hx, hscope, or_iff_left hx]

theorem Grounded.rescopes (h : b.Grounded) (hw : b.WellScoped) (hns : b.nodes.WellFormed)
    (hf : b.nodes.form? loop = some form) (hbody : form.loopBody? = some body)
    (hwrap : b.wrap loop body = .ok (b', w)) : Rescopes b b' w := by
  obtain ⟨outer, b₁, houter, hsame, rfl, rfl, hcases⟩ := wrap_cases hwrap
  rcases hcases with ⟨⟨statements, hblock⟩, rfl, rfl⟩ | ⟨hscope, -, rfl⟩
  · have hnode := h.own houter hblock (opensScope_body hns hf hbody statements)
    exact (rescopes_openBlock hw hblock houter hnode).sameFrame hsame
  · exact (h.toNests.rescopes_splitBody hw hns hf hbody houter hscope).sameFrame hsame

/-! ## All wraps -/

/-- Where the scope of a wrap lies, `b` being the bound unit: under that of the body there, or right
under it if the body is a class. -/
structure Lodged (b b' : Bound) (w : Wrap) : Prop where
  loop : ∃ form, b.nodes.form? w.loop = some form ∧ form.loopBody? = some w.body
  node : b'.scopes.node? (some w.scope) = some w.body
  under : ∀ {x : ScopeId}, b.nodeScope? w.body = some x → b'.scopes.Under x w.scope
  above : ∃ x, b'.nodeScope? w.body = some x ∧ b'.scopes.Under w.scope x
  fresh : b.scopes.size ≤ w.scope ∨ ∃ statements, b.nodes.form? w.body = some (.block statements)
  ofClass : b.nodes.IsClass w.body → ∃ c, b'.scopes.parent? (some w.scope) = some c ∧
    b'.scopes.node? (some c) = some w.body ∧ (b'.scopes.flags (some c)).loopWrapper = false

/-- `b'` comes from the bound unit `b` by `wraps`. -/
structure Wrapped (b b' : Bound) (wraps : Array Wrap) : Prop extends Lowers b b' where
  kept : b.Extends b'
  wellScoped : b'.WellScoped
  grounded : b'.Grounded
  fresh : ∀ {x : ScopeId}, x < b'.scopes.size → x < b.scopes.size ∨ ∃ w ∈ wraps, w.scope = x
  wrapper_iff : ∀ {x : ScopeId}, (b'.scopes.flags (some x)).loopWrapper = true ↔
    ∃ w ∈ wraps, w.scope = x
  lodged : ∀ w ∈ wraps, Lodged b b' w

theorem Wrapped.nodes (h : Wrapped b b' wraps) : b'.nodes = b.nodes := h.kept.nodes

/-- A wrap stays where it is when another loop is wrapped. -/
theorem Lodged.rescopes {v : Wrap} (hv : Lodged b b₁ v) (h : Wrapped b b₁ wraps)
    (hns : b.nodes.WellFormed) (hext : b₁.Extends b') (hs : Rescopes b₁ b' w) : Lodged b b' v where
  loop := hv.loop
  node := (hext.scopes.node? (lt_size_of_node? hv.node)).trans hv.node
  under hx := hs.under (hv.under hx)
  above := by
    obtain ⟨x, hx, hvx⟩ := hv.above
    obtain ⟨y, hy, hxy⟩ := hs.toLowers.node hx
    exact ⟨y, hy, (hs.under hvx).trans hxy⟩
  fresh := hv.fresh
  ofClass hclass := by
    obtain ⟨c, hp, hnode, hflag⟩ := hv.ofClass hclass
    have hin {x : NodeId} (hx : b₁.nodeScope? x = some c) : b.nodes.Inside v.body x :=
      h.nodes ▸ h.grounded.around hx hnode
    refine ⟨c, ?_, (hext.scopes.node? (lt_size_of_node? hnode)).trans hnode,
      Bool.eq_false_iff.2 fun hwrapper => ?_⟩
    · refine (hs.parent hp).resolve_right fun ⟨hw, hmoved⟩ => ?_
      -- The other body would be this one, of which the scope lies under that of its wrap.
      have hbody : w.body = v.body :=
        ((h.nodes ▸ hmoved _ hv.node : b.nodes.Inside _ _)).antisymm hns (hin hw)
      obtain ⟨x, hx, hvx⟩ := hv.above
      rw [← hbody, hw, Option.some.injEq] at hx
      have htop := h.grounded.tree.under _ (lt_size_of_parent? hp)
      exact htop.not_above h.grounded.tree.isRoot hp (hx ▸ hvx)
    · rcases hs.wrapper_iff.1 hwrapper with hold | rfl
      · cases hflag.symm.trans hold
      · obtain ⟨x, -, ⟨⟨statements, hblock⟩, hx, rfl⟩ | ⟨hsize, -⟩⟩ := hs.outer
        · -- The scope of a class is not that of a block.
          obtain ⟨place, name, heritage, members, hform⟩ := hclass
          rw [hnode, Option.some.injEq] at hx
          rw [h.nodes, ← hx, hform] at hblock
          cases hblock
        · exact Nat.ne_of_lt (lt_size_of_node? hnode) hsize

theorem Wrapped.start (hg : b.Grounded) (hw : b.WellScoped)
    (hflags : ∀ x, (b.scopes.flags (some x)).loopWrapper = false) : Wrapped b b #[] where
  toLowers := .refl b
  kept := .refl b
  wellScoped := hw
  grounded := hg
  fresh := .inl
  wrapper_iff {x} := by simp [hflags x]
  lodged w hw := absurd hw (Array.not_mem_empty w)

section Wrap

variable (h : Wrapped b b₁ wraps) (hns : b.nodes.WellFormed)
  (hf : b.nodes.form? loop = some form) (hbody : form.loopBody? = some body)
  (hnew : loop ∉ loopsOf wraps) (hwrap : b₁.wrap loop body = .ok (b', w))
include h hns hf hbody hnew hwrap

theorem Wrapped.lodged_wrap : Lodged b b' w := by
  have hns₁ : b₁.nodes.WellFormed := h.nodes ▸ hns
  have hf₁ : b₁.nodes.form? loop = some form := h.nodes ▸ hf
  have hs := h.grounded.rescopes h.wellScoped hns₁ hf₁ hbody hwrap
  have hnode := (h.grounded.wrap h.wellScoped hns₁ hf₁ hbody hwrap).2
  obtain ⟨rfl, rfl, -, hext, -⟩ := wrap_spec h.wellScoped hwrap
  obtain ⟨outer, houter, hcases⟩ := hs.outer
  refine ⟨⟨form, hf, hbody⟩, hnode, fun {x} hx => ?_, ⟨_, hs.body, .refl⟩, ?_, ?_⟩
  · obtain ⟨y, hy, hxy⟩ := h.toLowers.node hx
    obtain rfl := Option.some.inj (houter.symm.trans hy)
    rcases hcases with ⟨-, -, hscope⟩ | ⟨-, hp⟩
    · exact hscope ▸ hs.under hxy
    · exact .up hp (hs.under hxy)
  · rcases hcases with ⟨hblock, -⟩ | ⟨hscope, -⟩
    · exact .inr (h.nodes ▸ hblock)
    · exact .inl (hscope ▸ h.kept.scopes.size_le)
  · rintro ⟨place, name, heritage, members, hform⟩
    rcases hcases with ⟨⟨statements, hblock⟩, -⟩ | ⟨hscope, hp⟩
    · rw [h.nodes, hform] at hblock
      cases hblock
    have hown := h.grounded.own houter (h.nodes ▸ hform) rfl
    refine ⟨outer, hp, (hext.scopes.node? (lt_size_of_node? hown)).trans hown,
      Bool.eq_false_iff.2 fun hwrapper => ?_⟩
    rcases hs.wrapper_iff.1 hwrapper with hold | rfl
    · -- No other wrap has the body.
      obtain ⟨v, hv, rfl⟩ := h.wrapper_iff.1 hold
      have hvs := h.lodged v hv
      obtain ⟨form', hf', hbody'⟩ := hvs.loop
      obtain hsame := Option.some.inj (hvs.node.symm.trans hown)
      have hloop := parent?_body hns hf' hbody'
      rw [hsame, parent?_body hns hf hbody, Option.some.injEq] at hloop
      exact hnew (hloop ▸ List.mem_map_of_mem (Array.mem_toList_iff.2 hv))
    · exact Nat.ne_of_lt (lt_size_of_node? hown) hscope

theorem Wrapped.wrap : Wrapped b b' (wraps.push w) := by
  have hns₁ : b₁.nodes.WellFormed := h.nodes ▸ hns
  have hf₁ : b₁.nodes.form? loop = some form := h.nodes ▸ hf
  have hs := h.grounded.rescopes h.wellScoped hns₁ hf₁ hbody hwrap
  have hlodged := h.lodged_wrap hns hf hbody hnew hwrap
  obtain ⟨-, -, hwell, hext, -⟩ := wrap_spec h.wellScoped hwrap
  have hor {P : Wrap → Prop} : (∃ v ∈ wraps.push w, P v) ↔ (∃ v ∈ wraps, P v) ∨ P w := by
    simp [Array.mem_push, or_and_right, exists_or]
  refine ⟨h.toLowers.trans hs.toLowers, h.kept.trans hext, hwell,
    (h.grounded.wrap h.wellScoped hns₁ hf₁ hbody hwrap).1, fun {x} hx => ?_, fun {x} => ?_,
    fun v hv => ?_⟩
  · rw [hor]
    rcases hs.size hx with hlt | rfl
    · exact (h.fresh hlt).imp_right .inl
    · exact .inr (.inr rfl)
  · rw [hs.wrapper_iff, h.wrapper_iff, hor, eq_comm (a := x)]
  · rcases Array.mem_push.1 hv with hv | rfl
    · exact (h.lodged v hv).rescopes h hns hext hs
    · exact hlodged

end Wrap

theorem Wrapped.wrapAll {wraps' : Array Wrap} {idents : List NodeId} (h : Wrapped b b₁ wraps)
    (hns : b.nodes.WellFormed) (hwraps : Bound.wrapAll b₁ wraps idents = .ok (b', wraps')) :
    Wrapped b b' wraps' := by
  induction idents generalizing b₁ wraps with
  | nil =>
    cases hwraps
    exact h
  | cons ident idents ih =>
    unfold Bound.wrapAll at hwraps
    split at hwraps
    · exact ih h hwraps
    · obtain ⟨⟨b₂, wraps₂⟩, hstep, hwraps⟩ := bind_eq_ok.1 hwraps
      refine ih ?_ hwraps
      obtain ⟨-, -, ⟨rfl, rfl, -⟩ | ⟨body, w, hbody, -, hnew, hwrap, rfl⟩⟩ := wrapHazard_cases hstep
      · exact h
      · obtain ⟨form, hf, hform⟩ := Option.bind_eq_some_iff.1 hbody
        exact h.wrap hns (h.nodes ▸ hf) hform hnew hwrap

/-! ## Scopes of nodes -/

/-- What lies in the node of a scope is in scopes under it. -/
theorem Follows.under {bodies : List NodeId} (h : b.Follows bodies)
    (hx : b.scopes.node? (some x) = some n) (hi : b.nodes.Inside n i)
    (hy : b.nodeScope? i = some y) : b.scopes.Under x y := by
  induction hi generalizing y with
  | refl =>
    obtain rfl := Option.some.inj ((h.placed hx).symm.trans hy)
    exact .refl
  | up hp _ ih =>
    obtain ⟨z, hz, rfl | ⟨-, hup⟩⟩ := h.regions.step hy hp
    · exact ih hz
    · exact .up hup (ih hz)

namespace Wrapped

variable (h : Wrapped b b' wraps)
include h

/-- Only the scopes of wraps are new. -/
theorem node?_of_unwrapped (hx : b'.scopes.node? (some x) = some n)
    (hflag : (b'.scopes.flags (some x)).loopWrapper = false) :
    b.scopes.node? (some x) = some n := by
  rcases h.fresh (lt_size_of_node? hx) with hlt | hw
  · rw [← h.kept.scopes.node? hlt, hx]
  · cases hflag.symm.trans (h.wrapper_iff.2 hw)

theorem under_of_inside (hb : b.Follows []) (hx : b'.scopes.node? (some x) = some n)
    (hflag : (b'.scopes.flags (some x)).loopWrapper = false) (hi : b.nodes.Inside n i)
    (hy : b'.nodeScope? i = some y) : b'.scopes.Under x y := by
  cases hz : b.nodeScope? i with
  | none => cases (h.kept.nodeScope_eq_none hz).symm.trans hy
  | some z =>
    obtain ⟨y', hy', hzy⟩ := h.toLowers.node hz
    obtain rfl := Option.some.inj (hy'.symm.trans hy)
    exact (h.under (hb.under (h.node?_of_unwrapped hx hflag) hi hz)).trans hzy

/-- A function has the scope that it had. -/
theorem exists_scope (hb : b.Follows []) (ht : b.Total) {f : NodeId}
    (hf : b.nodes.form? f = some form) (hfun : form.isFunction = true) :
    ∃ x, b.nodeScope? f = some x ∧ b'.scopes.node? (some x) = some f ∧
      (b'.scopes.flags (some x)).loopWrapper = false := by
  obtain ⟨x, hx⟩ := ht f (lt_size_of_form? hf)
  have ho : opensScope b.unit f form = true := by
    cases form <;> first | rfl | cases hfun
  have hnode := hb.regions.own hx hf ho
  have hlt := lt_size_of_node? hnode
  have hnode' := (h.kept.scopes.node? hlt).trans hnode
  refine ⟨x, hx, hnode', Bool.eq_false_iff.2 fun hwrapper => ?_⟩
  obtain ⟨w, hw, rfl⟩ := h.wrapper_iff.1 hwrapper
  have hlodged := h.lodged w hw
  rcases hlodged.fresh with hle | ⟨statements, hblock⟩
  · exact Nat.not_le_of_lt hlt hle
  · rw [← Option.some.inj (hnode'.symm.trans hlodged.node), hf, Option.some.injEq] at hblock
    rw [hblock] at hfun
    cases hfun

/-- Between the scope of a class and that of a wrap is that of a function with a block, unless the
body is a class. -/
theorem exists_blockFunction (hb : b.Follows []) (ht : b.Total) (hns : b.nodes.WellFormed)
    (hw : w ∈ wraps) (hbody : ¬b.nodes.IsClass w.body) {c : ScopeId} (hc : b'.ClassScope c)
    (hu : b'.scopes.Under c w.scope) :
    ∃ y, b'.BlockFunction y ∧ b'.scopes.Under c y ∧ b'.scopes.Under y w.scope := by
  obtain ⟨hflag, n, hn, hclass⟩ := hc
  rw [h.nodes] at hclass
  have hlodged := h.lodged w hw
  obtain ⟨loopForm, hloop, hloopBody⟩ := hlodged.loop
  obtain ⟨m, hm, hin⟩ := h.grounded.toNests.inside_of_under hu hn
  obtain rfl := Option.some.inj (hlodged.node.symm.trans hm)
  rw [h.nodes] at hin
  have hp := parent?_body hns hloop hloopBody
  have hinLoop : b.nodes.Inside n w.loop := hin.parent (fun e => hbody (e ▸ hclass)) hp
  obtain ⟨place, name, heritage, members, hform⟩ := hclass
  have hne : n ≠ w.loop := by
    rintro rfl
    rw [hloop, Option.some.injEq] at hform
    rw [hform] at hloopBody
    cases hloopBody
  -- The loop is a statement, so it lies in a function with a block that lies in the class.
  obtain ⟨depth, hd⟩ := hns.shallow
  have hstatement : loopForm.isStatement = true := by
    cases loopForm <;> first | rfl | cases hloopBody
  obtain ⟨f, k, form, hnf, hf, hblock, hfk, hk⟩ :=
    hd.exists_function hns hform rfl hinLoop hne (hd.statement hloop hstatement)
  have hfun : form.isFunction = true := by
    cases form <;> first | rfl | cases hblock
  obtain ⟨y, hy, hynode, hyflag⟩ := h.exists_scope hb ht hf hfun
  obtain ⟨node, hnode⟩ := exists_get?_of_parent?_eq_some hp
  obtain ⟨z, hz⟩ := ht w.body (Array.getElem?_eq_some_iff.1 hnode).1
  have hfbody : b.nodes.Inside f w.body := (hfk.trans hk).trans (.of_parent hp)
  refine ⟨y, ⟨hyflag, f, form, k, hynode, h.nodes ▸ hf, hblock⟩, ?_, ?_⟩
  · exact h.under (hb.under (h.node?_of_unwrapped hn hflag) hnf hy)
  · have hzw := hlodged.under hz
    exact (h.under (hb.under (h.node?_of_unwrapped hynode hyflag) hfbody hz)).trans hzw

end Wrapped

namespace Wrapped

/-! ## The search -/

section Search

open Lowering

variable {target : ScopeId} (h : Wrapped b b' wraps) (hb : b.Follows [])
  (hns : b.nodes.WellFormed) (hroot : b.nodes.Rooted) (hw : w ∈ wraps)
include h hw

/-- The scope of a wrap lies right below that of a class, if this is the body. -/
theorem aliasScope?_of_isClass (hclass : b.nodes.IsClass w.body) :
    aliasScope? b' w.scope = none := by
  have hlodged := h.lodged w hw
  obtain ⟨c, hp, hnode, hflag⟩ := hlodged.ofClass hclass
  obtain ⟨place, name, heritage, members, hform⟩ := hclass
  obtain ⟨form, kind, hf, hk, ho⟩ := h.grounded.made hnode hflag
  rw [h.nodes, hform, Option.some.injEq] at hf
  subst hf
  obtain ⟨v, hv⟩ := get?_of_lt (lt_size_of_node? hlodged.node)
  obtain ⟨s, hs⟩ := get?_of_lt (lt_size_of_node? hnode)
  have hwrapper : v.flags.loopWrapper = true := by
    have hself := h.wrapper_iff.2 ⟨w, hw, rfl⟩
    rwa [flags, hv] at hself
  have hflags : b'.scopes.flags (some c) = s.flags := by rw [flags, hs]; rfl
  rw [hflags] at hflag ho
  rw [kind?, hs, Option.map_some, Option.some.injEq] at hk
  have harrow : s.flags.arrow = s.flags.origin.arrow := rfl
  have hclass : s.flags.class_ = s.flags.origin.class_ := rfl
  generalize s.flags.origin = origin at ho harrow hclass
  cases ho
  rw [aliasScope?, walk, show maxWalk = 9998 + 1 + 1 from rfl, walkUp_succ, hp, walkUp_succ]
  simp [aliasScopeAmong, hv, hs, hwrapper, Scope.isHoist, hk, hflag, harrow, hclass]

include hb hns hroot

/-- There is no scope for the variable of a wrap exactly if the body is a class. -/
theorem aliasScope?_eq_none_iff (ht : b.Total) :
    aliasScope? b' w.scope = none ↔ b.nodes.IsClass w.body := by
  refine ⟨fun hnone => ?_, h.aliasScope?_of_isClass hw⟩
  by_contra hbody
  have hseeks := h.grounded.seeks_aliasScope? (h.nodes ▸ hns) (h.nodes ▸ hroot) (h.lodged w hw).node
  obtain ⟨-, c, hc, hu, hno⟩ := hseeks.classScope h.grounded.tree hnone
  obtain ⟨y, hy, hcy, hyw⟩ := h.exists_blockFunction hb ht hns hw hbody hc hu
  exact hno y hy hcy hyw

/-- The scope for the variable of a wrap is that of a host around the body, above all scopes of what
lies in the body. -/
theorem hosts_under (hall : ∀ s m, b.nodes.get? s = some m → b.nodes.Inside Nodes.root s)
    (htarget : aliasScope? b' w.scope = some target) :
    b'.Hosts target w.body ∧ ∀ i y, b.nodes.Inside w.body i → b'.nodeScope? i = some y →
      b'.scopes.Under target y := by
  have hlodged := h.lodged w hw
  obtain ⟨form, hf, hbody⟩ := hlodged.loop
  obtain ⟨m, hm⟩ := exists_get?_of_parent?_eq_some (parent?_body hns hf hbody)
  have hroot' : b'.nodes.Rooted := h.nodes ▸ hroot
  have hprogram : b'.Hosts programScope w.body :=
    h.grounded.hosts_program hroot' (h.nodes ▸ hall) (h.nodes ▸ hm)
  have hhosts := h.grounded.hosts_of_aliasScope? (h.nodes ▸ hns) hroot' hprogram hlodged.node .refl
    htarget
  refine ⟨hhosts, fun i y hi hy => ?_⟩
  have hflag := h.grounded.unwrapped_of_aliasScope? (h.nodes ▸ hns) hroot' hlodged.node htarget
  obtain ⟨f, hf, -, hin⟩ := hhosts
  rw [h.nodes] at hin
  exact h.under_of_inside hb hf hflag (hin.trans hi) hy

end Search

end Wrapped

theorem wrapped_of_wrapLoops {u : CompilationUnit} (hns : u.nodes.WellFormed)
    (hroot : u.nodes.Rooted) (hb : bind u = .ok b) (hwraps : b.wrapLoops = .ok (b', wraps)) :
    Wrapped b b' wraps := by
  obtain rfl := bind_unit hb
  have hlayout := bind_layout hns hroot hb
  refine (Wrapped.start (bind_grounded hns hroot hb) (bind_wellScoped hb).1 fun x => ?_).wrapAll
    hns hwraps
  exact hlayout.grown.unwrapped _

end Bound

namespace Lowering

variable {l : Lowering} {i : Nat} {w : Wrap}

/-- The search for the scope of the variables of wrap `w`. -/
structure Homed (l : Lowering) (i : Nat) (w : Wrap) : Prop where
  none_iff : aliasScope? l.bound w.scope = none ↔ l.nodes.IsClass w.body
  /-- The way up comes to a function with a block before it comes to a class. -/
  function : ¬l.nodes.IsClass w.body → ∀ c, l.bound.ClassScope c →
    l.bound.scopes.Under c w.scope →
      ∃ y, l.bound.BlockFunction y ∧ l.bound.scopes.Under c y ∧ l.bound.scopes.Under y w.scope
  host : ∀ {target : ScopeId}, aliasScope? l.bound w.scope = some target →
    l.bound.Hosts target w.body
  /-- What gets the value from the variable is in scopes under that of the variable. -/
  above : ∀ {target : ScopeId}, aliasScope? l.bound w.scope = some target →
    ∀ a, ∀ s ∈ l.sitesOf i (Alias.siteKind a),
      ∃ x, l.bound.nodeScope? s = some x ∧ l.bound.scopes.Under target x

/-- A keyword to be replaced stands in a wrapped body that is a class. -/
def Homeless (l : Lowering) (i : Nat) (a : Alias) (s : NodeId) : Prop :=
  ∃ w, l.wraps[i]? = some w ∧ l.nodes.IsClass w.body ∧ s ∈ l.sitesOf i a.siteKind

section Wrapped

variable {b b' : Bound} {wraps : Array Wrap} (h : Bound.Wrapped b b' wraps) (hb : b.Follows [])
  (hns : b.nodes.WellFormed) (hroot : b.nodes.Rooted) (ht : b.Total)
include h hb hns hroot ht

theorem homed_of_wrapped (hall : ∀ s m, b.nodes.get? s = some m → b.nodes.Inside Nodes.root s)
    (hi : wraps[i]? = some w) : (ofWraps b' wraps).Homed i w where
  none_iff := by
    have hiff := h.aliasScope?_eq_none_iff hb hns hroot (Array.mem_of_getElem? hi) ht
    rwa [← h.nodes] at hiff
  function hbody c hc hu := by
    have hbody' : ¬b.nodes.IsClass w.body := h.nodes ▸ hbody
    exact h.exists_blockFunction hb ht hns (Array.mem_of_getElem? hi) hbody' hc hu
  host htarget := (h.hosts_under hb hns hroot (Array.mem_of_getElem? hi) hall htarget).1
  above {target} htarget a s hs := by
    obtain ⟨w', hw', hmem⟩ := mem_sitesOf hs
    obtain rfl := Option.some.inj (hi.symm.trans hw')
    have hns' : b'.nodes.WellFormed := h.nodes ▸ hns
    obtain ⟨hin, -, -, -, form, hf, -⟩ := Bound.mem_sitesWithin hns' hmem
    obtain ⟨x, hx⟩ := h.kept.total ht s (lt_size_of_form? hf)
    have hunder := (h.hosts_under hb hns hroot (Array.mem_of_getElem? hi) hall htarget).2
    exact ⟨x, hx, hunder s x (h.nodes ▸ hin) hx⟩

/-- A body is stuck exactly at the keywords in a wrapped body that is a class. -/
theorem stuckAt_iff_homeless {e : Failure} : (ofWraps b' wraps).StuckAt i e ↔
    ∃ a s, (ofWraps b' wraps).Homeless i a s ∧
      e = b'.unit.defectAt .loopClosureNotTransformable s a.keyword := by
  have hnone {w : Wrap} (hw : wraps[i]? = some w) :
      aliasScope? b' w.scope = none ↔ b'.nodes.IsClass w.body := by
    rw [h.nodes]
    exact h.aliasScope?_eq_none_iff hb hns hroot (Array.mem_of_getElem? hw) ht
  constructor
  · rintro ⟨w, a, s, hw, hn, hs, rfl⟩
    exact ⟨a, s, ⟨w, hw, (hnone hw).1 hn, hs⟩, rfl⟩
  · rintro ⟨a, s, ⟨w, hw, hclass, hs⟩, rfl⟩
    exact ⟨w, a, s, hw, (hnone hw).2 hclass, hs, rfl⟩

end Wrapped

end Lowering

open Lowering

section Sources

variable {file : String} {source : List Char} {options : Options} {t : Tree} {b b' : Bound}
  {wraps : Array Wrap}

/-- **Homes.** When the loops are wrapped, the search for the scope of the variables of a wrap finds
that of a function with a block around the body or of the program, above all that the values are put
in for, unless the body is a class. Bodies are adapted, which never fails for want of names if the
source has fewer identifiers than probes, unless a keyword stands in a body that is a class; then
the lowering fails at such a keyword. -/
theorem wraps_homed (hparse : Grammar.parse source = .ok t)
    (hb : bind { file, source, nodes := .ofTree t, options } = .ok b)
    (hwraps : b.wrapLoops = .ok (b', wraps)) :
    (∀ i w, wraps[i]? = some w → (ofWraps b' wraps).Homed i w) ∧
      (b.identifiers.length < maxProbes →
        ((∀ i a s, ¬(ofWraps b' wraps).Homeless i a s) ∧
            ∃ l, (ofWraps b' wraps).adaptBodies = .ok l) ∨
          ∃ i a s, (ofWraps b' wraps).Homeless i a s ∧ (ofWraps b' wraps).adaptBodies =
            .error (b'.unit.defectAt .loopClosureNotTransformable s a.keyword)) := by
  obtain ⟨hnodes, hns⟩ := nodes_of_bind hparse hb
  have hroot : b.nodes.Rooted := hnodes ▸ Grammar.parse_rooted hparse
  have hns' : (Nodes.ofTree t).WellFormed := hnodes ▸ hns
  have hroot' : (Nodes.ofTree t).Rooted := Grammar.parse_rooted hparse
  have hwell := (bind_wellScoped hb).1
  have htotal := bind_total hb
  have hfollows := (bind_faithful hns' hroot' hb).follows
  have hwrapped := Bound.wrapped_of_wrapLoops hns' hroot' hb hwraps
  have hall (s : NodeId) (m : Node) (hs : b.nodes.get? s = some m) :
      b.nodes.Inside Nodes.root s := by
    rw [hnodes] at hs ⊢
    obtain ⟨p, u, hu, -⟩ := located_of_get? hs
    exact inside_of_located (.here _ _ _) hu
  have hstuck {i : Nat} {e : Failure} : (ofWraps b' wraps).StuckAt i e ↔ _ :=
    stuckAt_iff_homeless hwrapped hfollows hns hroot htotal
  refine ⟨fun i w hi => homed_of_wrapped hwrapped hfollows hns hroot htotal hall hi, fun hids => ?_⟩
  have hready := ready_ofWraps hwell hids (fun hd hn => bind_avoids hb hd hn) hwraps
  rcases hready.adaptBodies_cases (ofWraps b' wraps).inSourceOrder with
    ⟨hgood, hok⟩ | ⟨-, e, he, i, hi⟩
  · refine .inl ⟨fun i a s hs => ?_, hok⟩
    obtain ⟨w, hw, -⟩ := id hs
    exact hgood i (mem_inSourceOrder.2 (Array.getElem?_eq_some_iff.1 hw).1) _
      (hstuck.2 ⟨a, s, hs, rfl⟩)
  · obtain ⟨a, s, hs, rfl⟩ := hstuck.1 hi
    exact .inr ⟨i, a, s, hs, he⟩

/-- A loop in an arrow with a block in a class, with a keyword of the class in its body. -/
def arrowField : List Char :=
  "class A \x7b f = () => \x7b for (const x of xs) \x7b g(() => x + this.y); \x7d \x7d; \x7d".toList

theorem wraps_homed_arrowField : ∃ t b b' wraps w target s x,
    Grammar.parse arrowField = .ok t ∧
      bind { file := "", source := arrowField, nodes := .ofTree t, options := {} } = .ok b ∧
      b.wrapLoops = .ok (b', wraps) ∧ wraps[0]? = some w ∧ b.identifiers.length < maxProbes ∧
      aliasScope? b' w.scope = some target ∧ b'.Hosts target w.body ∧
      s ∈ (ofWraps b' wraps).sitesOf 0 .this ∧ b'.nodeScope? s = some x ∧
      b'.scopes.Under target x ∧ ∃ l, (ofWraps b' wraps).adaptBodies = .ok l := by
  have hrun : okAnd (Grammar.parse arrowField) (fun t =>
      okAnd (bind { file := "", source := arrowField, nodes := .ofTree t, options := {} }) fun b =>
        okAnd b.wrapLoops fun r => okAnd (ofWraps r.1 r.2).adaptBodies fun _ => decide (
          b.identifiers.length < maxProbes ∧
          (r.2[0]?).map (fun w => aliasScope? r.1 w.scope) = some (some 3) ∧
          (ofWraps r.1 r.2).sitesOf 0 .this = [20])) = true := by
    decide +kernel
  obtain ⟨t, hparse, hrun⟩ := okAnd_iff.1 hrun
  obtain ⟨b, hb, hrun⟩ := okAnd_iff.1 hrun
  obtain ⟨⟨b', wraps⟩, hwraps, hrun⟩ := okAnd_iff.1 hrun
  obtain ⟨l, hl, hrun⟩ := okAnd_iff.1 hrun
  obtain ⟨hids, htarget, hsites⟩ := of_decide_eq_true hrun
  obtain ⟨w, hw, ht⟩ := Option.map_eq_some_iff.1 htarget
  obtain ⟨hhomed, hadapted⟩ := wraps_homed hparse hb hwraps
  have hs : 20 ∈ (ofWraps b' wraps).sitesOf 0 .this := by simp [hsites]
  obtain ⟨x, hx, hunder⟩ := (hhomed 0 w hw).above ht .this 20 hs
  refine ⟨t, b, b', wraps, w, 3, 20, x, hparse, hb, hwraps, hw, hids, ht, (hhomed 0 w hw).host ht,
    hs, hx, hunder, ?_⟩
  rcases hadapted hids with ⟨-, hok⟩ | ⟨_, _, _, -, herror⟩
  · exact hok
  · cases hl.symm.trans herror

/-- A class as the body of a loop, with a keyword in its heritage. -/
def classAsBody : List Char :=
  "for (const x of xs) class A extends f(this) \x7b m() \x7b return x; \x7d \x7d".toList

theorem aliasScope?_classAsBody : ∃ t b b' wraps w, Grammar.parse classAsBody = .ok t ∧
    bind { file := "", source := classAsBody, nodes := .ofTree t, options := {} } = .ok b ∧
    b.wrapLoops = .ok (b', wraps) ∧ wraps[0]? = some w ∧
    (ofWraps b' wraps).sitesOf 0 .this = [10] ∧ aliasScope? b' w.scope = none ∧
    lower b = .error (b.unit.defectAt .loopClosureNotTransformable 10 "this") := by
  have hrun : okAnd (Grammar.parse classAsBody) (fun t =>
      okAnd (bind { file := "", source := classAsBody, nodes := .ofTree t, options := {} }) fun b =>
        okAnd b.wrapLoops fun r => decide (
          (r.2[0]?).map (fun w => aliasScope? r.1 w.scope) = some none ∧
          (ofWraps r.1 r.2).sitesOf 0 .this = [10] ∧
          lower b = .error (b.unit.defectAt .loopClosureNotTransformable 10 "this"))) = true := by
    decide +kernel
  obtain ⟨t, hparse, hrun⟩ := okAnd_iff.1 hrun
  obtain ⟨b, hb, hrun⟩ := okAnd_iff.1 hrun
  obtain ⟨⟨b', wraps⟩, hwraps, hrun⟩ := okAnd_iff.1 hrun
  obtain ⟨hnone, hsites, hlower⟩ := of_decide_eq_true hrun
  obtain ⟨w, hw, hnone⟩ := Option.map_eq_some_iff.1 hnone
  exact ⟨t, b, b', wraps, w, hparse, hb, hwraps, hw, hsites, hnone, hlower⟩

end Sources

end LoopClosure
