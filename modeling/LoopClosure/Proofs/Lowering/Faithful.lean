import LoopClosure.Proofs.Lowering.Follows
import LoopClosure.Proofs.Lowering.Renewal
import LoopClosure.Proofs.Lowering.Retargeted

/-!
# References in wrapped bodies

`Bound.Faithful b bodies`: the scopes of a unit with wrapped bodies follow its tree, and the way up
from each reference leads to the scope that it resolves to. A wrap keeps this if its body opens no
scope or is a block (`Faithful.wrap`).

- `Bound.Handed b b' scope name`: `b'` has a parameter more. What finds it are the references in the
  body to what the head declares (`Handed.leads_of_inside`, `Handed.leads_or_inside`), and these are
  the ones that the wrap lets resolve to it.
- `Bound.Handing`: a wrap that has declared some of its parameters.
- `Bound.Hands b₀ b wraps`: what is known while the loops of `b₀` are wrapped; each reference
  resolves as in `b₀` or was moved from a loop to its wrap.
-/

namespace LoopClosure

open Syntax Syntax.Nodes Scopes Binding

theorem Scopes.Marked.onlyUses {s t : Scopes} {x : ScopeId} {name : String} (hm : s.Marked x name)
    (h : OnlyUses s t) : t.Marked x name := by
  unfold Marked
  rw [h.kind?, flags, h.view (·.flags) fun _ => rfl, hasPropagated,
    h.view (fun c => decide (name ∈ c.propagates)) fun _ => rfl]
  exact hm

namespace Bound

variable {b b' : Bound} {bodies : List NodeId} {body loop : NodeId} {form : Form NodeId}
  {outer : ScopeId}

/-! ## References -/

section Traced

variable {name : String} {x : ScopeId}

/-- References lead on where a body gets a scope of its own. -/
theorem Traced.splitBody (h : b.Traced) (hw : b.WellScoped) (hlt : outer < b.scopes.size) :
    (b.splitBody body outer).1.Traced := by
  intro ident e he
  obtain ⟨name, x, hname, hx, huse, hl⟩ := h ident e he
  have hnew : (b.splitBody body outer).1.scopes.Marked b.scopes.size name := fun _ =>
    .inr (by rw [flags_splitBody_new hlt])
  have hlead (y : ScopeId) (hy : b.scopes.Leads name e.scope y) :
      (b.splitBody body outer).1.scopes.Leads name e.scope y :=
    hy.inserted (split_splitBody hw.wellFormed hlt body).inserted
      (fun id => declaration?_splitBody hlt id name) (declaration?_splitBody_new hlt name)
      (fun id hid => marked_splitBody (Nat.ne_of_lt hid)) hnew
  have huse' : ident ∈ (b.splitBody body outer).1.scopes.usesOf (some e.scope) name := by
    rwa [usesOf_splitBody hlt]
  rw [nodeScope?_splitBody]
  split
  · next hin =>
    obtain rfl := Option.some.inj (hx.symm.trans hin.2)
    refine ⟨name, _, hname, rfl, huse', .up ?_ hnew ?_ (hlead x hl)⟩
    · rw [declaration?_splitBody_new hlt, Option.isSome_none]
    · exact (split_splitBody hw.wellFormed hlt body).inserted.parent_new
  · exact ⟨name, x, hname, hx, huse', hlead x hl⟩

/-- A change of kinds and flags at the scope of a body. -/
theorem Traced.openBlock (h : b.Traced) (hlt : outer < b.scopes.size) : (b.withScopes
    ((b.scopes.setKind outer .hoist).addFlags outer { loopWrapper := true })).Traced := by
  intro ident e he
  obtain ⟨name, x, hname, hx, huse, hl⟩ := h ident e he
  refine ⟨name, x, hname, hx, ?_, hl.congr (fun id => (openBlock_sameShape b outer).parent? _)
    (fun id => ?_) fun id hm => ?_⟩
  · rwa [withScopes, usesOf_addFlags, usesOf_setKind]
  · rw [withScopes, declaration?_addFlags, setKind,
      declaration?_update (f := fun c => { c with kind := .hoist }) fun _ => rfl]
  · by_cases hid : id = outer
    · subst hid
      obtain ⟨c, hc⟩ := get?_of_lt hlt
      refine fun _ => .inr ?_
      simp [withScopes, flags, addFlags, setKind, get?_update_self, hc, Flags.union]
    · have hne : some outer ≠ some id := fun e => hid (Option.some.inj e).symm
      rw [marked_iff] at hm ⊢
      intro c hc
      rw [withScopes, addFlags, get?_update_of_ne hne, setKind, get?_update_of_ne hne] at hc
      exact hm c hc

end Traced

/-! ## Parameters -/

section Params

variable {scope head : ScopeId} {name : String}

/-- `b'` is `b` with a parameter `name` in a scope, apart from what references resolve to. -/
structure Handed (b b' : Bound) (scope : ScopeId) (name : String) : Prop where
  unit : b'.unit = b.unit
  nodeScopes : b'.nodeScopes = b.nodeScopes
  shape : b.scopes.SameShape b'.scopes
  flags : ∀ id, b'.scopes.flags id = b.scopes.flags id
  isSome : ∀ (id : ScopeId) (other : String),
    (b'.scopes.declaration? (some id) other).isSome =
      (decide (id = scope ∧ other = name) || (b.scopes.declaration? (some id) other).isSome)
  marked : ∀ {x : ScopeId} {other : String}, b.scopes.Marked x other → b'.scopes.Marked x other

/-- A name of the head as a parameter, and the references to it. -/
def hand (b : Bound) (head scope : ScopeId) (body : NodeId) (name : String) : Bound :=
  (b.withScopes (b.scopes.update scope
    (·.append name { kind := .param, node := none, fromPos := none }))).retargetHeader
      (some head) scope body name

theorem resolution?_hand (b : Bound) (head scope : ScopeId) (body : NodeId) (name : String)
    (ident : NodeId) : (b.hand head scope body name).resolution? ident =
      if ident ∈ b.scopes.usesOf (some head) name ∧ b.nodes.contains body ident then
        (b.resolution? ident).map fun r => { r with scope } else b.resolution? ident := by
  unfold hand
  rw [resolution?_retargetHeader, withScopes, usesOf_update (f := (·.append name _)) fun _ => rfl]
  rfl

/-- What is listed somewhere is listed there still, or at the parameter. -/
theorem mem_usesOf_hand (hlt : scope < b.scopes.size) (hhead : head < b.scopes.size)
    (body : NodeId) (name : String) {id : Option ScopeId} {other : String} {i : NodeId}
    (hi : i ∈ b.scopes.usesOf id other) :
    i ∈ (b.hand head scope body name).scopes.usesOf
      (if (id = some head ∧ other = name) ∧ b.nodes.contains body i then some scope else id)
        other := by
  refine mem_usesOf_retargetHeader ?_ ?_ ?_
  · rwa [withScopes, size_update]
  · rwa [withScopes, size_update]
  · rwa [withScopes, usesOf_update (f := (·.append name _)) fun _ => rfl]

theorem declaration?_hand (hlt : scope < b.scopes.size)
    (hnew : b.scopes.declaration? (some scope) name = none) (head : ScopeId) (body : NodeId) :
    (b.hand head scope body name).scopes.declaration? (some scope) name =
      some { kind := .param, node := none, fromPos := none } := by
  rw [hand, (retargetHeader_onlyUses _ _ _ _ _).2.2.declaration?]
  exact (declaration?_append hlt).trans (by rw [if_pos ⟨rfl, rfl⟩, hnew, Option.none_or])

theorem handed_hand (hlt : scope < b.scopes.size) (head : ScopeId) (body : NodeId)
    (name : String) : b.Handed (b.hand head scope body name) scope name := by
  let f : Scope → Scope := (·.append name { kind := .param, node := none, fromPos := none })
  let b₁ := b.withScopes (b.scopes.update scope f)
  obtain ⟨hu, hn, huses⟩ := retargetHeader_onlyUses b₁ (some head) scope body name
  have hshape : b.scopes.SameShape b₁.scopes :=
    SameShape.update b.scopes (some scope) ⟨fun _ => rfl, fun _ => rfl, fun _ => rfl⟩
  refine ⟨hu, hn, hshape.trans huses.sameShape, fun id => ?_, fun id other => ?_, fun hm => ?_⟩
  · rw [hand, Scopes.flags, huses.view (·.flags) fun _ => rfl]
    exact congrArg (Option.getD · {}) (view_update (f := f) (·.flags) (fun _ => rfl) _ id)
  · rw [hand, huses.declaration?]
    exact isSome_declaration?_append hlt
  · refine Marked.onlyUses (s := b₁.scopes) ?_ huses
    exact hm.update (f := f) _ (fun _ => rfl) (fun c => List.Subset.refl _) fun _ hc => hc

theorem Follows.handed (h : b.Follows bodies) (hh : b.Handed b' scope name) : b'.Follows bodies :=
  h.of_sameShape hh.unit hh.nodeScopes hh.shape hh.flags

/-- Other names are found as before. -/
theorem Handed.leads_of_ne (hh : b.Handed b' scope name) {other : String} {target x : ScopeId}
    (hne : other ≠ name) (hl : b.scopes.Leads other target x) : b'.scopes.Leads other target x :=
  hl.congr (fun _ => hh.shape.parent? _)
    (fun id => by rw [hh.isSome, decide_eq_false fun e => hne e.2, Bool.false_or]) fun _ => hh.marked

/-- The name is found as before, or in the scope that has it as a parameter now. -/
theorem Handed.leads_or (hh : b.Handed b' scope name) {target x : ScopeId}
    (hl : b.scopes.Leads name target x) : b'.scopes.Leads name target x ∨
      b'.scopes.Leads name scope x ∧ b.scopes.Leads name target scope :=
  hl.declared_or (fun _ => hh.shape.parent? _)
    (fun id => by simpa only [and_true] using hh.isSome id name) fun _ => hh.marked

/-- The scope of a loop body is right below that of the loop. -/
theorem Follows.parent?_body (h : b.Follows bodies) (hp : b.nodes.parent? body = some loop)
    (hne : loop ≠ body) (hscope : b.nodeScope? body = some scope)
    (hnode : b.scopes.node? (some scope) = some body)
    (hhead : b.scopes.node? (some head) = some loop) :
    b.scopes.parent? (some scope) = some head := by
  obtain ⟨y, hy, hstep⟩ := h.regions.step hscope hp
  obtain rfl := Option.some.inj (hy.symm.trans (h.placed hhead))
  refine (hstep.resolve_left ?_).2
  rintro rfl
  exact hne (Option.some.inj (hhead.symm.trans hnode))

section Hand

variable (h : b.Follows bodies) (hns : b.nodes.WellFormed)
  (hf : b.nodes.form? loop = some form) (hbody : form.loopBody? = some body)
  (hscope : b.nodeScope? body = some scope) (hnode : b.scopes.node? (some scope) = some body)
  (hhead : b.scopes.node? (some head) = some loop)
include h hns hf hbody hscope hnode hhead

/-- A reference in the body to what the head declares finds the parameter. -/
theorem Handed.leads_of_inside (hh : b.Handed b' scope name) {ident : NodeId} {x : ScopeId}
    (hin : b.nodes.Inside body ident) (hx : b.nodeScope? ident = some x)
    (hl : b.scopes.Leads name head x) : b'.scopes.Leads name scope x := by
  have hloop := hns.parent_lt (parent?_of_form? hns hf (Form.mem_children_of_loopBody? hbody))
  rcases hh.leads_or hl with hl' | ⟨hl', -⟩
  · -- The way to the head leads through the scope of the body.
    have hregions := h.regions.sameShape hh.shape
    have hnone := hregions.isSome_eq_false hscope ((hh.shape.node? _).trans hnode) hin hx hl'.finds
      ((hh.shape.node? _).trans hhead) fun hi => Nat.not_le_of_lt hloop (hi.le hns)
    rw [hh.isSome, decide_eq_true ⟨rfl, rfl⟩, Bool.true_or] at hnone
    cases hnone
  · exact hl'

/-- What finds the parameter is a reference in the body to what the head declares. -/
theorem Handed.leads_or_inside (hh : b.Handed b' scope name)
    (hnew : (b.scopes.declaration? (some scope) name).isSome = false)
    (hdecl : (b.scopes.declaration? (some head) name).isSome = true) {ident : NodeId}
    {target x : ScopeId} (hx : b.nodeScope? ident = some x)
    (hl : b.scopes.Leads name target x) :
    b'.scopes.Leads name target x ∨ target = head ∧ b.nodes.Inside body ident := by
  refine (hh.leads_or hl).imp_right ?_
  rintro ⟨hl', hup⟩
  have hregions := h.regions.sameShape hh.shape
  obtain ⟨o, ho, hin⟩ := hregions.finds_inside hl'.finds ((hh.shape.node? _).trans hnode)
  refine ⟨?_, hin.trans (hregions.around hx ho)⟩
  have hp := parent?_of_form? hns hf (Form.mem_children_of_loopBody? hbody)
  have hparent := h.parent?_body hp (Nat.ne_of_lt (hns.parent_lt hp)) hscope hnode hhead
  cases hup with
  | here hd =>
    rw [hnew] at hd
    cases hd
  | up _ _ hq hup =>
    rw [hparent, Option.some.injEq] at hq
    exact (hq ▸ hup).eq_of_isSome hdecl

omit hscope hnode in
/-- A reference to what the head declares is in the range of the body only if it lies in it. -/
theorem Follows.inside_of_contains {ident : NodeId} {x : ScopeId}
    (hx : b.nodeScope? ident = some x) (hl : b.scopes.Leads name head x)
    (hin : b.nodes.contains body ident = true) : b.nodes.Inside body ident := by
  obtain ⟨o, ho, hloop⟩ := h.regions.finds_inside hl.finds hhead
  have hp := parent?_of_form? hns hf (Form.mem_children_of_loopBody? hbody)
  exact (contains_body_iff_of_inside hns hf hbody (.of_parent hp)
    (hloop.trans (h.regions.around hx ho))).1 hin

/-- References lead on where a name of the head becomes a parameter. -/
theorem Traced.hand (htraced : b.Traced) (hw : b.WellScoped)
    (hnew : (b.scopes.declaration? (some scope) name).isSome = false)
    (hdecl : (b.scopes.declaration? (some head) name).isSome = true) :
    (b.hand head scope body name).Traced := by
  have hlt := hw.nodeScope_lt hscope
  have hlt_head := hw.nodeScope_lt (h.placed hhead)
  have hh := handed_hand hlt head body name
  intro ident e' he
  rw [show (b.hand head scope body name).nodes = b.nodes from congrArg CompilationUnit.nodes hh.unit,
    nodeScope?, hh.nodeScopes]
  rw [resolution?_hand] at he
  split at he
  · next hmoved =>
    obtain ⟨e, hold, rfl⟩ := Option.map_eq_some_iff.1 he
    obtain ⟨other, x, hname, hx, -, hl⟩ := htraced ident e hold
    obtain ⟨hname', r, hr, hscope'⟩ := hw.listed hmoved.1
    obtain rfl : other = name := Option.some.inj (hname.symm.trans hname')
    obtain rfl : e = r := Option.some.inj (hold.symm.trans hr)
    rw [hscope'] at hl
    have hin := h.inside_of_contains hns hf hbody hhead hx hl hmoved.2
    have huse := mem_usesOf_hand hlt hlt_head body other hmoved.1
    rw [if_pos ⟨⟨rfl, rfl⟩, hmoved.2⟩] at huse
    exact ⟨other, x, hname, hx, huse,
      hh.leads_of_inside h hns hf hbody hscope hnode hhead hin hx hl⟩
  · next hstays =>
    obtain ⟨other, x, hname, hx, huse, hl⟩ := htraced ident e' he
    have hkept : ¬((some e'.scope = some head ∧ other = name) ∧
        b.nodes.contains body ident = true) := by
      rintro ⟨⟨hscope', rfl⟩, hin⟩
      exact hstays ⟨hscope' ▸ huse, hin⟩
    have huse' := mem_usesOf_hand hlt hlt_head body name huse
    rw [if_neg hkept] at huse'
    refine ⟨other, x, hname, hx, huse', ?_⟩
    by_cases hother : other = name
    · subst hother
      refine (hh.leads_or_inside h hns hf hbody hscope hnode hhead hnew hdecl hx hl).resolve_right ?_
      rintro ⟨htarget, hin⟩
      obtain ⟨n, hn, -⟩ := Option.map_eq_some_iff.1 (identifier?_eq_some_iff.1 hname)
      exact hkept ⟨⟨congrArg some htarget, rfl⟩, contains_of_inside hns hin hn⟩
    · exact hh.leads_of_ne hother hl

end Hand

/-! ## All parameters of a wrap -/

/-- References that resolve to `head` may resolve to `scope` in `b'`; all others do as they did. -/
def Moves (head scope : ScopeId) (b b' : Bound) : Prop :=
  ∀ ident, b'.resolution? ident = b.resolution? ident ∨ ∃ r, b.resolution? ident = some r ∧
    r.scope = head ∧ b'.resolution? ident = some { r with scope }

theorem Moves.refl (b : Bound) : Moves head scope b b := fun _ => .inl rfl

theorem Moves.trans {b'' : Bound} (h : Moves head scope b b') (h' : Moves head scope b' b'') :
    Moves head scope b b'' := by
  intro ident
  rcases h ident with hr | ⟨r, hr, hscope, hmoved⟩ <;>
    rcases h' ident with hr' | ⟨r', hr', hscope', hmoved'⟩
  · exact .inl (hr'.trans hr)
  · exact .inr ⟨r', hr.symm.trans hr', hscope', hmoved'⟩
  · exact .inr ⟨r, hr, hscope, hr'.trans hmoved⟩
  · rw [hmoved, Option.some.injEq] at hr'
    subst hr'
    exact .inr ⟨r, hr, hscope, hmoved'⟩

theorem WellScoped.moves_hand (hw : b.WellScoped) (head scope : ScopeId) (body : NodeId)
    (name : String) : Moves head scope b (b.hand head scope body name) := by
  intro ident
  rw [resolution?_hand]
  split
  · next hmoved =>
    obtain ⟨-, r, hr, hscope⟩ := hw.listed hmoved.1
    exact .inr ⟨r, hr, hscope, by rw [hr, Option.map_some]⟩
  · exact .inl rfl

/-- A wrap is under way: the body has its scope, and `names` are declared by the head. -/
structure Handing (b : Bound) (bodies : List NodeId) (loop body : NodeId) (head scope : ScopeId)
    (names : List String) : Prop where
  wellScoped : b.WellScoped
  follows : b.Follows bodies
  traced : b.Traced
  kind : b.scopes.kind? (some scope) = some .hoist
  bodyScope : b.nodeScope? body = some scope
  bodyNode : b.scopes.node? (some scope) = some body
  headNode : b.scopes.node? (some head) = some loop
  declared : ∀ name ∈ names, (b.scopes.declaration? (some head) name).isSome = true

namespace Handing

variable {names params : List String} (hns : b.nodes.WellFormed)
  (hf : b.nodes.form? loop = some form) (hbody : form.loopBody? = some body)

theorem subset (h : b.Handing bodies loop body head scope names) {names' : List String}
    (hsub : names' ⊆ names) : b.Handing bodies loop body head scope names' :=
  { h with declared := fun name hn => h.declared name (hsub hn) }

include hns hf hbody

theorem hand (h : b.Handing bodies loop body head scope names) (hname : name ∈ names)
    (hnew : b.scopes.declaration? (some scope) name = none) :
    (b.hand head scope body name).Handing bodies loop body head scope names := by
  have hh := handed_hand (h.wellScoped.nodeScope_lt h.bodyScope) head body name
  obtain ⟨hw, hstep, hd⟩ := declareParam_spec (some head) body h.wellScoped h.kind hnew
  obtain ⟨hw', hretarget⟩ := retargetHeader_spec (some head) body hw hd
  refine ⟨hw', h.follows.handed hh, ?_, ?_, ?_, (hh.shape.node? _).trans h.bodyNode,
    (hh.shape.node? _).trans h.headNode, fun other hother => ?_⟩
  · exact h.traced.hand h.follows hns hf hbody h.bodyScope h.bodyNode h.headNode h.wellScoped
      (by rw [hnew, Option.isSome_none]) (h.declared name hname)
  · exact ((hstep.trans hretarget).kind? _).trans h.kind
  · rw [nodeScope?, hh.nodeScopes]
    exact h.bodyScope
  · rw [hh.isSome, h.declared other hother, Bool.or_true]

/-- Handing over the names one by one. -/
theorem addParams (h : b.Handing bodies loop body head scope names)
    (hadd : Bound.addParams (some head) scope body b names = .ok (b', params)) :
    b'.Follows bodies ∧ b'.Traced ∧ Moves head scope b b' ∧
      ∀ name ∈ params, ∃ d, b'.scopes.declaration? (some scope) name = some d ∧
        d.kind = .param := by
  induction names generalizing b b' params with
  | nil =>
    cases hadd
    exact ⟨h.follows, h.traced, .refl b, fun _ hn => by cases hn⟩
  | cons name names ih =>
    unfold Bound.addParams at hadd
    split at hadd
    · exact ih hns hf (h.subset (List.subset_cons_self _ _)) hadd
    · next hnot =>
      have hnew := not_declares_iff.1 hnot
      rw [declare_param h.kind hnew] at hadd
      obtain ⟨⟨b₁, params₁⟩, hrest, hadd⟩ := bind_eq_ok.1 hadd
      cases hadd
      have hhanded := h.hand hns hf hbody List.mem_cons_self hnew
      have hnodes : (b.hand head scope body name).nodes = b.nodes :=
        congrArg CompilationUnit.nodes
          (handed_hand (h.wellScoped.nodeScope_lt h.bodyScope) head body name).unit
      obtain ⟨hfollows, htraced, hmoves, hparams⟩ := ih (hnodes ▸ hns) (hnodes ▸ hf)
        (hhanded.subset (List.subset_cons_self _ _)) hrest
      refine ⟨hfollows, htraced, (h.wellScoped.moves_hand head scope body name).trans hmoves,
        fun other hother => ?_⟩
      rcases List.mem_cons.1 hother with rfl | hother
      · have hkept := (addParams_spec hhanded.wellScoped hhanded.kind hrest).2.toExtends.scopes
        refine ⟨_, hkept.kept (d := { kind := .param, node := none, fromPos := none }) ?_, rfl⟩
        exact declaration?_hand (h.wellScoped.nodeScope_lt h.bodyScope) hnew head body
      · exact hparams other hother

end Handing

end Params

/-! ## Wraps -/

/-- What the heads of loops over collections bind, the scopes of the loops declare. -/
def HeadsDeclared (b : Bound) : Prop :=
  ∀ (loop : NodeId) (name : String), name ∈ b.nodes.headerNames loop →
    opens b.unit loop = true ∧ ∃ head, b.scopes.node? (some head) = some loop ∧
      (b.scopes.declaration? (some head) name).isSome = true

/-- The scopes of a unit in which `bodies` are wrapped follow its tree, and references lead on. -/
structure Faithful (b : Bound) (bodies : List NodeId) : Prop where
  wellScoped : b.WellScoped
  follows : b.Follows bodies
  traced : b.Traced
  heads : b.HeadsDeclared

/-- References to the scope of a loop that opens one may resolve to the scope of a wrap. -/
def MovesTo (loop : NodeId) (scope : ScopeId) (b b' : Bound) : Prop :=
  ∀ ident, b'.resolution? ident = b.resolution? ident ∨ ∃ r, b.resolution? ident = some r ∧
    b.scopes.node? (some r.scope) = some loop ∧ opens b.unit loop = true ∧
      b'.resolution? ident = some { r with scope }

section Wrap

variable (hns : b.nodes.WellFormed) (hf : b.nodes.form? loop = some form)
  (hbody : form.loopBody? = some body)
include hns hf hbody

/-- The body that becomes a function opens the scope of the function. -/
theorem Faithful.openBody (h : b.Faithful bodies) {blockBody : Bool}
    (houter : b.nodeScope? body = some outer) (hnew : body ∉ bodies)
    (hblock : blockBody = true → ∃ statements, b.nodes.form? body = some (.block statements))
    (hsingle : blockBody = false → opens b.unit body = false) :
    (b.openBody body blockBody outer).1.Follows (bodies ++ [body]) ∧
      (b.openBody body blockBody outer).1.Traced ∧
      (b.openBody body blockBody outer).1.nodeScope? body =
        some (b.openBody body blockBody outer).2 ∧
      (b.openBody body blockBody outer).1.scopes.node?
        (some (b.openBody body blockBody outer).2) = some body := by
  have hlt := h.wellScoped.nodeScope_lt houter
  cases blockBody with
  | true =>
    obtain ⟨statements, hform⟩ := hblock rfl
    have hnode := h.follows.regions.own houter hform (opensScope_body hns hf hbody statements)
    exact ⟨h.follows.openBlock hnode, h.traced.openBlock hlt, houter,
      ((openBlock_sameShape b outer).node? _).trans hnode⟩
  | false =>
    exact ⟨h.follows.splitBody h.wellScoped hns hf hbody houter hnew (hsingle rfl),
      h.traced.splitBody h.wellScoped hlt, nodeScope?_split_new hns hf hbody houter .refl,
      node?_split_new hlt⟩

/-- The wrap of a loop whose body opens no scope of its own, unless it is a block. -/
theorem Faithful.wrap (h : b.Faithful bodies) (hnew : body ∉ bodies) {w : Wrap}
    (hwrap : b.wrap loop body = .ok (b', w))
    (hsingle : opens b.unit body = true → w.blockBody = true) :
    b'.Faithful (bodies ++ [body]) ∧ b'.nodeScope? body = some w.scope ∧
      b'.scopes.node? (some w.scope) = some body ∧
      (∀ name ∈ w.params, ∃ d, b'.scopes.declaration? (some w.scope) name = some d ∧
        d.kind = .param) ∧ MovesTo loop w.scope b b' := by
  obtain ⟨-, -, hw', hext', -⟩ := wrap_spec h.wellScoped hwrap
  have hheads : b'.HeadsDeclared := by
    intro other name hname
    rw [hext'.nodes] at hname
    obtain ⟨ho, head, hnode, hd⟩ := h.heads other name hname
    obtain ⟨d, hd⟩ := Option.isSome_iff_exists.1 hd
    rw [hext'.unit]
    refine ⟨ho, head, (hext'.scopes.node? (lt_size_of_declaration? hd)).trans hnode, ?_⟩
    rw [hext'.scopes.kept hd, Option.isSome_some]
  unfold Bound.wrap at hwrap
  split at hwrap
  · cases hwrap
  · next outer houter =>
    have hlt := h.wellScoped.nodeScope_lt houter
    dsimp only at hwrap
    generalize hblock : ((b.nodes.form? body).map (·.isBlock)).getD false = isBlock at hwrap
    obtain ⟨⟨b₂, params⟩, hparams, hwrap⟩ := bind_eq_ok.1 hwrap
    cases hwrap
    dsimp only at hsingle ⊢
    obtain ⟨hw, hext, hk, hres⟩ : (b.openBody body isBlock outer).1.WellScoped ∧ _ :=
      openBody_spec h.wellScoped isBlock hlt
    have hopened : isBlock = false → opens b.unit body = false := fun hb =>
      Bool.eq_false_iff.2 fun ho => Bool.false_ne_true (hb.symm.trans (hsingle ho))
    obtain ⟨hfollows, htraced, hscope, hnode⟩ := h.openBody hns hf hbody houter hnew
      (fun hb => exists_block_of_isBlock (hblock.trans hb)) hopened
    have hsame (ident : NodeId) :
        (b.openBody body isBlock outer).1.resolution? ident = b.resolution? ident := by
      rw [resolution?, hres]
      rfl
    rw [hext.nodes] at hparams
    rcases hnames : b.nodes.headerNames loop with _ | ⟨first, rest⟩
    · rw [hnames] at hparams
      cases hparams
      exact ⟨⟨hw', hfollows, htraced, hheads⟩, hscope, hnode, List.forall_mem_nil _,
        fun ident => .inl (hsame ident)⟩
    · obtain ⟨hopens, head, hhead, -⟩ := h.heads loop first (hnames ▸ List.mem_cons_self)
      rw [h.follows.placed hhead] at hparams
      have hhanding : (b.openBody body isBlock outer).1.Handing (bodies ++ [body]) loop body head
          (b.openBody body isBlock outer).2 (b.nodes.headerNames loop) := by
        refine ⟨hw, hfollows, htraced, hk, hscope, hnode, ?_, fun name hname => ?_⟩
        · exact (hext.scopes.node? (h.wellScoped.nodeScope_lt (h.follows.placed hhead))).trans hhead
        · obtain ⟨-, head', hhead', hd⟩ := h.heads loop name hname
          obtain rfl : head = head' := Option.some.inj
            ((h.follows.placed hhead).symm.trans (h.follows.placed hhead'))
          obtain ⟨d, hd⟩ := Option.isSome_iff_exists.1 hd
          rw [hext.scopes.kept hd, Option.isSome_some]
      obtain ⟨hfollows', htraced', hmoves, hkinds⟩ :=
        hhanding.addParams (hext.nodes ▸ hns) (hext.nodes ▸ hf) hbody hparams
      obtain ⟨hchanges, -⟩ := addParams_changesAt hk hparams
      have hscope' : b₂.nodeScope? body = some (b.openBody body isBlock outer).2 := by
        rw [nodeScope?, hchanges.nodeScopes]
        exact hscope
      refine ⟨⟨hw', hfollows', htraced', hheads⟩, hscope', (hchanges.node? _).trans hnode, hkinds,
        fun ident => ?_⟩
      rw [← hsame]
      rcases hmoves ident with hr | ⟨r, hr, hscope, hmoved⟩
      · exact .inl hr
      · exact .inr ⟨r, hr, hscope ▸ hhead, hopens, hmoved⟩

end Wrap

/-! ## All wraps -/

section WrapAll

variable {b₀ : Bound} {wraps wraps' : Array Wrap} {idents : List NodeId}

/-- A wrapped body that opens a scope of its own is a block. -/
def OpensBlocksOnly (b : Bound) (wraps : Array Wrap) : Prop :=
  ∀ w ∈ wraps, opens b.unit w.body = true → w.blockBody = true

instance (b : Bound) (wraps : Array Wrap) : Decidable (b.OpensBlocksOnly wraps) :=
  inferInstanceAs (Decidable (∀ w ∈ wraps, _))

/-- What is known of scopes and references while loops are wrapped. -/
structure Hands (b₀ b : Bound) (wraps : Array Wrap) : Prop extends Wrapping b₀ b wraps where
  faithful : b.Faithful (bodiesOf wraps)
  blocks : ∀ w ∈ wraps, w.blockBody = true →
    ∃ statements, b₀.nodes.form? w.body = some (.block statements)
  scopes : ∀ w ∈ wraps, b.scopes.node? (some w.scope) = some w.body ∧
    ∀ name ∈ w.params, ∃ d, b.scopes.declaration? (some w.scope) name = some d ∧ d.kind = .param
  moved : ∀ ident, b.resolution? ident = b₀.resolution? ident ∨ ∃ r w,
    b₀.resolution? ident = some r ∧ w ∈ wraps ∧ b₀.scopes.node? (some r.scope) = some w.loop ∧
      b.resolution? ident = some { r with scope := w.scope }

theorem wraps_subset_of_wrapAll (h : wrapAll b wraps idents = .ok (b', wraps')) :
    ∀ w ∈ wraps, w ∈ wraps' := by
  induction idents generalizing b wraps with
  | nil =>
    cases h
    exact fun _ hw => hw
  | cons ident idents ih =>
    unfold wrapAll at h
    split at h
    · exact ih h
    · obtain ⟨⟨b₁, wraps₁⟩, hstep, h⟩ := bind_eq_ok.1 h
      intro w hw
      refine ih h w ?_
      obtain ⟨-, -, ⟨-, rfl, -⟩ | ⟨body, v, -, -, -, -, rfl⟩⟩ := wrapHazard_cases hstep
      · exact hw
      · exact Array.mem_push_of_mem v hw

theorem Hands.wrapHazard (hns : b₀.nodes.WellFormed) (hc : b₀.Charted) (ht : b₀.Total)
    (ho : b₀.HeadersOpen) (hi : Hands b₀ b wraps) {h : Hazard} (hh : b.IsHazard h)
    (hw : b.wrapHazard wraps h = .ok (b', wraps')) (hsingle : b₀.OpensBlocksOnly wraps') :
    Hands b₀ b' wraps' := by
  have hwrapping := hi.toWrapping.wrapHazard hns hc ht ho hh hw
  obtain ⟨-, -, ⟨rfl, rfl, -⟩ | ⟨body, w, hbody, -, hnew, hwrap, rfl⟩⟩ := wrapHazard_cases hw
  · exact hi
  have hunit : b.unit = b₀.unit := hi.tracks.toExtends.unit
  obtain ⟨hl, hwbody, -, hext, -⟩ := wrap_spec hi.tracks.wellScoped hwrap
  obtain ⟨form, hf, hform⟩ := Option.bind_eq_some_iff.1 hbody
  have hnodes : b.nodes = b₀.nodes := congrArg CompilationUnit.nodes hunit
  obtain ⟨hfaithful, -, hnode, hparams, hmoves⟩ := hi.faithful.wrap (hnodes ▸ hns) hf hform
    (hi.body_notMem hns (hnodes ▸ hf) hform hnew) hwrap fun hopens =>
      hsingle w Array.mem_push_self (hunit ▸ hwbody.symm ▸ hopens)
  refine ⟨hwrapping, ?_, fun v hv => ?_, fun v hv => ?_, fun ident => ?_⟩
  · rw [bodiesOf_push, hwbody]
    exact hfaithful
  · rcases Array.mem_push.1 hv with hv | rfl
    · exact hi.blocks v hv
    · rw [← hnodes]
      exact block_of_wrap hwrap
  · rcases Array.mem_push.1 hv with hv | rfl
    · obtain ⟨hvnode, hvparams⟩ := hi.scopes v hv
      have hlt := hi.tracks.wellScoped.nodeScope_lt (hi.faithful.follows.placed hvnode)
      refine ⟨(hext.scopes.node? hlt).trans hvnode, fun name hname => ?_⟩
      obtain ⟨d, hd, hk⟩ := hvparams name hname
      exact ⟨d, hext.scopes.kept hd, hk⟩
    · rw [hwbody]
      exact ⟨hnode, hparams⟩
  · rcases hmoves ident with hsame | ⟨r, hr, hloop, hopens, hmoved⟩
    · rw [hsame]
      refine (hi.moved ident).imp_right ?_
      rintro ⟨r, v, hr, hv, hrest⟩
      exact ⟨r, v, hr, Array.mem_push_of_mem w hv, hrest⟩
    · right
      rcases hi.moved ident with hold | ⟨r₀, v, -, hv, -, hvmoved⟩
      · rw [hr] at hold
        obtain ⟨-, -, name, x, -, -, hfinds⟩ := hc.found hold.symm
        have hlt : r.scope < b₀.scopes.size := hfinds.lt_size
        refine ⟨r, w, hold.symm, Array.mem_push_self, ?_, hmoved⟩
        rw [hl, ← hloop, hi.tracks.toExtends.scopes.node? hlt]
      · -- The scope of a wrap is that of a block, not of a loop.
        rw [hr, Option.some.injEq] at hvmoved
        subst hvmoved
        have hvl : v.body = h.loop := Option.some.inj ((hi.scopes v hv).1.symm.trans hloop)
        obtain ⟨statements, hblock⟩ := hi.blocks v hv
          (hsingle v (Array.mem_push_of_mem w hv) (hvl ▸ hunit ▸ hopens))
        rw [hvl, ← hnodes, hf, Option.some.injEq] at hblock
        rw [hblock] at hform
        cases hform

theorem Hands.wrapAll (hns : b₀.nodes.WellFormed) (hc : b₀.Charted) (ht : b₀.Total)
    (ho : b₀.HeadersOpen) (hi : Hands b₀ b wraps)
    (h : Bound.wrapAll b wraps idents = .ok (b', wraps')) (hsingle : b₀.OpensBlocksOnly wraps') :
    Hands b₀ b' wraps' := by
  induction idents generalizing b wraps with
  | nil =>
    cases h
    exact hi
  | cons ident idents ih =>
    unfold Bound.wrapAll at h
    split at h
    · exact ih hi h
    · next z hz =>
      obtain ⟨⟨b₁, wraps₁⟩, hw, h⟩ := bind_eq_ok.1 h
      exact ih (hi.wrapHazard hns hc ht ho (isHazard_of_hazard? hz).1 hw
        fun w hw => hsingle w (wraps_subset_of_wrapAll h w hw)) h

end WrapAll

end Bound

end LoopClosure
