import LoopClosure.Proofs.Lowering.Account
import LoopClosure.Proofs.Lowering.Follows
import LoopClosure.Proofs.Lowering.Forest
import LoopClosure.Proofs.Lowering.Prologue
import LoopClosure.Proofs.Lowering.Renewal
import LoopClosure.Proofs.Lowering.Truthful

/-!
# Hosts of variables

The variable for a keyword goes to the scope of a host (`Nodes.IsHost`): the program, or a function
with a block. It lies around the wrapped body (`host_of_lowerSource`).

- `Binding.Formed`: a scope is of the kind, and has the flags, that the form of its node says.
- `Bound.Grounded`: so it is while loops are wrapped, but for the scopes of wrapped bodies, and the
  scopes nest. The way up from a scope therefore passes nodes around, up to the program.
-/

namespace LoopClosure

open Syntax Syntax.Nodes Scopes

/-- The flags that a scope is made with; uses are noted later. -/
def Flags.origin (f : Flags) : Flags := { f with usesThis := false, usesArguments := false }

def Syntax.Nodes.IsClass (ns : Nodes) (n : NodeId) : Prop :=
  ∃ place name heritage members, ns.form? n = some (.classBody place name heritage members)

/-! ## Scopes as they are made -/

namespace Binding

variable {u : CompilationUnit} {G : Grants} {s t : Scopes}

/-- A scope with a node is what the form of the node opens. -/
def Formed (u : CompilationUnit) (s : Scopes) : Prop :=
  ∀ (x : ScopeId) (n : NodeId), s.node? (some x) = some n → ∃ form kind,
    u.nodes.form? n = some form ∧ s.kind? (some x) = some kind ∧
      Opens form kind (s.flags (some x)).origin

theorem Opens.origin {form : Form NodeId} {kind : ScopeKind} {flags : Flags}
    (h : Opens form kind flags) : flags.origin = flags := by
  cases h <;> rfl

theorem Step.origin (h : Step u G s t) (id : Option ScopeId) :
    (t.flags id).origin = (s.flags id).origin := by
  cases h with
  | declare _ _ h =>
    rcases declare_cases h with rfl | ⟨j, c, -, -, -, rfl⟩
    · rfl
    · exact flags_view_update (f := (·.append _ _)) Flags.origin (fun _ => rfl) _ _
  | modify => exact flags_view_update (f := (·.modify _ _)) Flags.origin (fun _ => rfl) _ _
  | addFlags id hf =>
    refine flags_view_update (f := fun c => { c with flags := c.flags.union _ }) Flags.origin
      (fun c => ?_) _ _
    rcases hf with rfl | rfl <;> simp [Flags.origin, Flags.union]
  | markPropagates => exact flags_view_update (f := (·.propagate _)) Flags.origin (fun _ => rfl) _ _
  | addReference =>
    refine flags_view_update (f := (·.addReference _ _)) Flags.origin (fun c => ?_) _ _
    unfold Scope.addReference
    split <;> rfl

namespace Formed

theorem congr (h : Formed u s) (hs : s.SameShape t) (hk : ∀ id, t.kind? id = s.kind? id)
    (hf : ∀ id, (t.flags id).origin = (s.flags id).origin) : Formed u t := by
  intro x n hn
  rw [hk, hf]
  exact h x n ((hs.node? _).symm.trans hn)

theorem steps (h : Formed u s) (hsteps : Steps u G s t) : Formed u t := by
  induction hsteps with
  | refl => exact h
  | tail _ hstep ih => exact ih.congr hstep.sameShape hstep.kind? hstep.origin

theorem addGlobal (h : Formed u s) (id : Option ScopeId) (name : String) (kind : BindingKind)
    (fromPos : Option Nat) : Formed u (s.addGlobal id name kind fromPos) :=
  h.congr (addGlobal_sameShape s id name kind fromPos)
    (fun _ => view_update (f := fun c => (c.remove name).append name _) (·.kind) (fun _ => rfl) _ _)
    fun _ => flags_view_update (f := fun c => (c.remove name).append name _) Flags.origin
      (fun _ => rfl) _ _

theorem alloc (h : Formed u s) {kind : ScopeKind} {i : NodeId} {p : ScopeId} {flags : Flags}
    {form : Form NodeId} (hlt : p < s.size) (hf : u.nodes.form? i = some form)
    (ho : Opens form kind flags) : Formed u (s.alloc kind (some i) (some p) flags).1 := by
  have hne : some p ≠ some s.size := fun e => Nat.ne_of_lt hlt (Option.some.inj e)
  intro x n hn
  rw [node?_alloc hne] at hn
  rw [kind?_alloc hne, flags_alloc hne]
  split at hn
  · obtain rfl := Option.some.inj hn
    rw [if_pos ‹_›, if_pos ‹_›, ho.origin]
    exact ⟨form, kind, hf, rfl, ho⟩
  · rw [if_neg ‹_›, if_neg ‹_›]
    exact h x n hn

theorem enters (h : Formed u s) {id : NodeId} {scope own : ScopeId} {form : Form NodeId}
    (hlt : scope < s.size) (hf : u.nodes.form? id = some form)
    (he : Enters u id scope form s t own) : Formed u t := by
  cases he with
  | same _ hsteps => exact h.steps hsteps
  | own _ hsteps ho hsteps' =>
    exact ((h.steps hsteps).alloc (hsteps.sameShape.size ▸ hlt) hf ho).steps hsteps'

end Formed

end Binding

open Binding

theorem bind_formed {u : CompilationUnit} {root : NodeId} {b : Bound} (h : bind u root = .ok b) :
    Formed u b.scopes := by
  unfold bind at h
  split at h
  · next comments hform =>
    obtain ⟨s, hs, h⟩ := bind_eq_ok.1 h
    obtain ⟨build, hbuild, h⟩ := bind_eq_ok.1 h
    extract_lets listed globals at h
    obtain ⟨r, hr, h⟩ := bind_eq_ok.1 h
    cases h
    have hempty : Formed u s := fun x n hn => by
      have hget := ((layout_environment hs).node hn).1
      simp at hget
    have hentered : Formed u build.scopes :=
      (entered_environment hs).invariant (P := fun b => Formed u b.scopes) hempty
        (fun he hf hn hstep => by
          obtain ⟨own, henter, -⟩ := enterNode_scopes hstep
          exact hf.enters (he.scope_lt _) (by rw [Nodes.form?, hn, Option.map_some])
            (enterScopes_enters henter)) rfl hbuild
    have hglobals : Formed u globals := by
      dsimp only [globals]
      generalize build.scopes = t at hentered
      induction listed generalizing t with
      | nil => exact hentered
      | cons e listed ih => exact ih _ (hentered.addGlobal _ _ _ _)
    exact hglobals.steps (resolveAll_steps hr)
  · cases h

/-! ## While loops are wrapped -/

namespace Bound

variable {b b' : Bound} {body loop : NodeId} {form : Form NodeId} {outer scope : ScopeId}

/-- The scopes of a unit in which loops were wrapped are as they were made, but for those of wrapped
bodies. -/
structure Grounded (b : Bound) : Prop extends Nests b where
  tree : b.scopes.Tree topScope
  top : b.scopes.node? (some topScope) = none
  program : ∃ n, b.scopes.node? (some programScope) = some n ∧ b.nodes.parent? n = none
  /-- Only the program is right below the scope of the globals. -/
  outermost : ∀ {x : ScopeId} {n : NodeId}, b.scopes.parent? (some x) = some topScope →
    b.scopes.node? (some x) = some n → b.nodes.parent? n = none
  own : ∀ {i : NodeId} {x : ScopeId} {form : Form NodeId}, b.nodeScope? i = some x →
    b.nodes.form? i = some form → opensScope b.unit i form = true → b.scopes.node? (some x) = some i
  made : ∀ {x : ScopeId} {n : NodeId}, b.scopes.node? (some x) = some n →
    (b.scopes.flags (some x)).loopWrapper = false → ∃ form kind, b.nodes.form? n = some form ∧
      b.scopes.kind? (some x) = some kind ∧ Opens form kind (b.scopes.flags (some x)).origin
  wrapper : ∀ {x : ScopeId}, (b.scopes.flags (some x)).loopWrapper = true →
    ∃ n p, b.scopes.node? (some x) = some n ∧ b.nodes.parent? n = some p

/-- Of the scopes only what they declare and list differs. -/
structure SameFrame (b b' : Bound) : Prop where
  unit : b'.unit = b.unit
  nodeScopes : b'.nodeScopes = b.nodeScopes
  shape : b.scopes.SameShape b'.scopes
  kind? : ∀ id, b'.scopes.kind? id = b.scopes.kind? id
  flags : ∀ id, b'.scopes.flags id = b.scopes.flags id

namespace SameFrame

theorem refl (b : Bound) : SameFrame b b := ⟨rfl, rfl, .refl _, fun _ => rfl, fun _ => rfl⟩

theorem trans {b'' : Bound} (h : SameFrame b b') (h' : SameFrame b' b'') : SameFrame b b'' where
  unit := h'.unit.trans h.unit
  nodeScopes := h'.nodeScopes.trans h.nodeScopes
  shape := h.shape.trans h'.shape
  kind? id := (h'.kind? id).trans (h.kind? id)
  flags id := (h'.flags id).trans (h.flags id)

theorem of_onlyUses (hu : b'.unit = b.unit) (hn : b'.nodeScopes = b.nodeScopes)
    (h : OnlyUses b.scopes b'.scopes) : SameFrame b b' :=
  ⟨hu, hn, h.sameShape, h.kind?, fun id => by
    rw [Scopes.flags, h.view (·.flags) fun _ => rfl, Scopes.flags]⟩

theorem declare {t : Scopes} {source target : Option ScopeId} {name : String} {kind : BindingKind}
    {node : Option NodeId} {fromPos : Option Nat}
    (h : b.scopes.declare source name kind node fromPos = .ok (t, target)) :
    SameFrame b (b.withScopes t) := by
  rcases declare_cases h with rfl | ⟨j, c, -, -, -, rfl⟩
  · exact refl b
  · let f : Scope → Scope := (·.append name { kind, node, fromPos })
    have hshape : b.scopes.SameShape (b.scopes.update (some j) f) :=
      .update _ _ ⟨fun _ => rfl, fun _ => rfl, fun _ => rfl⟩
    exact ⟨rfl, rfl, hshape,
      view_update (f := f) (·.kind) (fun _ => rfl) _,
      flags_view_update (f := f) (fun flags => flags) (fun _ => rfl) _⟩

theorem addParams {header : Option ScopeId} {names params : List String}
    (h : addParams header scope body b names = .ok (b', params)) : SameFrame b b' := by
  induction names generalizing b b' params with
  | nil =>
    cases h
    exact refl _
  | cons name names ih =>
    unfold Bound.addParams at h
    split at h
    · exact ih h
    · split at h
      · cases h
      · next t target hd =>
        obtain ⟨⟨b₁, params₁⟩, hrest, h⟩ := bind_eq_ok.1 h
        cases h
        obtain ⟨hu, hn, huses⟩ := retargetHeader_onlyUses (b.withScopes t) header scope body name
        exact ((declare hd).trans (of_onlyUses hu hn huses)).trans (ih hrest)

end SameFrame

/-- The scope of a wrapped body is the one that a block has, or it is split off. -/
theorem wrap_cases {w : Wrap} (h : b.wrap loop body = .ok (b', w)) :
    ∃ outer b₁, b.nodeScope? body = some outer ∧ SameFrame b₁ b' ∧ w.loop = loop ∧ w.body = body ∧
      ((∃ statements, b.nodes.form? body = some (.block statements)) ∧ w.scope = outer ∧
          b₁ = b.withScopes
            ((b.scopes.setKind outer .hoist).addFlags outer { loopWrapper := true }) ∨
        w.scope = b.scopes.size ∧ ((b.nodes.form? body).map (·.isBlock)).getD false = false ∧
          b₁ = (b.splitBody body outer).1) := by
  unfold Bound.wrap at h
  split at h
  · cases h
  · next outer houter =>
    dsimp only at h
    generalize hblock : ((b.nodes.form? body).map (·.isBlock)).getD false = isBlock at h
    obtain ⟨⟨b₂, params⟩, hparams, h⟩ := bind_eq_ok.1 h
    cases h
    refine ⟨outer, _, houter, SameFrame.addParams hparams, rfl, rfl, ?_⟩
    cases isBlock with
    | true => exact .inl ⟨exists_block_of_isBlock hblock, rfl, rfl⟩
    | false => exact .inr ⟨rfl, rfl, rfl⟩

namespace Grounded

theorem sameFrame (h : b.Grounded) (hs : SameFrame b b') : b'.Grounded := by
  have hnodes : b'.nodes = b.nodes := congrArg CompilationUnit.nodes hs.unit
  have hscope (i : NodeId) : b'.nodeScope? i = b.nodeScope? i := by
    rw [nodeScope?, hs.nodeScopes, nodeScope?]
  refine ⟨⟨h.listed.of_sameShape hs.shape, ?_, ?_, ?_⟩, h.tree.of_sameShape hs.shape, ?_, ?_, ?_, ?_, ?_,
    ?_⟩
  all_goals simp only [hscope, hnodes, hs.unit, hs.shape.node?, hs.shape.parent?, hs.kind?, hs.flags]
  · exact h.opened
  · exact h.around
  · exact h.nest
  · exact h.top
  · exact h.program
  · exact h.outermost
  · exact h.own
  · exact h.made
  · exact h.wrapper

section Open

variable (h : b.Grounded) (hw : b.WellScoped) (hns : b.nodes.WellFormed)
  (hf : b.nodes.form? loop = some form) (hbody : form.loopBody? = some body)
  (houter : b.nodeScope? body = some outer)
include h hw hns hf hbody houter

theorem splitBody : (b.splitBody body outer).1.Grounded := by
  have hlt := hw.nodeScope_lt houter
  have hlist := h.listed
  refine ⟨h.toNests.splitBody hw hns hf hbody houter, splitBody_tree h.tree hlt, ?_, ?_, ?_, ?_, ?_,
    ?_⟩
  · exact (node?_split_old hlt (Nat.zero_lt_of_lt hlt)).trans h.top
  · obtain ⟨n, hn, hp⟩ := h.program
    exact ⟨n, (node?_split_old hlt (lt_size_of_node? hn)).trans hn, hp⟩
  · intro x n hp hn
    rw [parent?_splitBody hlt hw.wellFormed hlist] at hp
    split at hp
    · rw [Option.some.inj hp] at hlt
      exact absurd hlt (Nat.not_lt_zero _)
    · split at hp
      · obtain ⟨m, hm⟩ := h.opened houter
        rw [Option.some.inj hp, h.top] at hm
        cases hm
      · next hx =>
        rw [node?_splitBody hlt, if_neg hx] at hn
        exact h.outermost hp hn
  · intro i x form' hi hform ho
    rcases nodeScope?_split_cases hns hf hbody hi with ⟨hold, -⟩ | ⟨hold, hin, rfl⟩
    · rw [node?_split_old hlt (hw.nodeScope_lt hold)]
      exact h.own hold hform ho
    · -- The scope around the body is that of a node in it, so of the body itself.
      have hnode := h.own hold hform ho
      have heq : i = body := (h.around houter hnode).antisymm hns hin
      exact heq ▸ node?_split_new hlt
  · intro x n hn hflag
    by_cases hx : x = b.scopes.size
    · subst hx
      rw [flags_splitBody_new hlt] at hflag
      cases hflag
    · rw [node?_splitBody hlt, if_neg hx] at hn
      rw [flags_splitBody hx] at hflag ⊢
      rw [kind?_splitBody hx]
      exact h.made hn hflag
  · intro x hflag
    rw [node?_splitBody hlt]
    by_cases hx : x = b.scopes.size
    · rw [if_pos hx]
      exact ⟨body, loop, rfl, parent?_body hns hf hbody⟩
    · rw [flags_splitBody hx] at hflag
      rw [if_neg hx]
      exact h.wrapper hflag

theorem openBlock {statements : List NodeId}
    (hblock : b.nodes.form? body = some (.block statements)) : (b.withScopes
      ((b.scopes.setKind outer .hoist).addFlags outer { loopWrapper := true })).Grounded := by
  have hlt := hw.nodeScope_lt houter
  have hshape := openBlock_sameShape b outer
  have hnode : b.scopes.node? (some outer) = some body :=
    h.own houter hblock (opensScope_body hns hf hbody statements)
  have hother {x : ScopeId} (hx : x ≠ outer) :
      ((b.scopes.setKind outer .hoist).addFlags outer { loopWrapper := true }).get? (some x) =
        b.scopes.get? (some x) := by
    have hne : some outer ≠ some x := fun e => hx (Option.some.inj e).symm
    rw [addFlags, get?_update_of_ne hne, setKind, get?_update_of_ne hne]
  have hself : (((b.scopes.setKind outer .hoist).addFlags outer
      { loopWrapper := true }).flags (some outer)).loopWrapper = true := by
    obtain ⟨c, hc⟩ := get?_of_lt hlt
    simp [flags, addFlags, setKind, get?_update_self, hc, Flags.union]
  refine ⟨⟨h.listed.of_sameShape hshape, fun hi => ?_, fun hi hn => ?_, fun {x p} hp => ?_⟩,
    h.tree.of_sameShape hshape, (hshape.node? _).trans h.top, ?_, fun hp hn => ?_,
    fun hi hform ho => (hshape.node? _).trans (h.own hi hform ho), fun {x n} hn hflag => ?_,
    fun {x} hflag => ?_⟩
  · obtain ⟨n, hn⟩ := h.opened hi
    exact ⟨n, (hshape.node? _).trans hn⟩
  · exact h.around hi ((hshape.node? _).symm.trans hn)
  · obtain ⟨n, hn, hin⟩ := h.nest ((hshape.parent? _).symm.trans hp)
    exact ⟨n, (hshape.node? _).trans hn, fun m hm => hin m ((hshape.node? _).symm.trans hm)⟩
  · obtain ⟨n, hn, hp⟩ := h.program
    exact ⟨n, (hshape.node? _).trans hn, hp⟩
  · exact h.outermost ((hshape.parent? _).symm.trans hp) ((hshape.node? _).symm.trans hn)
  · by_cases hx : x = outer
    · subst hx
      cases hself.symm.trans hflag
    · rw [withScopes, flags, kind?, hother hx]
      rw [withScopes, flags, hother hx] at hflag
      exact h.made ((hshape.node? _).symm.trans hn) hflag
  · by_cases hx : x = outer
    · subst hx
      exact ⟨body, loop, (hshape.node? _).trans hnode, parent?_body hns hf hbody⟩
    · rw [withScopes, flags, hother hx] at hflag
      obtain ⟨n, p, hn, hp⟩ := h.wrapper hflag
      exact ⟨n, p, (hshape.node? _).trans hn, hp⟩

end Open

/-- A wrap keeps all that, and its scope is that of the body. -/
theorem wrap (h : b.Grounded) (hw : b.WellScoped) (hns : b.nodes.WellFormed)
    (hf : b.nodes.form? loop = some form) (hbody : form.loopBody? = some body) {w : Wrap}
    (hwrap : b.wrap loop body = .ok (b', w)) :
    b'.Grounded ∧ b'.scopes.node? (some w.scope) = some w.body := by
  obtain ⟨outer, b₁, houter, hsame, rfl, rfl, hcases⟩ := wrap_cases hwrap
  rw [hsame.shape.node?]
  rcases hcases with ⟨⟨statements, hblock⟩, hscope, rfl⟩ | ⟨hscope, -, rfl⟩
  · have hnode := h.own houter hblock (opensScope_body hns hf hbody statements)
    refine ⟨(h.openBlock hw hns hf hbody houter hblock).sameFrame hsame, ?_⟩
    rw [hscope]
    exact ((openBlock_sameShape b outer).node? _).trans hnode
  · refine ⟨(h.splitBody hw hns hf hbody houter).sameFrame hsame, ?_⟩
    rw [hscope]
    exact node?_split_new (hw.nodeScope_lt houter)

theorem wrapAll {wraps wraps' : Array Wrap} {idents : List NodeId} (h : b.Grounded)
    (hw : b.WellScoped) (hns : b.nodes.WellFormed)
    (hscopes : ∀ w ∈ wraps, b.scopes.node? (some w.scope) = some w.body)
    (hwraps : Bound.wrapAll b wraps idents = .ok (b', wraps')) :
    b'.Grounded ∧ ∀ w ∈ wraps', b'.scopes.node? (some w.scope) = some w.body := by
  induction idents generalizing b wraps with
  | nil =>
    cases hwraps
    exact ⟨h, hscopes⟩
  | cons ident idents ih =>
    unfold Bound.wrapAll at hwraps
    split at hwraps
    · exact ih h hw hns hscopes hwraps
    · obtain ⟨⟨b₁, wraps₁⟩, hstep, hwraps⟩ := bind_eq_ok.1 hwraps
      obtain ⟨hw₁, hext⟩ := wrapHazard_extends hw hstep
      obtain ⟨h₁, hscopes₁⟩ :
          b₁.Grounded ∧ ∀ w ∈ wraps₁, b₁.scopes.node? (some w.scope) = some w.body := by
        obtain ⟨-, -, ⟨rfl, rfl, -⟩ | ⟨body, w, hbody, -, -, hwrap, rfl⟩⟩ := wrapHazard_cases hstep
        · exact ⟨h, hscopes⟩
        obtain ⟨form, hf, hform⟩ := Option.bind_eq_some_iff.1 hbody
        obtain ⟨h₁, hscope⟩ := h.wrap hw hns hf hform hwrap
        refine ⟨h₁, fun v hv => ?_⟩
        rcases Array.mem_push.1 hv with hv | rfl
        · have hnode := hscopes v hv
          exact (hext.scopes.node? (lt_size_of_node? hnode)).trans hnode
        · exact hscope
      exact ih h₁ hw₁ (hext.nodes ▸ hns) hscopes₁ hwraps

end Grounded

theorem bind_grounded {u : CompilationUnit} (hns : u.nodes.WellFormed) (hroot : u.nodes.Rooted)
    (hb : bind u = .ok b) : b.Grounded := by
  have hlayout := bind_layout hns hroot hb
  have hregions := (bind_charted hns hb).mapped.regions
  have hformed := bind_formed hb
  have htree := bind_tree hb
  have htotal := bind_total hb
  obtain ⟨statements, comments, hprogram, -⟩ := mem_identifiers hb
  obtain rfl := bind_unit hb
  have hopened {i : NodeId} {x : ScopeId} (hi : b.nodeScope? i = some x) :
      ∃ n, b.scopes.node? (some x) = some n := by
    obtain ⟨form, hform⟩ := hlayout.exists_form hi
    obtain ⟨m, hm⟩ := Layout.exists_opener hns hroot hform
    exact ⟨m, (hlayout.opener hi).trans hm⟩
  refine ⟨⟨hlayout.grown.listed, hopened, fun hi hn => hregions.around hi hn,
    fun hp => hregions.nest hp⟩, htree, hregions.top, ?_, fun {x n} hp hn => ?_,
    fun hi hf ho => hregions.own hi hf ho, fun {x n} hn _ => hformed x n hn, fun {x} hx => ?_⟩
  · -- The program has a scope, which is not that of the globals.
    obtain ⟨y, hy⟩ := htotal Nodes.root (lt_size_of_form? hprogram)
    obtain ⟨n, hn⟩ := hopened hy
    have hpos : 0 < y := by
      refine Nat.pos_of_ne_zero fun hzero => ?_
      rw [hzero] at hn
      cases hregions.top.symm.trans hn
    have hlt : programScope < b.scopes.size := Nat.lt_of_le_of_lt hpos (lt_size_of_node? hn)
    obtain ⟨p, hp⟩ : ∃ p, b.scopes.parent? (some programScope) = some p := by
      cases hp : b.scopes.parent? (some programScope) with
      | none => exact absurd ((htree.isRoot_iff _).1 ⟨hlt, hp⟩) (by decide)
      | some p => exact ⟨p, rfl⟩
    obtain ⟨m, hm, -⟩ := hregions.nest hp
    exact ⟨m, hm, hlayout.parent?_program hns hroot hm⟩
  · have htop : standing b.unit b.nodeScopes n = topScope :=
      Option.some.inj ((hlayout.parent hn).symm.trans hp)
    exact hlayout.parent?_of_standing hns hroot hn htop
  · rw [hlayout.grown.unwrapped] at hx
    cases hx

/-! ## The way up to a host -/

/-- A scope is that of a host around a node. -/
def Hosts (b : Bound) (target : ScopeId) (inner : NodeId) : Prop :=
  ∃ f, b.scopes.node? (some target) = some f ∧ b.nodes.IsHost f ∧ b.nodes.Inside f inner

namespace Grounded

variable {x target : ScopeId} {n inner : NodeId}

theorem exists_parent_node (h : b.Grounded) {p : ScopeId} (hx : b.scopes.node? (some x) = some n)
    (hn : b.nodes.parent? n ≠ none) (hp : b.scopes.parent? (some x) = some p) :
    ∃ m, b.scopes.node? (some p) = some m ∧ b.nodes.Inside m n := by
  have hne : p ≠ topScope := fun e => hn (h.outermost (e ▸ hp) hx)
  obtain ⟨q, hq⟩ : ∃ q, b.scopes.parent? (some p) = some q := by
    cases hq : b.scopes.parent? (some p) with
    | none =>
      exact absurd ((h.tree.isRoot_iff p).1 ⟨h.tree.linked.wellFormed.parent_lt hp, hq⟩) hne
    | some q => exact ⟨q, rfl⟩
  obtain ⟨m, hm, -⟩ := h.nest hq
  obtain ⟨n', hn', hin⟩ := h.nest hp
  cases hx.symm.trans hn'
  exact ⟨m, hm, hin m hm⟩

theorem isHost_of_blockBody? (hns : b.nodes.WellFormed) (hf : b.nodes.form? n = some form)
    (hbody : form.blockBody? = some body) : b.nodes.IsHost n := by
  obtain ⟨statements, hblock⟩ := hns.block hf hbody
  cases form with
  | function place name params body' traits =>
    obtain rfl : body' = body := by
      cases place <;> simp_all [Form.blockBody?]
    exact .inr ⟨place, name, params, body', traits, statements, hf, hblock⟩
  | _ => cases hbody

/-- The scope of the program is no wrapped body. -/
theorem exists_program (h : b.Grounded) (hroot : b.nodes.Rooted) :
    ∃ r statements comments, b.scopes.node? (some programScope) = some r ∧
      (b.scopes.flags (some programScope)).loopWrapper = false ∧ b.nodes.parent? r = none ∧
        b.nodes.form? r = some (.program statements comments) := by
  obtain ⟨r, hr, hp⟩ := h.program
  have hflag : (b.scopes.flags (some programScope)).loopWrapper = false := by
    refine Bool.eq_false_iff.2 fun hwrapper => ?_
    obtain ⟨m, p, hm, hmp⟩ := h.wrapper hwrapper
    cases hr.symm.trans hm
    cases hp.symm.trans hmp
  obtain ⟨form, kind, hf, -⟩ := h.made hr hflag
  obtain ⟨statements, comments, rfl⟩ := hroot hf hp
  exact ⟨r, statements, comments, hr, hflag, hp, hf⟩

/-- The program is a host around all nodes. -/
theorem hosts_program (h : b.Grounded) (hroot : b.nodes.Rooted)
    (hall : ∀ s m, b.nodes.get? s = some m → b.nodes.Inside Nodes.root s) {m : Node}
    (hm : b.nodes.get? inner = some m) : b.Hosts programScope inner := by
  obtain ⟨r, statements, comments, hr, -, hp, hf⟩ := h.exists_program hroot
  obtain ⟨k, hk, -⟩ := Option.map_eq_some_iff.1 hf
  have heq : r = Nodes.root := by
    cases hall r k hk with
    | refl => rfl
    | up hq => cases hp.symm.trans hq
  exact ⟨r, hr, .inl ⟨statements, comments, hf⟩, heq ▸ hall inner m hm⟩

end Grounded

/-! ## The search -/

/-- The nodes of scopes lie in one another as the scopes do. -/
theorem Nests.inside_of_under {x y : ScopeId} {n : NodeId} (h : b.Nests)
    (hu : b.scopes.Under x y) (hx : b.scopes.node? (some x) = some n) :
    ∃ m, b.scopes.node? (some y) = some m ∧ b.nodes.Inside n m := by
  induction hu with
  | refl => exact ⟨n, hx, .refl⟩
  | up hp _ ih =>
    obtain ⟨k, hk, hnk⟩ := ih
    obtain ⟨m, hm, hin⟩ := h.nest hp
    exact ⟨m, hm, hnk.trans (hin k hk)⟩

/-- The scope is that of a function with a block. -/
def BlockFunction (b : Bound) (x : ScopeId) : Prop :=
  (b.scopes.flags (some x)).loopWrapper = false ∧ ∃ f form body, b.scopes.node? (some x) = some f ∧
    b.nodes.form? f = some form ∧ form.blockBody? = some body

/-- The scope is that of a class, not that of a wrap of one. -/
def ClassScope (b : Bound) (x : ScopeId) : Prop :=
  (b.scopes.flags (some x)).loopWrapper = false ∧
    ∃ n, b.scopes.node? (some x) = some n ∧ b.nodes.IsClass n

/-- The scope is that of a host, not that of a wrap. -/
def HostScope (b : Bound) (x : ScopeId) : Prop :=
  (b.scopes.flags (some x)).loopWrapper = false ∧
    ∃ n, b.scopes.node? (some x) = some n ∧ b.nodes.IsHost n

/-- The search for the scope of a variable on the way up from a scope, given the last arrow with a
block that it passed. -/
inductive Seeks (b : Bound) : Option ScopeId → ScopeId → Option ScopeId → Prop where
  /-- The way is over, or too long. -/
  | cut {arrow : Option ScopeId} {x : ScopeId} : Seeks b arrow x (some programScope)
  | pass {arrow r : Option ScopeId} {x p : ScopeId} (hx : ¬b.BlockFunction x)
    (hp : b.scopes.parent? (some x) = some p) (h : Seeks b arrow p r) : Seeks b arrow x r
  | arrow {arrow r : Option ScopeId} {x p : ScopeId} (hx : b.BlockFunction x)
    (hp : b.scopes.parent? (some x) = some p) (h : Seeks b (some x) p r) : Seeks b arrow x r
  | ofClass {arrow : Option ScopeId} {x : ScopeId} (hx : b.ClassScope x) : Seeks b arrow x arrow
  | found {arrow : Option ScopeId} {x : ScopeId} (hx : b.HostScope x) : Seeks b arrow x (some x)

theorem BlockFunction.hostScope {x : ScopeId} (h : b.BlockFunction x) (hns : b.nodes.WellFormed) :
    b.HostScope x := by
  obtain ⟨hflag, f, form, body, hn, hf, hbody⟩ := h
  exact ⟨hflag, f, hn, Grounded.isHost_of_blockBody? hns hf hbody⟩

namespace Grounded

variable {x : ScopeId} {n : NodeId} {arrow : Option ScopeId} {k : Nat}

section Search

open Lowering

/-- What the search does at a scope. -/
theorem aliasScopeAmong_cons (h : b.Grounded) (hns : b.nodes.WellFormed) (hroot : b.nodes.Rooted)
    (hn : b.scopes.node? (some x) = some n) (arrow : Option ScopeId) (rest : List ScopeId) :
    b.nodes.parent? n ≠ none ∧
        (¬b.BlockFunction x ∧
            aliasScopeAmong b arrow (x :: rest) = aliasScopeAmong b arrow rest ∨
          b.BlockFunction x ∧
            aliasScopeAmong b arrow (x :: rest) = aliasScopeAmong b (some x) rest) ∨
      b.ClassScope x ∧ aliasScopeAmong b arrow (x :: rest) = arrow ∨
      b.HostScope x ∧ aliasScopeAmong b arrow (x :: rest) = some x := by
  obtain ⟨c, hc⟩ := get?_of_lt (lt_size_of_node? hn)
  have hflags : b.scopes.flags (some x) = c.flags := by rw [flags, hc]; rfl
  have hnode : c.node = some n := by rw [node?, hc] at hn; exact hn
  rw [aliasScopeAmong, hc]
  dsimp only
  cases hwrapper : c.flags.loopWrapper with
  | true =>
    obtain ⟨m, p, hm, hp⟩ := h.wrapper (hflags ▸ hwrapper)
    obtain rfl := Option.some.inj (hn.symm.trans hm)
    have hnot : ¬b.BlockFunction x := fun hx => by
      cases hx.1.symm.trans (hflags ▸ hwrapper)
    rw [Bool.or_true, if_pos rfl]
    exact .inl ⟨hp ▸ Option.some_ne_none p, .inl ⟨hnot, rfl⟩⟩
  | false =>
    obtain ⟨form, kind, hf, hk, ho⟩ := h.made hn (hflags ▸ hwrapper)
    have hflag : (b.scopes.flags (some x)).loopWrapper = false := hflags ▸ hwrapper
    have hinner (hprogram : form.isProgram = false) : b.nodes.parent? n ≠ none := fun hp => by
      obtain ⟨statements, comments, rfl⟩ := hroot hf hp
      cases hprogram
    have hnot (hbody : form.blockBody? = none) : ¬b.BlockFunction x := by
      rintro ⟨-, f, form', body, hfn, hf', hbody'⟩
      obtain rfl := Option.some.inj (hn.symm.trans hfn)
      obtain rfl := Option.some.inj (hf.symm.trans hf')
      cases hbody.symm.trans hbody'
    have hkind : c.isHoist = decide (kind = .hoist) := by
      rw [kind?, hc, Option.map_some, Option.some.injEq] at hk
      rw [Scope.isHoist, hk]
    have harrow : c.flags.arrow = c.flags.origin.arrow := rfl
    have hclass : c.flags.class_ = c.flags.origin.class_ := rfl
    rw [hflags] at ho
    rw [hkind, harrow, hclass, hnode, Option.bind_some, hf]
    generalize c.flags.origin = flags at ho ⊢
    cases ho with
    | program => exact .inr (.inr ⟨⟨hflag, n, hn, .inl ⟨_, _, hf⟩⟩, rfl⟩)
    | @function place name params body traits =>
      have hfound (hbody : (Form.function place name params body traits).blockBody? = some body) :
          b.BlockFunction x := ⟨hflag, n, _, body, hn, hf, hbody⟩
      cases place with
      | arrow =>
        by_cases hconcise : traits.concise = true
        · simp only [hconcise, Bool.not_true, Bool.false_eq_true, if_false]
          exact .inl ⟨hinner rfl, .inl ⟨hnot (if_pos hconcise), rfl⟩⟩
        · simp only [Bool.eq_false_iff.2 hconcise, Bool.not_false, if_true]
          exact .inl ⟨hinner rfl, .inr ⟨hfound (if_neg hconcise), rfl⟩⟩
      | _ => exact .inr (.inr ⟨(hfound rfl).hostScope hns, rfl⟩)
    | classBody => exact .inr (.inl ⟨⟨hflag, n, hn, _, _, _, _, hf⟩, rfl⟩)
    | _ => exact .inl ⟨hinner rfl, .inl ⟨hnot rfl, rfl⟩⟩

theorem seeks (h : b.Grounded) (hns : b.nodes.WellFormed) (hroot : b.nodes.Rooted)
    (hn : b.scopes.node? (some x) = some n) :
    b.Seeks arrow x (aliasScopeAmong b arrow (b.scopes.walkUp k (some x))) := by
  induction k generalizing x n arrow with
  | zero => exact .cut
  | succ k ih =>
    rw [walkUp_succ]
    rcases h.aliasScopeAmong_cons hns hroot hn arrow (b.scopes.walkUp k (b.scopes.parent? (some x)))
      with ⟨hp, hnext⟩ | ⟨hclass, hr⟩ | ⟨hhost, hr⟩
    · cases hx : b.scopes.parent? (some x) with
      | none =>
        rw [hx, walkUp_none] at hnext
        rw [walkUp_none]
        rcases hnext with ⟨-, hr⟩ | ⟨-, hr⟩ <;> rw [hr] <;> exact .cut
      | some p =>
        obtain ⟨m, hm, -⟩ := h.exists_parent_node hn hp hx
        rw [hx] at hnext
        rcases hnext with ⟨hpass, hr⟩ | ⟨harrow, hr⟩
        · exact hr ▸ .pass hpass hx (ih hm)
        · exact hr ▸ .arrow harrow hx (ih hm)
    · rw [hr]
      exact .ofClass hclass
    · rw [hr]
      exact .found hhost

end Search

end Grounded

namespace Seeks

variable {x target : ScopeId} {arrow r : Option ScopeId}

/-- What is found on the way is the scope of a host, unless it was passed before. -/
theorem hostScope (hns : b.nodes.WellFormed) (h : b.Seeks arrow x r) (hr : r = some target) :
    target = programScope ∨ arrow = some target ∨
      b.HostScope target ∧ b.scopes.Under target x := by
  induction h with
  | cut => exact .inl (Option.some.inj hr).symm
  | pass _ hp _ ih => exact (ih hr).imp_right (Or.imp_right (And.imp_right (.up hp)))
  | arrow hx hp _ ih =>
    rcases ih hr with htop | hpassed | hfound
    · exact .inl htop
    · exact .inr (.inr (Option.some.inj hpassed ▸ ⟨hx.hostScope hns, .refl⟩))
    · exact .inr (.inr (hfound.imp_right (.up hp)))
  | ofClass => exact .inr (.inl hr)
  | found hx => exact .inr (.inr (Option.some.inj hr ▸ ⟨hx, .refl⟩))

/-- A search that finds nothing comes to a class, with no function with a block on the way. -/
theorem classScope (ht : b.scopes.Tree topScope) (h : b.Seeks arrow x r) (hr : r = none) :
    arrow = none ∧ ∃ c, b.ClassScope c ∧ b.scopes.Under c x ∧
      ∀ y, b.BlockFunction y → b.scopes.Under c y → ¬b.scopes.Under y x := by
  have hnext {c x p : ScopeId} (hx : ¬b.BlockFunction x) (hp : b.scopes.parent? (some x) = some p)
      (hnone : ∀ y, b.BlockFunction y → b.scopes.Under c y → ¬b.scopes.Under y p) (y : ScopeId)
      (hy : b.BlockFunction y) (hcy : b.scopes.Under c y) : ¬b.scopes.Under y x := by
    intro hyx
    cases hyx with
    | refl => exact hx hy
    | up hq hyp => exact hnone y hy hcy (Option.some.inj (hq.symm.trans hp) ▸ hyp)
  induction h with
  | cut => cases hr
  | pass hx hp _ ih =>
    obtain ⟨harrow, c, hc, hcp, hnone⟩ := ih hr
    exact ⟨harrow, c, hc, .up hp hcp, hnext hx hp hnone⟩
  | arrow _ _ _ ih => cases (ih hr).1
  | @ofClass arrow x hx =>
    refine ⟨hr, x, hx, .refl, fun y hy hxy hyx => ?_⟩
    obtain ⟨-, n, hn, place, name, heritage, members, hform⟩ := hx
    obtain ⟨-, f, form, body, hf, hfform, hbody⟩ := hy
    obtain rfl := ht.antisymm hxy hyx
    obtain rfl := Option.some.inj (hn.symm.trans hf)
    rw [hform, Option.some.injEq] at hfform
    subst hfform
    cases hbody
  | found => cases hr

end Seeks

namespace Grounded

variable {x target : ScopeId} {n inner : NodeId}

open Lowering

theorem seeks_aliasScope? (h : b.Grounded) (hns : b.nodes.WellFormed) (hroot : b.nodes.Rooted)
    (hn : b.scopes.node? (some x) = some n) : b.Seeks none x (aliasScope? b x) :=
  h.seeks hns hroot hn

/-- The scope for a variable is no wrapped body. -/
theorem unwrapped_of_aliasScope? (h : b.Grounded) (hns : b.nodes.WellFormed)
    (hroot : b.nodes.Rooted) (hn : b.scopes.node? (some x) = some n)
    (ht : aliasScope? b x = some target) : (b.scopes.flags (some target)).loopWrapper = false := by
  rcases (h.seeks_aliasScope? hns hroot hn).hostScope hns ht with rfl | harrow | ⟨hfound, -⟩
  · obtain ⟨_, _, _, -, hflag, -⟩ := h.exists_program hroot
    exact hflag
  · cases harrow
  · exact hfound.1

/-- The scope for a variable, searched on the way up from a scope around a node, is that of a host
around the node. -/
theorem hosts_of_aliasScope? (h : b.Grounded) (hns : b.nodes.WellFormed) (hroot : b.nodes.Rooted)
    (hprogram : b.Hosts programScope inner) (hn : b.scopes.node? (some x) = some n)
    (hin : b.nodes.Inside n inner) (ht : aliasScope? b x = some target) :
    b.Hosts target inner := by
  have hseeks := h.seeks_aliasScope? hns hroot hn
  rcases hseeks.hostScope hns ht with rfl | harrow | ⟨⟨-, f, hf, hhost⟩, hu⟩
  · exact hprogram
  · cases harrow
  · obtain ⟨m, hm, hfm⟩ := h.toNests.inside_of_under hu hf
    obtain rfl := Option.some.inj (hn.symm.trans hm)
    exact ⟨f, hf, hhost, hfm.trans hin⟩

end Grounded

end Bound

/-- The variable for a keyword of a wrapped body goes to a host around the body. -/
theorem host_of_lowerSource {file : String} {source : List Char} {options : Options} {l : Lowering}
    (h : lowerSource file source options = .ok l) {i : Nat} {w : Wrap} {target : ScopeId}
    (hw : l.wraps[i]? = some w) (ht : Lowering.aliasScope? l.bound w.scope = some target) :
    l.bound.Hosts target w.body := by
  have ha := account_of_lowerSource h
  obtain ⟨t, b, hparse, hbind, hl⟩ := lowerSource_eq_ok.1 h
  obtain ⟨⟨b', wraps⟩, hwraps, hfinish⟩ := bind_eq_ok.1 hl
  have hns : (Nodes.ofTree t).WellFormed := Nodes.wellFormed_ofTree (Grammar.parse_wellFormed hparse)
  have hroot : (Nodes.ofTree t).Rooted := Grammar.parse_rooted hparse
  have hwell := (bind_wellScoped hbind).1
  have hbnodes : b.nodes = .ofTree t := congrArg CompilationUnit.nodes (bind_unit hbind)
  have hnodes : b'.nodes = b.nodes := (Bound.wrapAll_extends hwell hwraps).2.nodes
  obtain ⟨hgrounded, hscopes⟩ := (Bound.bind_grounded hns hroot hbind).wrapAll hwell (hbnodes ▸ hns)
    (fun w hw => absurd hw (Array.not_mem_empty w)) hwraps
  have hadv := Lowering.finish_advances hfinish
  have hlnodes : l.nodes = b'.nodes := hadv.nodes
  have hlw := hw
  rw [hadv.wraps] at hw
  rw [hadv.aliasScope?] at ht
  have hnode := hscopes w (Array.mem_of_getElem? hw)
  have hbnodes' : b'.nodes = .ofTree t := hnodes.trans hbnodes
  obtain ⟨m, hm⟩ := exists_get?_of_parent?_eq_some
    (ha.nested.wraps.parent?_body ha.nested.nodes hlw)
  have hprogram : b'.Hosts programScope w.body :=
    hgrounded.hosts_program (hbnodes' ▸ hroot)
      (fun s k hk => hlnodes ▸ ha.root (hlnodes ▸ hk)) (hlnodes ▸ hm)
  obtain ⟨f, hf, hhost, hin⟩ := hgrounded.hosts_of_aliasScope? (hbnodes' ▸ hns)
    (hbnodes' ▸ hroot) hprogram hnode .refl ht
  refine ⟨f, (hadv.vars.shape.node? _).trans hf, ?_, ?_⟩ <;> rw [show l.bound.nodes = _ from hlnodes]
  · exact hhost
  · exact hin

end LoopClosure
