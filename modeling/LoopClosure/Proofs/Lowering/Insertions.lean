import LoopClosure.Proofs.Lowering.Declared
import LoopClosure.Proofs.Lowering.Pieces

/-!
# What a lowering inserts

`Lowering.Inserts l e p ps`: the edit `e` is one that the lowering `l` makes at the node `p`, out of
the pieces `ps`. The edits of a finished lowering are these and no others (`finish_inserts`).

A declaration at the start of a function or program stands in its body (`Bound.startNode`), those in
front of a call, and the checks behind it, in the loop.
-/

namespace LoopClosure

open Syntax Syntax.Nodes Piece Atom

/-- The node that declarations at the start of a scope stand in. -/
def Bound.startNode (b : Bound) (scope : ScopeId) : NodeId :=
  match (b.scopes.node? scope).bind b.nodes.form? with
  | some (.function _ _ _ body _) => body
  | _ => Nodes.root

def Alias.siteKind : Alias → SiteKind
  | .this => .this
  | .arguments => .arguments

/-- The declaration of an alias. -/
def Alias.init (a : Alias) (b : Bound) (target : ScopeId) (name : String) : Edit :=
  let position := Lowering.bodyStart b target
  ⟨.insertAfter, position, position, "var " ++ name ++ " = " ++ a.keyword ++ ";", true⟩

/-! ## Edits -/

/-- What stands for a jump. -/
inductive JumpEdit (ns : Nodes) (n : Names) (site : NodeId) : Edit → List Piece → Prop where
  | leaves {start stop : Nat} {kind : JumpKind} {label parent : Option NodeId}
    (hn : ns.get? site = some ⟨start, stop, .jump kind label, parent⟩)
    (hr : Relay.ofJump? kind (label.bind ns.identifier?) = none) :
    JumpEdit ns n site ⟨.replace, start, stop, "return;", true⟩ [atom (plain "return;")]
  | raises {start stop : Nat} {kind : JumpKind} {label parent : Option NodeId} {r : Relay}
    {flag : String} (hn : ns.get? site = some ⟨start, stop, .jump kind label, parent⟩)
    (hr : Relay.ofJump? kind (label.bind ns.identifier?) = some r)
    (hflag : n.permanent? r.flagKey = some flag) :
    JumpEdit ns n site ⟨.replace, start, stop, raiseText flag, true⟩ (raisePieces flag)

/-- What stands for a `return`, or around its argument. -/
inductive ReturnEdit (ns : Nodes) (n : Names) (site : NodeId) : Edit → List Piece → Prop where
  | raises {start stop : Nat} {argument parent : Option NodeId} {flag : String}
    (hn : ns.get? site = some ⟨start, stop, .returns argument, parent⟩)
    (ha : argument.bind ns.get? = none)
    (hflag : n.permanent? Relay.returnVoid.flagKey = some flag) :
    ReturnEdit ns n site ⟨.replace, start, stop, raiseText flag, true⟩ (raisePieces flag)
  | front {start stop : Nat} {argument parent : Option NodeId} {a : Node} {flag : String}
    (hn : ns.get? site = some ⟨start, stop, .returns argument, parent⟩)
    (ha : argument.bind ns.get? = some a)
    (hflag : n.permanent? (Relay.ofArgument a.form).flagKey = some flag) :
    ReturnEdit ns n site
      ⟨.replace, start, a.start, "\x7b" ++ flag ++ " = true;return ", true⟩
      [atom (plain "\x7b"), atom (use flag), atom (plain " = true;return ")]
  | back {start stop : Nat} {argument parent : Option NodeId} {a : Node}
    (hn : ns.get? site = some ⟨start, stop, .returns argument, parent⟩)
    (ha : argument.bind ns.get? = some a) :
    ReturnEdit ns n site ⟨.insertAfter, stop, stop, "\x7d", true⟩ [atom (plain "\x7d")]

/-- What stands for a keyword whose value is handed in. -/
inductive AliasEdit (ns : Nodes) (n : Names) (a : Alias) (site : NodeId) :
    Edit → List Piece → Prop where
  | mk {node : Node} {name : String} (hn : ns.get? site = some node)
    (hname : n.permanent? a.key = some name) :
    AliasEdit ns n a site ⟨.replace, node.start, node.stop, name, true⟩ [atom (use name)]

/-- What stands for the keyword of a declaration, or a bracket behind the last of its parts. -/
inductive StripEdit (ns : Nodes) (site : NodeId) : Edit → Prop where
  | keyword {start stop : Nat} {keyword : VarKeyword} {declarators : List NodeId}
    {parent : Option NodeId} {text : String}
    (hn : ns.get? site = some ⟨start, stop, .bindings keyword declarators, parent⟩)
    (ht : text ∈ ["", ";", "(", ";("]) : StripEdit ns site ⟨.replace, start, start + 3, text, true⟩
  | bracket {x : NodeId} {n : Node} (hx : x = site ∨ x ∈ ns.children site)
    (hn : ns.get? x = some n) (hname : ns.identifier? x = none) :
    StripEdit ns site ⟨.insertAfter, n.stop, n.stop, ")", true⟩

theorem StripEdit.text_mem {ns : Nodes} {site : NodeId} {e : Edit} (h : StripEdit ns site e) :
    e.text ∈ ["", ";", "(", ";(", ")"] := by
  cases h with
  | keyword _ ht => exact List.mem_append_left [")"] ht
  | bracket => simp

namespace Lowering

variable {l l' l'' : Lowering} {n : Names} {S S' T : Edit → Prop} {i : Nat} {site : NodeId}

/-- The edits made so far. -/
def made (l : Lowering) : List Edit := l.draft.edits.edits.toList

/-- An edit for the body of wrap `i`, apart from those of its declarations. -/
inductive BodyEdit (l : Lowering) (n : Names) (i : Nat) : Edit → NodeId → List Piece → Prop where
  | jump {site : NodeId} {e : Edit} {ps : List Piece} (hs : site ∈ l.sitesOf i .jump)
    (h : JumpEdit l.nodes n site e ps) : BodyEdit l n i e site ps
  | returns {site : NodeId} {e : Edit} {ps : List Piece} (hs : site ∈ l.sitesOf i .returns)
    (h : ReturnEdit l.nodes n site e ps) : BodyEdit l n i e site ps
  | keyword {site : NodeId} {e : Edit} {ps : List Piece} (a : Alias)
    (hs : site ∈ l.sitesOf i a.siteKind) (h : AliasEdit l.nodes n a site e ps) :
    BodyEdit l n i e site ps
  | init {w : Wrap} {target : ScopeId} {name : String} (a : Alias) (hw : l.wraps[i]? = some w)
    (hs : l.sitesOf i a.siteKind ≠ []) (ht : aliasScope? l.bound w.scope = some target)
    (hname : n.permanent? a.key = some name) :
    BodyEdit l n i (a.init l.bound target name) (l.bound.startNode target)
      [atom (plain "var "), var name, atom (plain " = "), atom (plain a.keyword),
        atom (plain ";")]

/-- The pieces of the checks of wrap `i`. -/
def checkPieces (l : Lowering) (i : Nat) : List Piece :=
  (l.exit i).relays.flatMap fun r => r.namedPieces l.draft.names (l.forwardTo? i r).isSome

/-- The edits of a lowering, each with its place and its pieces. -/
inductive Inserts (l : Lowering) : Edit → NodeId → List Piece → Prop where
  | body {i : Nat} {e : Edit} {p : NodeId} {ps : List Piece}
    (h : l.BodyEdit l.draft.names i e p ps) : Inserts l e p ps
  | strip {i : Nat} {site : NodeId} {e : Edit} (hs : site ∈ l.sitesOf i .var) (he : e ∈ l.made)
    (h : StripEdit l.nodes site e) : Inserts l e site [atom (plain e.text)]
  | callStart {i : Nat} {w : Wrap} {body : Node} (hw : l.wraps[i]? = some w)
    (hb : l.nodes.get? w.body = some body) :
    Inserts l (w.callStart body (l.declaredNames i) (l.resultName i)) w.loop
      (w.startPieces (l.declaredNames i) (l.resultName i))
  | callEnd {i : Nat} {w : Wrap} {body : Node} (hw : l.wraps[i]? = some w)
    (hb : l.nodes.get? w.body = some body) :
    Inserts l (w.callEnd body (l.exit i).checks) w.loop (w.endPieces (l.checkPieces i))

/-! ## The tree at later times -/

namespace Advances

theorem get?_view (h : Advances l l') {id : Option ScopeId} {c : Scope}
    (hc : l.bound.scopes.get? id = some c) : ∃ c', l'.bound.scopes.get? id = some c' ∧
      c'.kind = c.kind ∧ c'.flags = c.flags ∧ c'.node = c.node := by
  have hkind := h.vars.kind? id
  have hflags := h.vars.flags id
  have hnode := h.vars.shape.node? id
  rw [Scopes.kind?, Scopes.kind?, hc] at hkind
  obtain ⟨c', hc', hk⟩ := Option.map_eq_some_iff.1 hkind
  rw [Scopes.flags, Scopes.flags, hc, hc'] at hflags
  rw [Scopes.node?, Scopes.node?, hc, hc'] at hnode
  exact ⟨c', hc', hk, hflags, hnode⟩

theorem get?_eq_none_iff (h : Advances l l') (id : Option ScopeId) :
    l'.bound.scopes.get? id = none ↔ l.bound.scopes.get? id = none := by
  have hkind := h.vars.kind? id
  rw [Scopes.kind?, Scopes.kind?] at hkind
  rw [← Option.map_eq_none_iff, hkind, Option.map_eq_none_iff]

theorem aliasScopeAmong (h : Advances l l') (arrow : Option ScopeId) (ids : List ScopeId) :
    Lowering.aliasScopeAmong l'.bound arrow ids = Lowering.aliasScopeAmong l.bound arrow ids := by
  have hform : l'.bound.nodes.form? = l.bound.nodes.form? := congrArg Nodes.form? h.nodes
  induction ids generalizing arrow with
  | nil => rfl
  | cons id ids ih =>
    unfold Lowering.aliasScopeAmong
    cases hc : l.bound.scopes.get? (some id) with
    | none =>
      rw [(h.get?_eq_none_iff _).2 hc]
      exact ih arrow
    | some c =>
      obtain ⟨c', hc', hk, hf, hn⟩ := h.get?_view hc
      rw [hc']
      simp only [Scope.isHoist, hk, hf, hn, hform, ih]

theorem aliasScope? (h : Advances l l') (scope : ScopeId) :
    Lowering.aliasScope? l'.bound scope = Lowering.aliasScope? l.bound scope := by
  unfold Lowering.aliasScope?
  rw [Scopes.walk, h.vars.walkUp, h.aliasScopeAmong]
  rfl

theorem bodyStart (h : Advances l l') (scope : ScopeId) :
    Lowering.bodyStart l'.bound scope = Lowering.bodyStart l.bound scope := by
  have hnodes : l'.bound.nodes = l.bound.nodes := h.nodes
  unfold Lowering.bodyStart
  rw [h.vars.shape.node?, hnodes]

theorem startNode (h : Advances l l') (scope : ScopeId) :
    l'.bound.startNode scope = l.bound.startNode scope := by
  have hnodes : l'.bound.nodes = l.bound.nodes := h.nodes
  unfold Bound.startNode
  rw [h.vars.shape.node?, hnodes]

theorem init (h : Advances l l') (a : Alias) (target : ScopeId) (name : String) :
    a.init l'.bound target name = a.init l.bound target name := by
  rw [Alias.init, h.bodyStart]
  rfl

theorem bodyEdit (h : Advances l l') {e : Edit} {p : NodeId} {ps : List Piece}
    (he : l.BodyEdit n i e p ps) : l'.BodyEdit n i e p ps := by
  cases he with
  | jump hs hj => exact .jump (h.sitesOf i _ ▸ hs) (h.nodes ▸ hj)
  | returns hs hr => exact .returns (h.sitesOf i _ ▸ hs) (h.nodes ▸ hr)
  | keyword a hs ha => exact .keyword a (h.sitesOf i _ ▸ hs) (h.nodes ▸ ha)
  | init a hw hs ht hname =>
    rw [← h.init, ← h.startNode]
    exact .init a (h.wraps ▸ hw) (h.sitesOf i _ ▸ hs) ((h.aliasScope? _).trans ht) hname

theorem bodyEdit_of (h : Advances l l') {e : Edit} {p : NodeId} {ps : List Piece}
    (he : l'.BodyEdit n i e p ps) : l.BodyEdit n i e p ps := by
  cases he with
  | jump hs hj => exact .jump (h.sitesOf i _ ▸ hs) (h.nodes ▸ hj)
  | returns hs hr => exact .returns (h.sitesOf i _ ▸ hs) (h.nodes ▸ hr)
  | keyword a hs ha => exact .keyword a (h.sitesOf i _ ▸ hs) (h.nodes ▸ ha)
  | init a hw hs ht hname =>
    rw [h.init, h.startNode]
    exact .init a (h.wraps ▸ hw) (h.sitesOf i _ ▸ hs) ((h.aliasScope? _).symm.trans ht) hname

end Advances

/-! ## Steps -/

/-- The aliases that are noted are declared. -/
def AliasesMade (l : Lowering) (n : Names) : Prop :=
  ∀ target a, (target, a) ∈ l.aliases → ∃ name, n.permanent? a.key = some name ∧
    a.init l.bound target name ∈ l.made

theorem AliasesMade.mono (ha : l.AliasesMade n) (hadv : Advances l l')
    (halias : l'.aliases = l.aliases) (hsub : ∀ e ∈ l.made, e ∈ l'.made) : l'.AliasesMade n := by
  intro target a hmem
  obtain ⟨name, hname, he⟩ := ha target a (halias ▸ hmem)
  exact ⟨name, hname, hsub _ (hadv.init a target name ▸ he)⟩

/-- A step that makes the edits `S` and maybe some of `T`. -/
structure Splices (n : Names) (S T : Edit → Prop) (l l' : Lowering) : Prop where
  old : ∀ e ∈ l.made, e ∈ l'.made
  only : ∀ e ∈ l'.made, e ∈ l.made ∨ S e ∨ T e
  new : l.AliasesMade n → ∀ e, S e → e ∈ l'.made
  aliases : l.AliasesMade n → l'.AliasesMade n

namespace Splices

theorem congr (h : Splices n S T l l') (hS : ∀ e, S e ↔ S' e) : Splices n S' T l l' where
  old := h.old
  only e he := (h.only e he).imp_right fun h => h.imp_left (hS e).1
  new ha e he := h.new ha e ((hS e).2 he)
  aliases := h.aliases

theorem trans (h : Splices n S T l l') (h' : Splices n S' T l' l'') :
    Splices n (fun e => S e ∨ S' e) T l l'' where
  old e he := h'.old e (h.old e he)
  only e he := by
    rcases h'.only e he with he | he | he
    · exact (h.only e he).imp_right fun h => h.imp_left .inl
    · exact .inr (.inl (.inr he))
    · exact .inr (.inr he)
  new ha e he := he.elim (fun he => h'.old e (h.new ha e he)) fun he => h'.new (h.aliases ha) e he
  aliases ha := h'.aliases (h.aliases ha)

theorem weaken {T' : Edit → Prop} (h : Splices n S T l l') (hT : ∀ e, T e → T' e) :
    Splices n S T' l l' :=
  { h with only := fun e he => (h.only e he).imp_right fun h => h.imp_right (hT e) }

/-- A step that makes the edits `es`. -/
theorem of_append (hadv : Advances l l') (halias : l'.aliases = l.aliases) {es : List Edit}
    (hes : l'.made = l.made ++ es) (hS : ∀ e ∈ es, S e ∨ T e) (hmade : ∀ e, S e → e ∈ es) :
    Splices n S T l l' where
  old e he := hes ▸ List.mem_append_left _ he
  only e he := by
    rw [hes] at he
    exact (List.mem_append.1 he).imp_right (hS e)
  new _ e he := hes ▸ List.mem_append_right _ (hmade e he)
  aliases ha := ha.mono hadv halias fun e he => hes ▸ List.mem_append_left _ he

theorem of_made (hadv : Advances l l') (halias : l'.aliases = l.aliases) (hmade : l'.made = l.made) :
    Splices n (fun _ => False) T l l' :=
  of_append hadv halias (hmade.trans (List.append_nil _).symm) (fun _ h => (nomatch h))
    fun _ h => h.elim

theorem refl (l : Lowering) : Splices n (fun _ => False) T l l := of_made (.refl l) rfl rfl

theorem foldlM {α : Type} {step : Lowering → α → Except Failure Lowering}
    {E : α → Edit → Prop} {as : List α} (hadv : ∀ {t t' a}, step t a = .ok t' → Advances t t')
    (hn : l'.draft.names.Extends n)
    (hstep : ∀ t t' a, a ∈ as → Advances l t → t'.draft.names.Extends n → step t a = .ok t' →
      Splices n (E a) T t t')
    (h : as.foldlM step l = .ok l') : Splices n (fun e => ∃ a ∈ as, E a e) T l l' := by
  induction as generalizing l with
  | nil =>
    rw [List.foldlM_nil, pure_eq_ok] at h
    exact h ▸ (refl l).congr fun e => by simp
  | cons a as ih =>
    obtain ⟨t, ht, h⟩ := foldlM_cons_eq_ok.1 h
    have hrest : Advances t l' := foldlM_rel Advances.refl Advances.trans
      (fun _ _ _ _ _ hs => hadv hs) h
    have hfirst := hstep l t a List.mem_cons_self (.refl l) (hrest.names.trans hn) ht
    exact (hfirst.trans (ih (fun s s' x hx hs => hstep s s' x (List.mem_cons_of_mem _ hx)
      ((hadv ht).trans hs)) h)).congr fun e => by simp

theorem foldl {α : Type} {step : Lowering → α → Lowering} {E : α → Edit → Prop} {as : List α}
    (hstep : ∀ t a, a ∈ as → Advances l t → Advances t (step t a) ∧ Splices n (E a) T t (step t a)) :
    Splices n (fun e => ∃ a ∈ as, E a e) T l (as.foldl step l) := by
  induction as generalizing l with
  | nil => exact (refl l).congr fun e => by simp
  | cons a as ih =>
    obtain ⟨hadv, hfirst⟩ := hstep l a List.mem_cons_self (.refl l)
    exact (hfirst.trans (ih fun s x hx hs => hstep s x (List.mem_cons_of_mem _ hx)
      (hadv.trans hs))).congr fun e => by simp

end Splices

theorem made_replace (l : Lowering) (start stop : Nat) (text : String) :
    (l.replace start stop text).made = l.made ++ [⟨.replace, start, stop, text, true⟩] :=
  Array.toList_push

theorem made_insertAfter (l : Lowering) (position : Nat) (text : String) :
    (l.insertAfter position text).made =
      l.made ++ [⟨.insertAfter, position, position, text, true⟩] := Array.toList_push

theorem permanentName_made {key name : String} (h : l.permanentName key = .ok (l', name)) :
    l'.made = l.made ∧ l'.aliases = l.aliases := by
  obtain ⟨⟨d, name'⟩, hd, h⟩ := bind_eq_ok.1 h
  cases h
  obtain ⟨⟨names, name''⟩, hnames, hd⟩ := bind_eq_ok.1 hd
  cases hd
  exact ⟨rfl, rfl⟩

theorem permanent?_permanentName {key name : String} (h : l.permanentName key = .ok (l', name))
    (hn : l'.draft.names.Extends n) : n.permanent? key = some name :=
  hn.kept (permanentName_quiet (P := fun _ => True) h).2

theorem adaptJump_splices (h : adaptJump i l site = .ok l') (hn : l'.draft.names.Extends n) :
    Splices n (fun e => ∃ ps, JumpEdit l.nodes n site e ps) T l l' := by
  have hadv := (adaptJump_records h).toAdvances
  unfold adaptJump at h
  split at h
  · next start stop kind label parent hg =>
    split at h
    · next hnone =>
      cases h
      refine .of_append hadv rfl (made_replace _ _ _ _) (fun e he => ?_) ?_
      · rw [List.mem_singleton.1 he]
        exact .inl ⟨_, .leaves hg hnone⟩
      · rintro e ⟨ps, hg' | ⟨hg', hr', -⟩⟩
        · cases hg.symm.trans hg'
          exact List.mem_singleton_self _
        · cases hg.symm.trans hg'
          rw [hnone] at hr'
          cases hr'
    · next r hr =>
      obtain ⟨⟨l₁, flag⟩, hname, h⟩ := bind_eq_ok.1 h
      cases h
      obtain ⟨hmade, halias⟩ := permanentName_made hname
      have hflag : n.permanent? r.flagKey = some flag := permanent?_permanentName hname hn
      refine .of_append hadv halias (hmade ▸ made_replace l₁ _ _ _) (fun e he => ?_) ?_
      · rw [List.mem_singleton.1 he]
        exact .inl ⟨_, .raises hg hr hflag⟩
      · rintro e ⟨ps, ⟨hg', hr'⟩ | ⟨hg', hr', hflag'⟩⟩
        · cases hg.symm.trans hg'
          rw [hr] at hr'
          cases hr'
        · cases hg.symm.trans hg'
          cases hr.symm.trans hr'
          cases hflag.symm.trans hflag'
          exact List.mem_singleton_self _
  · next hform =>
    cases h
    refine (Splices.refl l).congr fun e => ⟨False.elim, ?_⟩
    rintro ⟨ps, hg | hg⟩ <;> exact hform _ _ _ _ _ hg

theorem adaptReturn_splices (h : adaptReturn i l site = .ok l') (hn : l'.draft.names.Extends n) :
    Splices n (fun e => ∃ ps, ReturnEdit l.nodes n site e ps) T l l' := by
  have hadv := (adaptReturn_records h).toAdvances
  unfold adaptReturn at h
  split at h
  · next start stop argument parent hg =>
    split at h
    · next hnone =>
      obtain ⟨⟨l₁, flag⟩, hname, h⟩ := bind_eq_ok.1 h
      cases h
      obtain ⟨hmade, halias⟩ := permanentName_made hname
      have hflag := permanent?_permanentName hname hn
      refine .of_append hadv halias (hmade ▸ made_replace l₁ _ _ _) (fun e he => ?_) ?_
      · rw [List.mem_singleton.1 he]
        exact .inl ⟨_, .raises hg hnone hflag⟩
      · rintro e ⟨ps, ⟨hg', -, hflag'⟩ | ⟨hg', ha, -⟩ | ⟨hg', ha⟩⟩
        · cases hg.symm.trans hg'
          cases hflag.symm.trans hflag'
          exact List.mem_singleton_self _
        all_goals
          cases hg.symm.trans hg'
          cases hnone.symm.trans ha
    · next a hsome =>
      obtain ⟨⟨l₁, flag⟩, hname, h⟩ := bind_eq_ok.1 h
      cases h
      obtain ⟨hmade, halias⟩ := permanentName_made hname
      have hflag := permanent?_permanentName hname hn
      have hes : (((l₁.replace start a.start ("\x7b" ++ flag ++ " = true;return ")).insertAfter stop
          "\x7d").addRelay i (Relay.ofArgument a.form)).made = l.made ++
            [⟨.replace, start, a.start, "\x7b" ++ flag ++ " = true;return ", true⟩,
              ⟨.insertAfter, stop, stop, "\x7d", true⟩] := by
        rw [← hmade]
        change ((l₁.replace _ _ _).insertAfter _ _).made = _
        rw [made_insertAfter, made_replace, List.append_assoc]
        rfl
      refine .of_append hadv halias hes (fun e he => ?_) ?_
      · simp only [List.mem_cons, List.not_mem_nil, or_false] at he
        rcases he with rfl | rfl
        · exact .inl ⟨_, .front hg hsome hflag⟩
        · exact .inl ⟨_, .back hg hsome⟩
      · rintro e ⟨ps, ⟨hg', ha, -⟩ | ⟨hg', ha, hflag'⟩ | ⟨hg', ha⟩⟩
        · cases hg.symm.trans hg'
          cases hsome.symm.trans ha
        · cases hg.symm.trans hg'
          cases hsome.symm.trans ha
          cases hflag.symm.trans hflag'
          exact List.mem_cons_self
        · cases hg.symm.trans hg'
          exact List.mem_cons_of_mem _ List.mem_cons_self
  · next hform =>
    cases h
    refine (Splices.refl l).congr fun e => ⟨False.elim, ?_⟩
    rintro ⟨ps, hg | hg | hg⟩ <;> exact hform _ _ _ _ hg

theorem declare_made {scope : Option ScopeId} {name : String} (h : l.declare scope name = .ok l') :
    l'.made = l.made ∧ l'.aliases = l.aliases := by
  unfold declare at h
  dsimp only at h
  split at h
  · cases h
  · obtain ⟨d, hd, rfl⟩ := map_eq_ok.1 h
    unfold Draft.declareVar at hd
    split at hd
    · cases hd
      exact ⟨rfl, rfl⟩
    · cases hd

/-- The declaration of an alias is made once. -/
theorem aliasFor_splices {a : Alias} {scope : ScopeId} {name : String}
    (h : aliasFor a scope site l = .ok (l', name)) (hn : l'.draft.names.Extends n) :
    n.permanent? a.key = some name ∧ ∃ target, aliasScope? l.bound scope = some target ∧
      Splices n (fun e => e = a.init l.bound target name) T l l' := by
  have hadv := (aliasFor_records h).toAdvances
  unfold aliasFor at h
  split at h
  · cases h
  · next target htarget =>
    obtain ⟨⟨l₁, name'⟩, hname, h⟩ := bind_eq_ok.1 h
    obtain ⟨hmade, halias⟩ := permanentName_made hname
    have h₁ := (permanentName_records hname).toAdvances
    dsimp only at h
    split at h
    · next hthere =>
      cases h
      have hkey := permanent?_permanentName hname hn
      refine ⟨hkey, target, htarget, ⟨fun e he => hmade ▸ he, fun e he => .inl (hmade ▸ he),
        fun ha e he => ?_, fun ha => ?_⟩⟩
      · obtain ⟨name', hname', hmem⟩ := ha target a (halias ▸ List.contains_iff_mem.1 hthere)
        cases hkey.symm.trans hname'
        rw [he, hmade]
        exact hmem
      · exact ha.mono hadv halias fun e he => hmade ▸ he
    · obtain ⟨l₂, hdeclare, h⟩ := bind_eq_ok.1 h
      cases h
      have hkey : n.permanent? a.key = some name :=
        ((declare_records hdeclare).names.trans hn).kept
          (permanentName_quiet (P := fun _ => True) hname).2
      obtain ⟨hmade', halias'⟩ := declare_made hdeclare
      have hes : l'.made = l.made ++ [a.init l.bound target name] := by
        rw [hmade', made_insertAfter, ← h₁.init]
        exact congrArg (· ++ _) hmade
      refine ⟨hkey, target, htarget, ⟨fun e he => hes ▸ List.mem_append_left _ he,
        fun e he => ?_, fun _ e he => ?_, fun ha t b hmem => ?_⟩⟩
      · rw [hes] at he
        exact (List.mem_append.1 he).imp_right fun he => .inl (List.mem_singleton.1 he)
      · rw [he, hes]
        exact List.mem_append_right _ (List.mem_singleton_self _)
      · rw [halias'] at hmem
        rcases List.mem_cons.1 hmem with heq | hmem
        · cases heq
          refine ⟨name, hkey, ?_⟩
          rw [hadv.init, hes]
          exact List.mem_append_right _ (List.mem_singleton_self _)
        · obtain ⟨name', hname', he⟩ := ha t b (halias ▸ hmem)
          refine ⟨name', hname', ?_⟩
          rw [hadv.init, hes]
          exact List.mem_append_left _ he

theorem putAlias_advances (l : Lowering) (name : String) (sites : List NodeId) :
    Advances l (sites.foldl (fun l site =>
      match l.nodes.get? site with
      | some n => l.replace n.start n.stop name
      | none => l) l) :=
  foldl_rel Advances.refl Advances.trans fun t site _ _ => by
    split
    · exact (replace_records _ _ _ _).toAdvances
    · exact .refl t

/-- Each of the sites of a keyword is replaced by its variable. -/
theorem putAlias_splices {a : Alias} {name : String} (hname : n.permanent? a.key = some name)
    (sites : List NodeId) : Splices n (fun e => ∃ site ∈ sites, ∃ ps,
      AliasEdit l.nodes n a site e ps) T l (sites.foldl (fun l site =>
        match l.nodes.get? site with
        | some n => l.replace n.start n.stop name
        | none => l) l) := by
  refine Splices.foldl fun t site _ ht => ?_
  cases hg : t.nodes.get? site with
  | none =>
    refine ⟨.refl t, (Splices.refl t).congr fun e => ⟨False.elim, ?_⟩⟩
    rintro ⟨ps, ⟨hg', -⟩⟩
    rw [← ht.nodes, hg] at hg'
    cases hg'
  | some node =>
    have hadv := (replace_records t node.start node.stop name).toAdvances
    refine ⟨hadv, .of_append hadv rfl (made_replace _ _ _ _) (fun e he => ?_) ?_⟩
    · rw [List.mem_singleton.1 he]
      exact .inl ⟨_, .mk (ht.nodes ▸ hg) hname⟩
    · rintro e ⟨ps, ⟨hg', hname'⟩⟩
      rw [← ht.nodes] at hg'
      cases hg.symm.trans hg'
      cases hname.symm.trans hname'
      exact List.mem_singleton_self _

theorem adaptAlias_splices {a : Alias} {scope : ScopeId} {sites : List NodeId}
    (h : adaptAlias a scope l sites = .ok l') (hn : l'.draft.names.Extends n) :
    Splices n (fun e => (sites ≠ [] ∧ ∃ target name, aliasScope? l.bound scope = some target ∧
      n.permanent? a.key = some name ∧ e = a.init l.bound target name) ∨
        ∃ site ∈ sites, ∃ ps, AliasEdit l.nodes n a site e ps) T l l' := by
  unfold adaptAlias at h
  split at h
  · cases h
    exact (Splices.refl l).congr fun e => by simp
  · next first rest =>
    obtain ⟨⟨l₁, name⟩, hname, h⟩ := bind_eq_ok.1 h
    cases h
    have h₁ := (aliasFor_records hname).toAdvances
    have hput := putAlias_advances l₁ name (first :: rest)
    obtain ⟨hkey, target, htarget, hinit⟩ := aliasFor_splices (T := T) hname (hput.names.trans hn)
    refine (hinit.trans (h₁.nodes ▸ putAlias_splices hkey _)).congr fun e => or_congr_left ?_
    constructor
    · exact fun he => ⟨List.cons_ne_nil _ _, target, name, htarget, hkey, he⟩
    · rintro ⟨-, target', name', htarget', hkey', he⟩
      cases htarget.symm.trans htarget'
      cases hkey.symm.trans hkey'
      exact he

/-- A keyword that occurs has a variable, and a scope for it. -/
theorem adaptAlias_named {a : Alias} {scope : ScopeId} {sites : List NodeId}
    (h : adaptAlias a scope l sites = .ok l') (hsites : sites ≠ [])
    (hn : l'.draft.names.Extends n) :
    ∃ target name, aliasScope? l.bound scope = some target ∧ n.permanent? a.key = some name := by
  unfold adaptAlias at h
  split at h
  · exact absurd rfl hsites
  · next first rest =>
    obtain ⟨⟨l₁, name⟩, hname, h⟩ := bind_eq_ok.1 h
    cases h
    obtain ⟨hkey, target, htarget, -⟩ := aliasFor_splices (T := fun _ => False) hname
      ((putAlias_advances l₁ name (first :: rest)).names.trans hn)
    exact ⟨target, name, htarget, hkey⟩

/-- The last part of a declaration ends where one of its declarators, or all of it, ends. -/
theorem exists_last {start stop : Nat} {keyword : VarKeyword} {declarators : List NodeId}
    {parent : Option NodeId} {ns : Nodes}
    (hn : ns.get? site = some ⟨start, stop, .bindings keyword declarators, parent⟩) :
    ∃ x n, (x = site ∨ x ∈ ns.children site) ∧ ns.get? x = some n ∧ ns.identifier? x = none ∧
      n.stop = (((declarators.filterMap fun d =>
        match ns.get? d with
        | some ⟨_, stop, .declarator target _, _⟩ => some (target, stop)
        | _ => none).getLast?).map (·.2)).getD stop := by
  generalize htargets : (declarators.filterMap fun d => _) = targets
  cases hlast : targets.getLast? with
  | none => exact ⟨site, _, .inl rfl, hn, by simp [identifier?, form?, hn], rfl⟩
  | some last =>
    have hmem := List.mem_of_getLast? hlast
    rw [← htargets] at hmem
    obtain ⟨d, hd, hlast⟩ := List.mem_filterMap.1 hmem
    split at hlast
    · next hdn =>
      cases hlast
      exact ⟨d, _, .inr (by simpa [children, hn, Form.children] using hd), hdn,
        by simp [identifier?, form?, hdn], rfl⟩
    · cases hlast

theorem stripVar_splices (root : Nat) (l : Lowering) (site : NodeId) :
    Splices n (fun _ => False) (StripEdit l.nodes site) l (stripVar root l site) := by
  unfold stripVar
  split
  · next start stop keyword declarators parent hn =>
    obtain ⟨x, m, hx, hm, hname, hstop⟩ := exists_last hn
    extract_lets targets l₁ keywordEnd place instead isPattern last
    have hlast : m.stop = last := hstop
    have h₁ : Records _ l l₁ := addDeclared_records l root _
    have hinstead : instead = "" ∨ instead = ";" := by
      dsimp only [instead]
      split
      · exact .inr rfl
      · exact .inl rfl
    split
    · have hadv := ((h₁.thenNothing (replace_records l₁ start keywordEnd (instead ++ "("))).thenNothing
        (insertAfter_records _ last ")")).toAdvances
      have hes : ((l₁.replace start keywordEnd (instead ++ "(")).insertAfter last ")").made =
          l.made ++ [⟨.replace, start, keywordEnd, instead ++ "(", true⟩,
            ⟨.insertAfter, last, last, ")", true⟩] := by
        rw [made_insertAfter, made_replace, List.append_assoc]
        rfl
      refine .of_append hadv rfl hes (fun e he => .inr ?_) fun _ h => h.elim
      simp only [List.mem_cons, List.not_mem_nil, or_false] at he
      rcases he with rfl | rfl
      · exact .keyword hn (by rcases hinstead with h | h <;> simp [h])
      · exact hlast ▸ .bracket hx hm hname
    · have hadv := (h₁.thenNothing (replace_records l₁ start keywordEnd instead)).toAdvances
      refine .of_append hadv rfl (made_replace l₁ _ _ _) (fun e he => .inr ?_) fun _ h => h.elim
      rw [List.mem_singleton.1 he]
      exact .keyword hn (by rcases hinstead with h | h <;> simp [h])
  · exact .refl l

/-! ## All bodies -/

/-- The keyword of a declaration in a body, or a bracket behind it. -/
def Strips (l : Lowering) (e : Edit) : Prop :=
  ∃ i site, site ∈ l.sitesOf i .var ∧ StripEdit l.nodes site e

theorem adaptBody_splices (h : adaptBody l i = .ok l') (hn : l'.draft.names.Extends n) :
    Splices n (fun e => ∃ p ps, l.BodyEdit n i e p ps) l.Strips l l' := by
  cases hw : l.wraps[i]? with
  | none =>
    have hsites (kind : SiteKind) : l.sitesOf i kind = [] := by simp [sitesOf, sites, hw]
    unfold adaptBody at h
    rw [hw] at h
    cases h
    refine (Splices.refl l).congr fun e => ⟨False.elim, ?_⟩
    rintro ⟨p, ps, ⟨hs, -⟩ | ⟨hs, -⟩ | ⟨a, hs, -⟩ | ⟨a, hw', -⟩⟩
    all_goals simp_all
  | some w =>
    obtain ⟨l₁, l₂, l₃, l₄, h₁, h₂, h₃, h₄, rfl⟩ := adaptBody_rounds hw h
    have hadv₁ := (Records.foldlM_nothing adaptJump_records h₁).toAdvances
    have hadv₂ := (Records.foldlM_nothing adaptReturn_records h₂).toAdvances
    have hadv₃ := (adaptAlias_records h₃).toAdvances
    have hadv₄ := (adaptAlias_records h₄).toAdvances
    have hadv₅ : Advances l₄ ((l.sitesOf i .var).foldl (stripVar (l₄.outermost i)) l₄) :=
      foldl_rel Advances.refl Advances.trans fun t site _ _ => (stripVar_records _ t site).toAdvances
    have hn₄ := hadv₅.names.trans hn
    have hn₃ := hadv₄.names.trans hn₄
    have hn₂ := hadv₃.names.trans hn₃
    have hn₁ := hadv₂.names.trans hn₂
    have hs₁ : Splices n (fun e => ∃ site ∈ l.sitesOf i .jump, ∃ ps,
        JumpEdit l.nodes n site e ps) l.Strips l l₁ :=
      .foldlM (fun ht => (adaptJump_records ht).toAdvances) hn₁
        (fun t t' site _ ht hn hstep => ht.nodes ▸ adaptJump_splices hstep hn) h₁
    have hs₂ : Splices n (fun e => ∃ site ∈ l.sitesOf i .returns, ∃ ps,
        ReturnEdit l.nodes n site e ps) l.Strips l₁ l₂ :=
      .foldlM (fun ht => (adaptReturn_records ht).toAdvances) hn₂
        (fun t t' site _ ht hn hstep =>
          (hadv₁.trans ht).nodes ▸ adaptReturn_splices hstep hn) h₂
    have hs₃ := adaptAlias_splices (T := l.Strips) h₃ hn₃
    have hs₄ := adaptAlias_splices (T := l.Strips) h₄ hn₄
    have hadv₁₄ := ((hadv₁.trans hadv₂).trans hadv₃).trans hadv₄
    have hs₅ : Splices n (fun e => ∃ site ∈ l.sitesOf i .var, False) l.Strips l₄ _ :=
      .foldl fun t site hsite ht => ⟨(stripVar_records (l₄.outermost i) t site).toAdvances,
        (stripVar_splices _ t site).weaken fun e he => ⟨i, site, hsite, hadv₁₄.nodes ▸ ht.nodes ▸ he⟩⟩
    refine ((((hs₁.trans hs₂).trans hs₃).trans hs₄).trans hs₅).congr fun e => ?_
    have hadv₁₂ := hadv₁.trans hadv₂
    have hadv₁₃ := hadv₁₂.trans hadv₃
    rw [hadv₁₂.aliasScope?, hadv₁₃.aliasScope?, hadv₁₂.nodes, hadv₁₃.nodes]
    simp only [hadv₁₂.init, hadv₁₃.init]
    constructor
    · rintro ((((⟨site, hs, ps, hj⟩ | ⟨site, hs, ps, hr⟩) | ⟨hs, target, name, ht, hname, rfl⟩ |
        ⟨site, hs, ps, ha⟩) | ⟨hs, target, name, ht, hname, rfl⟩ | ⟨site, hs, ps, ha⟩) |
        ⟨site, -, hf⟩)
      · exact ⟨site, ps, .jump hs hj⟩
      · exact ⟨site, ps, .returns hs hr⟩
      · exact ⟨_, _, .init .this hw hs ht hname⟩
      · exact ⟨site, ps, .keyword .this hs ha⟩
      · exact ⟨_, _, .init .arguments hw hs ht hname⟩
      · exact ⟨site, ps, .keyword .arguments hs ha⟩
      · exact hf.elim
    · rintro ⟨p, ps, ⟨hs, hj⟩ | ⟨hs, hr⟩ | ⟨a, hs, ha⟩ | ⟨a, hw', hs, ht, hname⟩⟩
      · exact .inl (.inl (.inl (.inl ⟨p, hs, ps, hj⟩)))
      · exact .inl (.inl (.inl (.inr ⟨p, hs, ps, hr⟩)))
      · cases a with
        | this => exact .inl (.inl (.inr (.inr ⟨p, hs, ps, ha⟩)))
        | arguments => exact .inl (.inr (.inr ⟨p, hs, ps, ha⟩))
      · cases hw.symm.trans hw'
        cases a with
        | this => exact .inl (.inl (.inr (.inl ⟨hs, _, _, ht, hname, rfl⟩)))
        | arguments => exact .inl (.inr (.inl ⟨hs, _, _, ht, hname, rfl⟩))

theorem adaptBody_named {w : Wrap} (hw : l.wraps[i]? = some w) (h : adaptBody l i = .ok l')
    (hn : l'.draft.names.Extends n) (a : Alias) (hs : l.sitesOf i a.siteKind ≠ []) :
    ∃ target name, aliasScope? l.bound w.scope = some target ∧ n.permanent? a.key = some name := by
  obtain ⟨l₁, l₂, l₃, l₄, h₁, h₂, h₃, h₄, rfl⟩ := adaptBody_rounds hw h
  have hadv₂ := (Records.foldlM_nothing adaptJump_records h₁).toAdvances.trans
    (Records.foldlM_nothing adaptReturn_records h₂).toAdvances
  have hadv₃ := hadv₂.trans (adaptAlias_records h₃).toAdvances
  have hn₄ : l₄.draft.names.Extends n := (foldl_rel Advances.refl Advances.trans
    fun t site _ _ => (stripVar_records _ t site).toAdvances).names.trans hn
  cases a with
  | this =>
    obtain ⟨target, name, ht, hname⟩ :=
      adaptAlias_named h₃ hs ((adaptAlias_records h₄).names.trans hn₄)
    exact ⟨target, name, (hadv₂.aliasScope? _).symm.trans ht, hname⟩
  | arguments =>
    obtain ⟨target, name, ht, hname⟩ := adaptAlias_named h₄ hs hn₄
    exact ⟨target, name, (hadv₃.aliasScope? _).symm.trans ht, hname⟩

theorem Advances.strips (h : Advances l l') {e : Edit} (he : l'.Strips e) : l.Strips e := by
  obtain ⟨i, site, hs, ht⟩ := he
  exact ⟨i, site, h.sitesOf i _ ▸ hs, h.nodes ▸ ht⟩

theorem adaptBodies_splices (h : l.inSourceOrder.foldlM adaptBody l = .ok l')
    (hn : l'.draft.names.Extends n) :
    Splices n (fun e => ∃ i p ps, l.BodyEdit n i e p ps) l.Strips l l' := by
  have hround := Splices.foldlM (T := l.Strips) (E := fun i e => ∃ p ps, l.BodyEdit n i e p ps)
    (fun ht => (adaptBody_records ht).toAdvances) hn (fun t t' i _ ht hn hstep =>
      ((adaptBody_splices hstep hn).congr fun e =>
        ⟨fun ⟨p, ps, he⟩ => ⟨p, ps, ht.bodyEdit_of he⟩,
          fun ⟨p, ps, he⟩ => ⟨p, ps, ht.bodyEdit he⟩⟩).weaken fun e => ht.strips) h
  refine hround.congr fun e => ⟨fun ⟨i, _, he⟩ => ⟨i, he⟩, fun ⟨i, p, ps, he⟩ => ⟨i, ?_, p, ps, he⟩⟩
  refine mem_inSourceOrder.2 (Nat.lt_of_not_le fun hle => ?_)
  have hw := Array.getElem?_eq_none hle
  have hsites (kind : SiteKind) : l.sitesOf i kind = [] := by simp [sitesOf, sites, hw]
  cases he <;> simp_all

/-! ## All edits -/

theorem Writes.made_eq (h : Writes (fun _ => False) l l') : l'.made = l.made := h.edits_eq

theorem finish_inserts (hn : l.Nested) (hsize : l.exits.size = l.wraps.size)
    (hempty : ∀ k, l.exit k = {}) (hmade : l.made = []) (halias : l.aliases = [])
    (h : l.finish = .ok l') (e : Edit) : e ∈ l'.made ↔ ∃ p ps, l'.Inserts e p ps := by
  have hfinished := (finish_finished hn hsize hempty h).2
  have hall := (finish_records hn hsize hempty h).toAdvances
  obtain ⟨l₁, l₂, h₁, h₂, h₃, -, hw₂, hw₃⟩ := finish_cases hsize h
  have hs := adaptBodies_splices h₁ (hw₂.names.trans hw₃.names)
  have hkept {e : Edit} (he : e ∈ l₁.made) : e ∈ l'.made := by
    rw [← hw₂.made_eq] at he
    exact hw₃.mem_edits he
  constructor
  · intro he
    rw [made, writeCalls_edits h₃] at he
    rcases List.mem_append.1 he with he | he
    · rw [← made, hw₂.made_eq] at he
      rcases hs.only e he with he' | ⟨i, p, ps, hb⟩ | ⟨i, site, hsite, ht⟩
      · rw [hmade] at he'
        cases he'
      · exact ⟨p, ps, .body (hall.bodyEdit hb)⟩
      · exact ⟨site, _, .strip ((hall.sitesOf i _).symm ▸ hsite) (hkept he) (hall.nodes.symm ▸ ht)⟩
    · obtain ⟨i, -, he⟩ := List.mem_flatMap.1 he
      obtain ⟨w, body, hw, hb, rfl | rfl⟩ := mem_callEdits.1 he
      · exact ⟨_, _, .callStart hw hb⟩
      · exact ⟨_, _, .callEnd hw hb⟩
  · rintro ⟨p, ps, hb | ⟨-, he, -⟩ | ⟨hw, hb⟩ | ⟨hw, hb⟩⟩
    · refine hkept (hs.new (fun t a ht => ?_) e ⟨_, p, ps, hall.bodyEdit_of hb⟩)
      rw [halias] at ht
      cases ht
    · exact he
    · exact (hfinished.calls _ (Array.getElem?_eq_some_iff.1 hw).1 _ _ hw hb).2.1
    · exact (hfinished.calls _ (Array.getElem?_eq_some_iff.1 hw).1 _ _ hw hb).2.2

theorem finish_named (hn : l.Nested) (hsize : l.exits.size = l.wraps.size)
    (hempty : ∀ k, l.exit k = {}) (h : l.finish = .ok l') {w : Wrap} (hw : l'.wraps[i]? = some w)
    (a : Alias) (hs : l'.sitesOf i a.siteKind ≠ []) : ∃ target name,
      aliasScope? l'.bound w.scope = some target ∧ l'.draft.names.permanent? a.key = some name := by
  have hall := (finish_records hn hsize hempty h).toAdvances
  obtain ⟨l₁, l₂, h₁, h₂, h₃, -, hw₂, hw₃⟩ := finish_cases hsize h
  rw [hall.wraps] at hw
  obtain ⟨t, t', ht, hstep, ht'⟩ := foldlM_exists_step (R := Advances) Advances.refl Advances.trans
    (mem_inSourceOrder.2 (Array.getElem?_eq_some_iff.1 hw).1)
    (fun _ _ _ _ _ hstep => (adaptBody_records hstep).toAdvances) h₁
  obtain ⟨target, name, htarget, hname⟩ := adaptBody_named (ht.wraps ▸ hw) hstep
    (ht'.names.trans (hw₂.names.trans hw₃.names)) a (by rwa [ht.sitesOf, ← hall.sitesOf])
  exact ⟨target, name, by rw [hall.aliasScope?, ← ht.aliasScope?, htarget], hname⟩

theorem Checked.render_checkPieces (h : l.Checked i) :
    String.join (l.exit i).checks = render (l.checkPieces i) := by
  rw [checkPieces, render_flatMap]
  refine congrArg String.join ?_
  unfold Checked at h
  generalize (l.exit i).relays = relays, (l.exit i).checks = checks at h
  induction h with
  | nil => rfl
  | cons hc _ ih => rw [List.map_cons, Relay.render_namedPieces hc, ← ih]

/-- The text of an edit is that of its pieces. -/
theorem Finished.text_eq (hf : l.Finished) {e : Edit} {p : NodeId} {ps : List Piece}
    (h : l.Inserts e p ps) : e.text = render ps := by
  cases h with
  | body h =>
    cases h with
    | jump _ h =>
      cases h with
      | leaves => simp [render, Piece.text, Atom.text]
      | raises => exact (render_raisePieces _).symm
    | returns _ h =>
      cases h with
      | raises => exact (render_raisePieces _).symm
      | front => simp [render, Piece.text, Atom.text, String.append_assoc]
      | back => simp [render, Piece.text, Atom.text]
    | keyword a _ h =>
      cases h
      simp [render, Piece.text, Atom.text]
    | init a => simp [Alias.init, render, Piece.text, Atom.text, String.append_assoc]
  | strip => simp [render, Piece.text, Atom.text]
  | callStart => exact Wrap.text_callStart _ _ _ _
  | callEnd hw =>
    exact Wrap.text_callEnd _ _
      (hf.checked _ (Array.getElem?_eq_some_iff.1 hw).1).render_checkPieces

end Lowering

end LoopClosure
