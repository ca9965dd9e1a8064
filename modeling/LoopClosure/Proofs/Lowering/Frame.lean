import LoopClosure.Lowering.Lower
import LoopClosure.Proofs.Draft.Fresh
import LoopClosure.Proofs.Scope.Table

/-!
# What the rewriting of bodies keeps

Once the wraps are known, `finish` writes edits, gives out names and notes exits.

- `Lowering.Keeps`: of the bound unit only declarations change.
- `Lowering.Writes P`: edits are added that satisfy `P`, and no name is taken back. What is replaced
  begins where a site of a wrapped body begins (`finish_spec`).
- `Lowering.Quiet P`: relays and checks stay, too.
- `Lowering.Adds P i rs`: relays of wrap `i` are added, and checks stay.
-/

namespace LoopClosure

open Syntax Scopes

/-- What an edit replaces begins where one of `sites` begins. -/
structure Edit.At (ns : Nodes) (sites : List NodeId) (e : Edit) : Prop where
  active : e.active = true
  site : e.isReplacement = true → ∃ s ∈ sites, ∃ n, ns.get? s = some n ∧ e.start = n.start

theorem Edit.At.mono {ns : Nodes} {sites sites' : List NodeId} {e : Edit}
    (hsub : sites ⊆ sites') (h : e.At ns sites) : e.At ns sites' := by
  refine ⟨h.active, fun hr => ?_⟩
  obtain ⟨s, hs, hn⟩ := h.site hr
  exact ⟨s, hsub hs, hn⟩

namespace Lowering

variable {l l' l'' : Lowering} {P Q : Edit → Prop}

/-- The wraps stay, and of the bound unit all but declarations. -/
structure Keeps (l l' : Lowering) : Prop where
  wraps : l'.wraps = l.wraps
  parents : l'.parents = l.parents
  bound : l'.bound = l.bound.withScopes l'.bound.scopes
  shape : l.bound.scopes.SameShape l'.bound.scopes

namespace Keeps

theorem refl (l : Lowering) : Keeps l l := ⟨rfl, rfl, rfl, .refl _⟩

theorem trans (h : Keeps l l') (h' : Keeps l' l'') : Keeps l l'' where
  wraps := h'.wraps.trans h.wraps
  parents := h'.parents.trans h.parents
  bound := by rw [h'.bound, h.bound]; rfl
  shape := h.shape.trans h'.shape

theorem nodes (h : Keeps l l') : l'.nodes = l.nodes := by
  rw [show l'.nodes = l'.bound.nodes from rfl, h.bound]
  rfl

theorem parent? (h : Keeps l l') (i : Nat) : l'.parent? i = l.parent? i := by
  rw [Lowering.parent?, h.parents]
  rfl

end Keeps

/-- Edits were added that satisfy `P`, and names given out. -/
structure Writes (P : Edit → Prop) (l l' : Lowering) : Prop extends Keeps l l' where
  size : l'.exits.size = l.exits.size
  names : l.draft.names.Extends l'.draft.names
  source : l'.draft.edits.source = l.draft.edits.source
  edits : ∃ es, l'.draft.edits.edits.toList = l.draft.edits.edits.toList ++ es ∧ ∀ e ∈ es, P e

namespace Writes

theorem refl (l : Lowering) : Writes P l l :=
  ⟨.refl l, rfl, .refl _, rfl, [], (List.append_nil _).symm, fun _ h => (nomatch h)⟩

theorem trans (h : Writes P l l') (h' : Writes P l' l'') : Writes P l l'' := by
  refine ⟨h.toKeeps.trans h'.toKeeps, h'.size.trans h.size, h.names.trans h'.names,
    h'.source.trans h.source, ?_⟩
  obtain ⟨es, hes, hP⟩ := h.edits
  obtain ⟨es', hes', hP'⟩ := h'.edits
  refine ⟨es ++ es', by rw [hes', hes, List.append_assoc], fun e he => ?_⟩
  rcases List.mem_append.1 he with he | he
  · exact hP e he
  · exact hP' e he

theorem mono (hPQ : ∀ e, P e → Q e) (h : Writes P l l') : Writes Q l l' := by
  obtain ⟨es, hes, hP⟩ := h.edits
  exact ⟨h.toKeeps, h.size, h.names, h.source, es, hes, fun e he => hPQ e (hP e he)⟩

theorem mem_edits (h : Writes P l l') {e : Edit} (he : e ∈ l.draft.edits.edits.toList) :
    e ∈ l'.draft.edits.edits.toList := by
  obtain ⟨es, hes, -⟩ := h.edits
  rw [hes]
  exact List.mem_append_left _ he

theorem edits_eq (h : Writes (fun _ => False) l l') :
    l'.draft.edits.edits.toList = l.draft.edits.edits.toList := by
  obtain ⟨es, hes, hnone⟩ := h.edits
  rw [hes, List.eq_nil_iff_forall_not_mem.2 hnone, List.append_nil]

end Writes

/-- `Writes` that keeps relays and checks. -/
structure Quiet (P : Edit → Prop) (l l' : Lowering) : Prop extends Writes P l l' where
  relays : ∀ k, (l'.exit k).relays = (l.exit k).relays
  checks : ∀ k, (l'.exit k).checks = (l.exit k).checks

namespace Quiet

theorem refl (l : Lowering) : Quiet P l l := ⟨.refl l, fun _ => rfl, fun _ => rfl⟩

theorem trans (h : Quiet P l l') (h' : Quiet P l' l'') : Quiet P l l'' :=
  ⟨h.toWrites.trans h'.toWrites, fun k => (h'.relays k).trans (h.relays k),
    fun k => (h'.checks k).trans (h.checks k)⟩

theorem mono (hPQ : ∀ e, P e → Q e) (h : Quiet P l l') : Quiet Q l l' :=
  ⟨h.toWrites.mono hPQ, h.relays, h.checks⟩

end Quiet

/-- `Writes` that adds relays of wrap `i` and keeps the others and all checks. -/
structure Adds (P : Edit → Prop) (i : Nat) (rs : List Relay) (l l' : Lowering) : Prop
    extends Writes P l l' where
  relays : ∀ k, (l'.exit k).relays =
    if k = i ∧ i < l.exits.size then rs.foldl appendNew (l.exit k).relays else (l.exit k).relays
  checks : ∀ k, (l'.exit k).checks = (l.exit k).checks

namespace Adds

variable {i : Nat} {rs rs' : List Relay}

theorem ofQuiet (h : Quiet P l l') : Adds P i [] l l' :=
  ⟨h.toWrites, fun k => by rw [h.relays, List.foldl_nil, ite_self], h.checks⟩

theorem trans (h : Adds P i rs l l') (h' : Adds P i rs' l' l'') : Adds P i (rs ++ rs') l l'' := by
  refine ⟨h.toWrites.trans h'.toWrites, fun k => ?_, fun k => (h'.checks k).trans (h.checks k)⟩
  rw [h'.relays, h.relays, h.size, List.foldl_append]
  split <;> rfl

theorem mono (hPQ : ∀ e, P e → Q e) (h : Adds P i rs l l') : Adds Q i rs l l' :=
  ⟨h.toWrites.mono hPQ, h.relays, h.checks⟩

theorem foldlM {α : Type} {step : Lowering → α → Except Failure Lowering} {g : α → List Relay}
    {as : List α}
    (hstep : ∀ k k' a, a ∈ as → Keeps l k → step k a = .ok k' → Adds P i (g a) k k')
    (h : as.foldlM step l = .ok l') : Adds P i (as.flatMap g) l l' := by
  induction as generalizing l with
  | nil =>
    rw [List.foldlM_nil, pure_eq_ok] at h
    exact h ▸ .ofQuiet (.refl l)
  | cons a as ih =>
    obtain ⟨l₁, h₁, h⟩ := foldlM_cons_eq_ok.1 h
    have ha := hstep l l₁ a List.mem_cons_self (.refl l) h₁
    rw [List.flatMap_cons]
    exact ha.trans (ih (fun k k' x hx hk => hstep k k' x (List.mem_cons_of_mem _ hx)
      (ha.toKeeps.trans hk)) h)

end Adds

/-! ## Steps -/

theorem withDraft_quiet (l : Lowering) {d : Draft} (es : List Edit) (hb : d.bound = l.draft.bound)
    (hn : d.names = l.draft.names) (hsource : d.edits.source = l.draft.edits.source)
    (hes : d.edits.edits.toList = l.draft.edits.edits.toList ++ es) (hP : ∀ e ∈ es, P e) :
    Quiet P l (l.withDraft d) where
  wraps := rfl
  parents := rfl
  bound := by
    show d.bound = l.draft.bound.withScopes d.bound.scopes
    rw [hb]
    rfl
  shape := by
    show l.draft.bound.scopes.SameShape d.bound.scopes
    exact hb ▸ .refl _
  size := rfl
  names := hn ▸ .refl _
  source := hsource
  edits := ⟨es, hes, hP⟩
  relays _ := rfl
  checks _ := rfl

section Edits

variable {ns : Nodes} {sites : List NodeId}

theorem replace_quiet (l : Lowering) {start stop : Nat} {text : String} {site : NodeId} {n : Node}
    (hs : site ∈ sites) (hn : ns.get? site = some n) (hstart : start = n.start) :
    Quiet (Edit.At ns sites) l (l.replace start stop text) := by
  refine withDraft_quiet l [⟨.replace, start, stop, text, true⟩] rfl rfl rfl
    Array.toList_push fun e he => ?_
  obtain rfl := List.mem_singleton.1 he
  exact ⟨rfl, fun _ => ⟨site, hs, n, hn, hstart⟩⟩

theorem insertAfter_quiet (l : Lowering) (position : Nat) (text : String) :
    Quiet (Edit.At ns sites) l (l.insertAfter position text) := by
  refine withDraft_quiet l [⟨.insertAfter, position, position, text, true⟩] rfl rfl rfl
    Array.toList_push fun e he => ?_
  obtain rfl := List.mem_singleton.1 he
  exact ⟨rfl, fun h => (nomatch h)⟩

end Edits

theorem exit_modifyExit (l : Lowering) (i k : Nat) (f : Exits → Exits) :
    (l.modifyExit i f).exit k =
      if k = i ∧ i < l.exits.size then f (l.exit k) else l.exit k := by
  rw [exit, modifyExit, Array.getElem?_modify]
  by_cases hk : i = k
  · subst hk
    by_cases hi : i < l.exits.size
    · simp [exit, hi]
    · simp [exit, hi]
  · rw [if_neg hk, if_neg fun h => hk h.1.symm]
    rfl

theorem modifyExit_writes (l : Lowering) (i : Nat) (f : Exits → Exits) :
    Writes P l (l.modifyExit i f) :=
  ⟨⟨rfl, rfl, rfl, .refl _⟩, Array.size_modify, .refl _, rfl, [], (List.append_nil _).symm,
    fun _ h => (nomatch h)⟩

theorem addRelay_adds (l : Lowering) (i : Nat) (r : Relay) : Adds P i [r] l (l.addRelay i r) := by
  refine ⟨modifyExit_writes l i _, fun k => ?_, fun k => ?_⟩ <;>
    · rw [addRelay, exit_modifyExit]
      split <;> rfl

theorem addCheck_writes (l : Lowering) (i : Nat) (text : String) :
    Writes P l (l.addCheck i text) := modifyExit_writes l i _

theorem relays_addCheck (l : Lowering) (i k : Nat) (text : String) :
    ((l.addCheck i text).exit k).relays = (l.exit k).relays := by
  rw [addCheck, exit_modifyExit]
  split <;> rfl

theorem checks_addCheck (l : Lowering) (i k : Nat) (text : String) :
    ((l.addCheck i text).exit k).checks =
      if k = i ∧ i < l.exits.size then (l.exit k).checks ++ [text] else (l.exit k).checks := by
  rw [addCheck, exit_modifyExit]
  split <;> rfl

theorem addDeclared_quiet (l : Lowering) (i : Nat) (names : List String) :
    Quiet P l (l.addDeclared i names) := by
  refine ⟨modifyExit_writes l i _, fun k => ?_, fun k => ?_⟩ <;>
    · rw [addDeclared, exit_modifyExit]
      split <;> rfl

theorem permanentName_quiet {key name : String} (h : l.permanentName key = .ok (l', name)) :
    Quiet P l l' ∧ l'.draft.names.permanent? key = some name := by
  obtain ⟨⟨d, name'⟩, hd, h⟩ := bind_eq_ok.1 h
  cases h
  obtain ⟨⟨names, name''⟩, hnames, hd⟩ := bind_eq_ok.1 hd
  cases hd
  obtain ⟨hkey, hext⟩ := Names.permanentName_spec hnames
  exact ⟨⟨⟨⟨rfl, rfl, rfl, .refl _⟩, rfl, hext, rfl, [], (List.append_nil _).symm,
    fun _ h => (nomatch h)⟩, fun _ => rfl, fun _ => rfl⟩, hkey⟩

theorem declare_quiet {scope : Option ScopeId} {name : String} (h : l.declare scope name = .ok l') :
    Quiet P l l' := by
  unfold declare at h
  dsimp only at h
  split at h
  · cases h
  · obtain ⟨d, hd, h⟩ := map_eq_ok.1 h
    subst h
    unfold Draft.declareVar at hd
    split at hd
    · next s target hs =>
      cases hd
      refine ⟨⟨⟨rfl, rfl, rfl, ?_⟩, rfl, .refl _, rfl, [], (List.append_nil _).symm,
        fun _ h => (nomatch h)⟩, fun _ => rfl, fun _ => rfl⟩
      show l.draft.scopes.SameShape s
      rcases declare_cases hs with rfl | ⟨j, c, -, -, -, rfl⟩
      · exact .refl _
      · exact .update _ _ ⟨fun _ => rfl, fun _ => rfl, fun _ => rfl⟩
    · cases hd

/-! ## Bodies -/

theorem aliasFor_quiet {a : Alias} {scope : ScopeId} {site : NodeId} {name : String}
    {ns : Nodes} {sites : List NodeId} (h : aliasFor a scope site l = .ok (l', name)) :
    Quiet (Edit.At ns sites) l l' := by
  unfold aliasFor at h
  split at h
  · cases h
  · obtain ⟨⟨l₁, name'⟩, hname, h⟩ := bind_eq_ok.1 h
    refine (permanentName_quiet hname).1.trans ?_
    dsimp only at h
    split at h
    · cases h
      exact .refl _
    · obtain ⟨l₂, hdeclare, h⟩ := bind_eq_ok.1 h
      cases h
      refine .trans ?_ (declare_quiet hdeclare)
      have halias (as : List (ScopeId × Alias)) :
          Quiet (Edit.At ns sites) l₁ { l₁ with aliases := as } :=
        ⟨⟨⟨rfl, rfl, rfl, .refl _⟩, rfl, .refl _, rfl, [], (List.append_nil _).symm,
          fun _ h => (nomatch h)⟩, fun _ => rfl, fun _ => rfl⟩
      exact (halias _).trans (insertAfter_quiet _ _ _)

theorem adaptAlias_quiet {a : Alias} {scope : ScopeId} {sites : List NodeId}
    (h : adaptAlias a scope l sites = .ok l') : Quiet (Edit.At l.nodes sites) l l' := by
  unfold adaptAlias at h
  split at h
  · cases h
    exact .refl l
  · next first rest =>
    obtain ⟨⟨l₁, name⟩, hname, h⟩ := bind_eq_ok.1 h
    cases h
    have h₁ : Quiet (Edit.At l.nodes (first :: rest)) l l₁ := aliasFor_quiet hname
    refine h₁.trans (foldl_rel Quiet.refl Quiet.trans fun k site hsite hk => ?_)
    split
    · next n hn =>
      rw [hk.nodes, h₁.nodes] at hn
      exact replace_quiet k hsite hn rfl
    · exact .refl k

theorem stripVar_quiet (root : Nat) (l : Lowering) (site : NodeId) :
    Quiet (Edit.At l.nodes [site]) l (stripVar root l site) := by
  unfold stripVar
  split
  · next hn =>
    extract_lets targets l₁ keywordEnd place instead isPattern last
    have h₁ : Quiet (Edit.At l.nodes [site]) l l₁ := addDeclared_quiet _ _ _
    split
    · exact h₁.trans ((replace_quiet _ List.mem_cons_self hn rfl).trans (insertAfter_quiet _ _ _))
    · exact h₁.trans (replace_quiet _ List.mem_cons_self hn rfl)
  · exact .refl l

/-! ## Calls -/

theorem valueName?_quiet {valued : Bool} {value : Option String}
    (h : l.valueName? valued = .ok (l', value)) : Quiet P l l' ∧
      value = (if valued then l'.draft.names.permanent? "value" else none) ∧
      (valued = true → ∃ name, value = some name) := by
  unfold valueName? at h
  split at h
  · next hv =>
    obtain ⟨⟨l₁, name⟩, hname, h⟩ := map_eq_ok.1 h
    cases h
    obtain ⟨hquiet, hkey⟩ := permanentName_quiet hname
    exact ⟨hquiet, by rw [if_pos hv, hkey], fun _ => ⟨name, rfl⟩⟩
  · next hv =>
    cases h
    exact ⟨.refl l, by rw [if_neg hv], fun hv' => absurd hv' hv⟩

end Lowering

end LoopClosure
