import LoopClosure.Proofs.Draft.Requests
import LoopClosure.Proofs.Grammar.Layout

/-!
# Temporaries

- `Served.held`: the temporaries that are in use after some requests.
- `Session.Orderly`: only what is held is given back, behind a node of the scope that it is for.
- `Session.Exclusive`: no two hold one name; a name that is given out is new or was given back in
  front of where it is used; each has its declaration, and is cleared at most once in a block. So it
  is at each moment of an orderly session (`Session.temporaries_exclusive`).
- `Pooled`: what a request keeps. A name is held or free, as the last request for it tells.
-/

namespace LoopClosure

open Syntax Scopes Draft Binding

/-! ## Ends of blocks -/

namespace Bound

variable {b : Bound} {user user' block block' : NodeId} {p : Nat}

theorem blockEnd?_eq_some (h : b.blockEnd? user = some (block, p)) :
    ∃ n, b.nodes.get? block = some n ∧ ((∃ statements, n.form = .block statements) ∧
      p = n.stop - 1 ∨ n.form.isProgram = true ∧ p = n.stop) := by
  obtain ⟨a, -, h⟩ := List.exists_of_findSome?_eq_some h
  split at h
  · next hn =>
    cases h
    exact ⟨_, hn, .inl ⟨⟨_, rfl⟩, rfl⟩⟩
  · next hn =>
    cases h
    exact ⟨_, hn, .inr ⟨rfl, rfl⟩⟩
  · cases h

/-- A block, or the program, is known by where its statements end. -/
theorem block_eq_of_blockEnd? {source : List Char} {t : Tree} (hparse : Grammar.parse source = .ok t)
    (hb : b.nodes = .ofTree t) (h : b.blockEnd? user = some (block, p))
    (h' : b.blockEnd? user' = some (block', p)) : block = block' := by
  have hns : b.nodes.WellFormed := hb ▸ Nodes.wellFormed_ofTree (Grammar.parse_wellFormed hparse)
  have hroot {i : NodeId} {n : Node} (hn : b.nodes.get? i = some n)
      (hform : n.form.isProgram = true) : i = Nodes.root :=
    Grammar.parse_program_unique hparse (hb ▸ hn) hform
  -- A block ends in front of the end of the program.
  have hbefore {i j : NodeId} {n m : Node} {statements : List NodeId} (hn : b.nodes.get? i = some n)
      (hm : b.nodes.get? j = some m) (hform : n.form = .block statements)
      (hprogram : m.form.isProgram = true) : n.stop - 1 ≠ m.stop := by
    have hlt := hns.start_lt_stop_of_block hn hform
    have hin : b.nodes.Inside j i := by
      rw [hroot hm hprogram, hb]
      exact Nodes.inside_root (hb ▸ hn)
    have hle := (hin.within hns hm hn).2
    omega
  obtain ⟨n, hn, hcases⟩ := blockEnd?_eq_some h
  obtain ⟨m, hm, hcases'⟩ := blockEnd?_eq_some h'
  rcases hcases with ⟨⟨ss, hform⟩, rfl⟩ | ⟨hform, rfl⟩ <;>
    rcases hcases' with ⟨⟨ss', hform'⟩, hp⟩ | ⟨hform', hp⟩
  · have hlt := hns.start_lt_stop_of_block hn hform
    exact hns.block_unique hn hm hform hform' (by omega)
  · exact absurd hp (hbefore hn hm hform hform')
  · exact absurd hp.symm (hbefore hm hn hform' hform)
  · exact (hroot hn hform).trans (hroot hm hform').symm

/-- The statement of a temporary of scope `x`. -/
def varEdit (b : Bound) (x : ScopeId) (name : String) : Edit where
  kind := .insertBefore
  start := b.insertPosition (some x)
  stop := b.insertPosition (some x)
  text := varText name

end Bound

/-! ## Edits -/

namespace Draft

variable {b : Bound} {d : Draft} {user block block' : NodeId} {p : Nat} {name other : String}

/-- The statement that clears a temporary. -/
def clearText (name : String) : String := ";" ++ name ++ " = void 0"

theorem varText_injective (h : varText name = varText other) : name = other := by
  simpa [varText] using h

theorem clearText_injective (h : clearText name = clearText other) : name = other := by
  simpa [clearText] using h

theorem varText_ne_clearText (name other : String) : varText name ≠ clearText other := fun h => by
  have := congrArg String.toList h
  simp [varText, clearText] at this

/-- The edit that clears a temporary. -/
def clearEdit (p : Nat) (name : String) : Edit where
  kind := .insert
  start := p
  stop := p
  text := clearText name

theorem edit?_clear (d : Draft) (block : NodeId) (p : Nat) (name : String) (i : EditId) :
    (d.clear block p name).edits.edit? i =
      if i = d.edits.edits.size then some (clearEdit p name)
      else if d.cleanups.lookup (block, name) = some i then
        (d.edits.edit? i).map fun e => { e with active := false }
      else d.edits.edit? i := by
  unfold clear
  cases hold : d.cleanups.lookup (block, name) with
  | none =>
    rw [if_neg (Option.some_ne_none i).symm]
    exact Edits.edit?_push i
  | some previous =>
    refine (Edits.edit?_push i).trans ?_
    rw [show (d.edits.deactivate previous).edits.size = d.edits.edits.size from Array.size_modify,
      Edits.edit?_deactivate]
    simp only [Option.some.injEq]
    rfl

theorem cleanups_clear (d : Draft) (block : NodeId) (p : Nat) (name : String)
    (key : NodeId × String) : (d.clear block p name).cleanups.lookup key =
      if key = (block, name) then some d.edits.edits.size else d.cleanups.lookup key := by
  have hsize : (d.clear block p name).cleanups = ((block, name), d.edits.edits.size) :: d.cleanups := by
    unfold clear
    cases d.cleanups.lookup (block, name) with
    | none => rfl
    | some previous =>
      exact congrArg (fun n => ((block, name), n) :: d.cleanups) Array.size_modify
  rw [hsize, List.lookup_cons]
  by_cases hkey : key = (block, name)
  · rw [if_pos hkey, hkey, beq_self_eq_true]
  · rw [if_neg hkey, beq_eq_false_iff_ne.2 hkey]

end Draft

/-- The name is declared in scope `x` alone, and by one edit. -/
structure Planted (b : Bound) (d : Draft) (name : String) (x : ScopeId) : Prop where
  declared : ∀ y : ScopeId, d.scopes.declaration? (some y) name =
    if y = x then some { kind := .var, node := none, fromPos := none } else none
  edit : ∃ i, ∀ j e, d.edits.edit? j = some e ∧ e.active = true ∧ e.text = varText name ↔
    j = i ∧ e = b.varEdit x name

/-- What is known of the edits of temporaries. -/
structure Tidy (b : Bound) (d : Draft) : Prop where
  introduced : ∀ {i e name}, d.edits.edit? i = some e → e.text = varText name →
    d.names.isTaken name = true
  cleared : ∀ {i e name}, d.edits.edit? i = some e → e.active = true → e.text = clearText name →
    ∃ user block, b.blockEnd? user = some (block, e.start) ∧
      d.cleanups.lookup (block, name) = some i
  noted : ∀ {key i}, d.cleanups.lookup key = some i → ∃ e, d.edits.edit? i = some e ∧
    e.text = clearText key.2

namespace Planted

variable {b : Bound} {d : Draft} {x y : ScopeId} {name other : String} {block : NodeId} {p : Nat}

theorem unique (h : Planted b d name x) (h' : Planted b d name y) : x = y := by
  have hx := h'.declared x
  rw [h.declared x, if_pos rfl] at hx
  by_contra hne
  rw [if_neg hne] at hx
  cases hx

theorem take (h : Planted b d name x) (other : String) : Planted b (d.take other) name x :=
  ⟨h.declared, h.edit⟩

/-- Only temporaries that were given back are changed. -/
theorem withScopes {f : Scope → Scope} (h : Planted b d name x) (id : Option ScopeId)
    (hf : ∀ c, (f c).declarations = c.declarations) :
    Planted b (d.withScopes (d.scopes.update id f)) name x where
  declared y := (declaration?_update (fun c => by rw [Scope.declaration?, hf]; rfl) _ _).trans
    (h.declared y)
  edit := h.edit

theorem pushFree (h : Planted b d name x) (id : Option ScopeId) (other : String) (position : Nat) :
    Planted b (d.withScopes (d.scopes.pushFree id other position)) name x :=
  h.withScopes id fun _ => rfl

theorem clear (h : Planted b d name x) (ht : Tidy b d) (block : NodeId) (p : Nat) (other : String) :
    Planted b (d.clear block p other) name x where
  declared := h.declared
  edit := by
    obtain ⟨i, hi⟩ := h.edit
    refine ⟨i, fun j e => ?_⟩
    rw [← hi, edit?_clear]
    split
    · next hj =>
      rw [hj, Edits.edit?_size]
      refine ⟨fun ⟨he, _, htext⟩ => ?_, fun ⟨he, _⟩ => nomatch he⟩
      obtain rfl := Option.some.inj he
      exact absurd htext.symm (varText_ne_clearText _ _)
    · split
      · next hold =>
        obtain ⟨e', he', htext'⟩ := ht.noted hold
        rw [he', Option.map_some, Option.some.injEq, Option.some.injEq]
        refine ⟨fun ⟨he, hactive, _⟩ => ?_, fun ⟨he, _, htext⟩ => ?_⟩
        · subst he
          cases hactive
        · subst he
          exact absurd (htext.symm.trans htext') (varText_ne_clearText _ _)
      · rfl

theorem plant (h : Planted b d name x) (hs : Steady b d) (hy : b.IsSeat y)
    (hnone : d.scopes.declaration? (some y) other = none) (hne : name ≠ other) :
    Planted b (d.plant y other (varText other)) name x where
  declared z := by
    rw [hs.declaration?_plant hy hnone, if_neg fun hz => hne hz.2]
    exact h.declared z
  edit := by
    obtain ⟨i, hi⟩ := h.edit
    refine ⟨i, fun j e => ?_⟩
    rw [← hi, edit?_plant]
    split
    · next hj =>
      rw [hj, Edits.edit?_size]
      refine ⟨fun ⟨he, _, htext⟩ => ?_, fun ⟨he, _⟩ => nomatch he⟩
      obtain rfl := Option.some.inj he
      exact absurd (varText_injective htext).symm hne
    · rfl

/-- A new temporary. -/
theorem of_plant (hs : Steady b d) (ht : Tidy b d) (hx : b.IsSeat x) (hd : '$' ∈ name.toList)
    (hn : d.names.isTaken name = false) :
    Planted b ((d.take name).plant x name (varText name)) name x where
  declared y := by
    rw [(hs.take name).declaration?_plant hx (hs.undeclared hd hn _)]
    simp only [Option.some.injEq, and_true]
    split
    · rfl
    · exact hs.undeclared hd hn _
  edit := by
    refine ⟨d.edits.edits.size, fun j e => ?_⟩
    have hedit : ((d.take name).plant x name (varText name)).edits.edit? j =
        if j = d.edits.edits.size then some (b.varEdit x name) else d.edits.edit? j := by
      rw [Bound.varEdit, ← hs.frame.insertPosition]
      exact edit?_plant (d.take name) x name _ j
    rw [hedit]
    split
    · next hj =>
      rw [Option.some.injEq]
      refine ⟨fun ⟨he, _⟩ => ⟨hj, he.symm⟩, fun ⟨_, he⟩ => ?_⟩
      subst he
      exact ⟨rfl, rfl, rfl⟩
    · next hj =>
      refine ⟨fun ⟨he, _, htext⟩ => ?_, fun ⟨he, _⟩ => absurd he hj⟩
      cases hn.symm.trans (ht.introduced he htext)

end Planted

namespace Tidy

variable {b : Bound} {d : Draft} {x : ScopeId} {name : String} {block user : NodeId} {p : Nat}

theorem ofBound (b : Bound) : Tidy b (.ofBound b) where
  introduced h := by simp [Draft.ofBound, Edits.edit?] at h
  cleared h := by simp [Draft.ofBound, Edits.edit?] at h
  noted h := nomatch h

theorem withScopes (h : Tidy b d) (s : Scopes) : Tidy b (d.withScopes s) :=
  ⟨h.introduced, h.cleared, h.noted⟩

theorem plant (h : Tidy b d) (x : ScopeId) (name : String) :
    Tidy b ((d.take name).plant x name (varText name)) := by
  have hedit := edit?_plant (d.take name) x name (varText name)
  refine ⟨fun {i e other} he htext => ?_, fun {i e other} he hactive htext => ?_,
    fun {key i} hkey => ?_⟩
  · refine (d.isTaken_take _ _).2 ?_
    rw [hedit] at he
    split at he
    · obtain rfl := Option.some.inj he
      exact .inl (varText_injective htext).symm
    · exact .inr (h.introduced he htext)
  · rw [hedit] at he
    split at he
    · obtain rfl := Option.some.inj he
      exact absurd htext (varText_ne_clearText _ _)
    · exact h.cleared he hactive htext
  · obtain ⟨e, he, htext⟩ := h.noted hkey
    refine ⟨e, ?_, htext⟩
    rw [hedit, if_neg]
    · exact he
    · rintro rfl
      cases he.symm.trans (Edits.edit?_size _)

theorem clear (h : Tidy b d) (hblock : b.blockEnd? user = some (block, p)) (name : String) :
    Tidy b (d.clear block p name) := by
  refine ⟨fun {i e other} he htext => ?_, fun {i e other} he hactive htext => ?_,
    fun {key i} hkey => ?_⟩
  · rw [edit?_clear] at he
    split at he
    · obtain rfl := Option.some.inj he
      exact absurd htext.symm (varText_ne_clearText _ _)
    · split at he
      · obtain ⟨e', he', rfl⟩ := Option.map_eq_some_iff.1 he
        exact h.introduced he' htext
      · exact h.introduced he htext
  · rw [edit?_clear] at he
    split at he
    · next hi =>
      obtain rfl := Option.some.inj he
      refine ⟨user, block, hblock, ?_⟩
      rw [cleanups_clear, if_pos (by rw [clearText_injective htext]), hi]
    · split at he
      · obtain ⟨e', -, rfl⟩ := Option.map_eq_some_iff.1 he
        cases hactive
      · next hne =>
        obtain ⟨user', block', hblock', hlookup⟩ := h.cleared he hactive htext
        refine ⟨user', block', hblock', ?_⟩
        rw [cleanups_clear, if_neg]
        · exact hlookup
        · intro heq
          exact hne (heq.symm ▸ hlookup)
  · rw [cleanups_clear] at hkey
    rw [edit?_clear]
    split at hkey
    · next hk =>
      obtain rfl := Option.some.inj hkey
      rw [if_pos rfl, hk]
      exact ⟨_, rfl, rfl⟩
    · obtain ⟨e, he, htext⟩ := h.noted hkey
      rw [if_neg (by rintro rfl; cases he.symm.trans (Edits.edit?_size _)), he]
      split
      · exact ⟨_, rfl, htext⟩
      · exact ⟨_, rfl, htext⟩

end Tidy

/-! ## What is held -/

namespace Served

variable {e : Served} {es : List Served} {name : String}

/-- The temporaries in use after the requests, the last one first. -/
def held : List Served → List Served
  | [] => []
  | e :: es =>
    match e.request with
    | .temporary .. => e :: held es
    | .release .. => (held es).eraseP (·.name = e.name)
    | .shared .. => held es

theorem request_of_mem_held (h : e ∈ held es) :
    ∃ user scope base, e.request = .temporary user scope base := by
  induction es with
  | nil => cases h
  | cons f es ih =>
    unfold held at h
    split at h
    · next hf =>
      rcases List.mem_cons.1 h with rfl | h
      · exact ⟨_, _, _, hf⟩
      · exact ih h
    · exact ih (List.mem_of_mem_eraseP h)
    · exact ih h

/-- The name is new, or the last request for it gave it back behind a node that ends where `user`
starts, or before. -/
def Available (b : Bound) (before : List Served) (name : String) (user : NodeId) : Prop :=
  (name ∉ b.identifiers ∧ ∀ e ∈ before, e.name ≠ name) ∨
    ∃ last cleanup, before.find? (·.name = name) = some ⟨.release name last cleanup, name⟩ ∧
      b.stopOf last ≤ b.startOf user

theorem map_name_eraseP (es : List Served) (name : String) :
    (es.eraseP (·.name = name)).map (·.name) = (es.map (·.name)).erase name := by
  rw [List.erase_eq_eraseP, List.eraseP_map]
  congr 2
  funext e
  rw [Function.comp_apply, Bool.beq_comm]
  rfl

/-- What is held when a name was given back. -/
theorem mem_eraseP_name (h : (es.map (·.name)).Nodup) (he : e ∈ es.eraseP (·.name = name)) :
    e ∈ es ∧ e.name ≠ name := by
  have hname := List.mem_map_of_mem (f := (·.name)) he
  rw [map_name_eraseP] at hname
  exact ⟨List.mem_of_mem_eraseP he, (h.mem_erase_iff.1 hname).1⟩

/-- The last request for another name stays. -/
theorem find?_name_cons {r : Request} {other : String} (h : name ≠ other) :
    (⟨r, name⟩ :: es : List Served).find? (·.name = other) = es.find? (·.name = other) :=
  List.find?_cons_of_neg (by simpa using h)

end Served

open Served

/-- The pool of temporaries of a session: a name is held or free, as the last request for it tells. -/
structure Pooled (b : Bound) (s : Session) : Prop where
  steady : Steady b s.draft
  tidy : Tidy b s.draft
  taken : ∀ {e}, e ∈ s.past → s.draft.names.isTaken e.name = true
  names : ((held s.past).map (·.name)).Nodup
  last : ∀ {e}, e ∈ held s.past → s.past.find? (·.name = e.name) = some e
  free : ∀ x, ((s.draft.scopes.free x).map (·.1)).Nodup
  given : ∀ {x name stop}, (name, stop) ∈ s.draft.scopes.free x → Planted b s.draft name x ∧
    ∃ user cleanup, s.past.find? (·.name = name) = some ⟨.release name user cleanup, name⟩ ∧
      b.stopOf user = stop
  planted : ∀ {user scope base name}, ⟨.temporary user scope base, name⟩ ∈ s.past →
    ∃ x, b.declarationScope? scope = some x ∧ Planted b s.draft name x
  available : ∀ {user scope base name before},
    ⟨.temporary user scope base, name⟩ :: before <:+ s.past → Available b before name user

namespace Pooled

variable {b : Bound} {s : Session} {d : Draft} {e : Served} {x y : ScopeId} {scope : Option ScopeId}
  {user : NodeId} {base name : String} {stop : Nat} {t : Scopes}

theorem start (h : b.Firm) : Pooled b (.start b) where
  steady := .ofBound h
  tidy := .ofBound b
  taken he := nomatch he
  names := .nil
  last he := nomatch he
  free x := by
    rw [show (Session.start b).draft.scopes.free x = [] from h.pristine x]
    exact .nil
  given {x _ _} he := by
    rw [show (Session.start b).draft.scopes.free x = [] from h.pristine x] at he
    cases he
  planted he := nomatch he
  available he := by simp [Session.start] at he

/-- What is held is not free. -/
theorem not_free (h : Pooled b s) (he : e ∈ held s.past) : (e.name, stop) ∉ s.draft.scopes.free x := by
  intro hfree
  obtain ⟨-, last, cleanup, hfind, -⟩ := h.given hfree
  obtain ⟨user, scope, base, hrequest⟩ := request_of_mem_held he
  have heq := Option.some.inj ((h.last he).symm.trans hfind)
  rw [heq] at hrequest
  cases hrequest

theorem taken_of_free (h : Pooled b s) (hfree : (name, stop) ∈ s.draft.scopes.free x) :
    s.draft.names.isTaken name = true := by
  obtain ⟨-, last, cleanup, hfind, -⟩ := h.given hfree
  exact h.taken (List.mem_of_find?_eq_some hfind)

/-- A temporary that nobody held was given out, and the others stay where they are. -/
theorem acquired (h : Pooled b s) (hsteady : Steady b d) (htidy : Tidy b d)
    (htaken : ∀ {n}, s.draft.names.isTaken n = true → d.names.isTaken n = true)
    (hname : d.names.isTaken name = true) (hheld : ∀ e ∈ held s.past, e.name ≠ name)
    (hscope : b.declarationScope? scope = some x) (hplanted : Planted b d name x)
    (hkept : ∀ {n y}, s.draft.names.isTaken n = true → Planted b s.draft n y → Planted b d n y)
    (hfree : ∀ y, (d.scopes.free y).Sublist (s.draft.scopes.free y))
    (hgone : ∀ {y stop}, (name, stop) ∉ d.scopes.free y)
    (havailable : Available b s.past name user) :
    Pooled b ⟨d, ⟨.temporary user scope base, name⟩ :: s.past⟩ where
  steady := hsteady
  tidy := htidy
  taken he := by
    rcases List.mem_cons.1 he with rfl | he
    · exact hname
    · exact htaken (h.taken he)
  names := by
    refine List.nodup_cons.2 ⟨fun hmem => ?_, h.names⟩
    obtain ⟨e, he, hn⟩ := List.mem_map.1 hmem
    exact hheld e he hn
  last {e} he := by
    rcases List.mem_cons.1 he with rfl | he
    · exact List.find?_cons_of_pos (decide_eq_true rfl)
    · rw [find?_name_cons (hheld e he).symm]
      exact h.last he
  free y := (h.free y).sublist ((hfree y).map _)
  given {y n stop} he := by
    have hmem := (hfree y).subset he
    obtain ⟨hplant, hlast⟩ := h.given hmem
    rw [find?_name_cons (by rintro rfl; exact hgone he)]
    exact ⟨hkept (h.taken_of_free hmem) hplant, hlast⟩
  planted he := by
    rcases List.mem_cons.1 he with heq | he
    · cases heq
      exact ⟨x, hscope, hplanted⟩
    · obtain ⟨y, hy, hplant⟩ := h.planted he
      exact ⟨y, hy, hkept (h.taken he) hplant⟩
  available he := by
    rcases List.suffix_cons_iff.1 he with heq | he
    · cases heq
      exact havailable
    · exact h.available he

/-- A new temporary. -/
theorem new (h : Pooled b s) (hx : b.declarationScope? scope = some x) (hd : '$' ∈ name.toList)
    (hn : s.draft.names.isTaken name = false) :
    Pooled b ⟨(s.draft.take name).plant x name (varText name),
      ⟨.temporary user scope base, name⟩ :: s.past⟩ := by
  have hseat := Bound.isSeat_of_declarationScope? hx
  have htake := (s.draft.isTaken_take name name).2 (.inl rfl)
  have hne {n : String} (ht : s.draft.names.isTaken n = true) : n ≠ name := by
    rintro rfl
    cases hn.symm.trans ht
  have hfree (y : ScopeId) : ((s.draft.take name).plant x name (varText name)).scopes.free y =
      s.draft.scopes.free y := free_plant _ x y name _
  refine h.acquired (h.steady.plantNew hseat hd hn) (h.tidy.plant x name)
    (fun ht => (s.draft.isTaken_take _ _).2 (.inr ht)) htake (fun e he => ?_) hx
    (.of_plant h.steady h.tidy hseat hd hn) (fun ht hplant => ?_) (fun y => ?_) (fun {y stop} he => ?_)
    (.inl ⟨fun hmem => ?_, fun e he => hne (h.taken he)⟩)
  · exact hne (h.taken (List.mem_of_find?_eq_some (h.last he)))
  · exact (hplant.take name).plant (h.steady.take name) hseat (h.steady.undeclared hd hn _) (hne ht)
  · rw [hfree]
  · exact hne (h.taken_of_free (hfree y ▸ he)) rfl
  · cases hn.symm.trans (h.steady.identifiers hmem)

/-- A temporary that was given back. -/
theorem again (h : Pooled b s) (hx : b.declarationScope? scope = some x)
    (hpop : s.draft.scopes.popFree? (some x) (b.startOf user) = some (t, name)) :
    Pooled b ⟨s.draft.withScopes t, ⟨.temporary user scope base, name⟩ :: s.past⟩ := by
  obtain ⟨i, stop, hi, hle, ht, hfree⟩ := popFree?_eq_some hpop
  have hmem := List.mem_of_getElem? hi
  obtain ⟨hplanted, last, cleanup, hlast, hstop⟩ := h.given hmem
  have htaken := h.taken_of_free hmem
  refine h.acquired (h.steady.popFree hpop) (h.tidy.withScopes t) id htaken (fun e he hn => ?_) hx ?_
    (fun _ hplant => ?_) (fun y => ?_) (fun {y stop'} he => ?_) (.inr ⟨last, cleanup, hlast, hstop ▸ hle⟩)
  · exact h.not_free he (hn ▸ hmem)
  · subst ht
    exact hplanted.withScopes _ fun _ => rfl
  · subst ht
    exact hplant.withScopes _ fun _ => rfl
  · rw [show (s.draft.withScopes t).scopes.free y = _ from hfree y]
    split
    · exact List.eraseIdx_sublist _ _
    · exact .refl _
  · rw [show (s.draft.withScopes t).scopes.free y = _ from hfree y] at he
    split at he
    · next hy =>
      subst hy
      -- A name is free once.
      obtain ⟨j, hj, hget⟩ := List.mem_eraseIdx_iff_getElem?.1 he
      refine hj ((List.getElem?_inj ?_ (h.free y)).1 ?_)
      · rw [List.length_map]
        exact (List.getElem?_eq_some_iff.1 hget).1
      · rw [List.getElem?_map, List.getElem?_map, hget, hi]
        rfl
    · next hy =>
      exact hy ((h.given he).1.unique hplanted)

/-- A temporary is given back. -/
theorem released (h : Pooled b s) (he : e ∈ held s.past)
    (hscope : b.declarationScope? (b.nodeScope? user) = b.declarationScope? e.request.scope?)
    (cleanup : Bool) : Pooled b ⟨s.draft.release e.name user cleanup,
      ⟨.release e.name user cleanup, e.name⟩ :: s.past⟩ := by
  have hpast := List.mem_of_find?_eq_some (h.last he)
  have htaken := h.taken hpast
  obtain ⟨user₀, scope, base, hrequest⟩ := request_of_mem_held he
  obtain ⟨x, hx, hplanted⟩ : ∃ x, b.declarationScope? e.request.scope? = some x ∧
      Planted b s.draft e.name x := by
    obtain ⟨r, name⟩ := e
    subst hrequest
    exact h.planted hpast
  have hseat := Bound.isSeat_of_declarationScope? hx
  obtain ⟨d, hd⟩ : ∃ d, d = s.draft.release e.name user cleanup := ⟨_, rfl⟩
  have hsteady : Steady b d := hd ▸ h.steady.release e.name user cleanup
  obtain ⟨htidy, hkept, hnames, hscopes⟩ : Tidy b d ∧
      (∀ {n y}, Planted b s.draft n y → Planted b d n y) ∧ d.names = s.draft.names ∧
      d.scopes = s.draft.scopes.pushFree (some x) e.name (b.stopOf user) := by
    have htidy := h.tidy.withScopes (s.draft.scopes.pushFree (some x) e.name (b.stopOf user))
    rcases h.steady.release_cases (hscope.trans hx) e.name cleanup with heq | ⟨block, p, hblock, heq⟩
    · rw [hd, heq]
      exact ⟨htidy, fun hp => hp.pushFree _ _ _, rfl, rfl⟩
    · rw [hd, heq]
      refine ⟨htidy.clear hblock e.name,
        fun hp => (hp.pushFree _ _ _).clear htidy block p e.name, ?_, ?_⟩ <;>
      · unfold Draft.clear
        split <;> rfl
  rw [← hd]
  have hfree (y : ScopeId) : d.scopes.free y =
      if y = x then s.draft.scopes.free y ++ [(e.name, b.stopOf user)] else s.draft.scopes.free y := by
    rw [hscopes]
    exact free_pushFree (h.steady.lt_size hseat)
  refine ⟨hsteady, htidy, fun hmem => ?_, ?_, fun hmem => ?_, fun y => ?_, fun {y n stop} hmem => ?_,
    fun hmem => ?_, fun hmem => ?_⟩
  · rw [hnames]
    rcases List.mem_cons.1 hmem with rfl | hmem
    · exact htaken
    · exact h.taken hmem
  · exact h.names.sublist (List.eraseP_sublist.map _)
  · obtain ⟨hmem, hne⟩ := mem_eraseP_name h.names hmem
    rw [find?_name_cons hne.symm]
    exact h.last hmem
  · rw [hfree]
    split
    · rw [List.map_append, List.nodup_append]
      refine ⟨h.free y, List.nodup_singleton _, fun n hn m hm => ?_⟩
      rintro rfl
      obtain ⟨⟨n', stop⟩, hmem, rfl⟩ := List.mem_map.1 hn
      obtain rfl := List.mem_singleton.1 hm
      exact h.not_free he hmem
    · exact h.free y
  · rw [hfree] at hmem
    have hcases : (n, stop) ∈ s.draft.scopes.free y ∨
        y = x ∧ (n, stop) = (e.name, b.stopOf user) := by
      split at hmem
      · next hy => exact (List.mem_append.1 hmem).imp_right fun hm => ⟨hy, List.mem_singleton.1 hm⟩
      · exact .inl hmem
    rcases hcases with hmem | ⟨rfl, heq⟩
    · obtain ⟨hplant, hlast⟩ := h.given hmem
      rw [find?_name_cons (by rintro rfl; exact h.not_free he hmem)]
      exact ⟨hkept hplant, hlast⟩
    · cases heq
      exact ⟨hkept hplanted, user, cleanup, List.find?_cons_of_pos (decide_eq_true rfl), rfl⟩
  · rcases List.mem_cons.1 hmem with heq | hmem
    · cases heq
    · obtain ⟨y, hy, hplant⟩ := h.planted hmem
      exact ⟨y, hy, hkept hplant⟩
  · rcases List.suffix_cons_iff.1 hmem with heq | hmem
    · cases heq
    · exact h.available hmem

end Pooled

/-! ## Orderly sessions -/

namespace Session

/-- A temporary is asked for at a node and a scope that are there. Only what is held is given back,
behind a node of the scope that it is for. -/
def Orderly (b : Bound) (s : Session) : Request → Prop
  | .temporary user scope base => (Request.temporary user scope base).Known b
  | .release name user _ => user < b.nodes.size ∧ ∃ e ∈ held s.past, e.name = name ∧
      b.declarationScope? (b.nodeScope? user) = b.declarationScope? e.request.scope?
  | .shared .. => False

instance (b : Bound) (s : Session) (r : Request) : Decidable (s.Orderly b r) :=
  match r with
  | .temporary user scope base =>
    inferInstanceAs (Decidable ((Request.temporary user scope base).Known b))
  | .release name user _ =>
    inferInstanceAs (Decidable (user < b.nodes.size ∧ ∃ e ∈ Served.held s.past, e.name = name ∧
      b.declarationScope? (b.nodeScope? user) = b.declarationScope? e.request.scope?))
  | .shared .. => .isFalse id

/-- Temporaries do not get in the way of one another. -/
structure Exclusive (b : Bound) (s : Session) : Prop where
  /-- No two hold one name. -/
  held : ((held s.past).map (·.name)).Nodup
  available : ∀ {user scope base name before},
    ⟨.temporary user scope base, name⟩ :: before <:+ s.past → Available b before name user
  planted : ∀ {user scope base name}, ⟨.temporary user scope base, name⟩ ∈ s.past →
    ∃ x, b.declarationScope? scope = some x ∧ Planted b s.draft name x
  /-- At one place, such as the end of a block, a name is cleared once. -/
  cleared : ∀ {i j e f name}, s.draft.edits.edit? i = some e → s.draft.edits.edit? j = some f →
    e.active = true → f.active = true → e.text = clearText name → f.text = clearText name →
      e.start = f.start → i = j

end Session

namespace Pooled

variable {b : Bound} {s : Session} {r : Request} {d : Draft} {name : String}

theorem answer (h : Pooled b s) (hfirm : b.Firm) (hr : s.Orderly b r)
    (ha : s.draft.answer r = .ok (d, name)) : Pooled b ⟨d, ⟨r, name⟩ :: s.past⟩ := by
  cases r with
  | temporary user scope base =>
    obtain ⟨-, z, rfl, hz⟩ := hr
    obtain ⟨x, hx⟩ := hfirm.seated hz
    rcases h.steady.temporary_cases hx user base with
      ⟨t, name', hpop, heq⟩ | ⟨k, hk, heq⟩ | ⟨⟨e, heq⟩, -⟩
    · cases ha.symm.trans heq
      exact h.again hx hpop
    · cases ha.symm.trans heq
      exact h.new hx (Names.dollar_mem_candidate base k) hk
    · cases ha.symm.trans heq
  | release name user cleanup =>
    cases ha
    obtain ⟨-, e, he, rfl, hscope⟩ := hr
    exact h.released he hscope cleanup
  | shared scope logical value => exact hr.elim

/-- Where a temporary is cleared, the table knows the edit, and a place is the end of one block. -/
theorem exclusive (h : Pooled b s) (hends : ∀ {user user' block block' p},
    b.blockEnd? user = some (block, p) → b.blockEnd? user' = some (block', p) → block = block') :
    s.Exclusive b where
  held := h.names
  available := h.available
  planted := h.planted
  cleared he hf hactive hactive' htext htext' hstart := by
    obtain ⟨user, block, hend, hlookup⟩ := h.tidy.cleared he hactive htext
    obtain ⟨user', block', hend', hlookup'⟩ := h.tidy.cleared hf hactive' htext'
    rw [hends hend (hstart ▸ hend')] at hlookup
    exact Option.some.inj (hlookup.symm.trans hlookup')

end Pooled

namespace Session

/-- **Temporaries.** At each moment of an orderly session no two holders have one name. A name that
is given out is new, or was given back in front of where it is used; it is declared in the scope that
it is for, by one edit. At the end of a block each name is cleared once at most. -/
theorem temporaries_exclusive {u : CompilationUnit} {t : Tree} {b : Bound}
    (hparse : Grammar.parse u.source = .ok t) (hnodes : u.nodes = .ofTree t) (hb : bind u = .ok b)
    {rs : List Request} (hrs : (start b).Each (Orderly b) rs) : (start b).Always (Exclusive b) rs := by
  have hns : u.nodes.WellFormed :=
    hnodes ▸ Nodes.wellFormed_ofTree (Grammar.parse_wellFormed hparse)
  have hfirm := bind_firm hns (hnodes ▸ Grammar.parse_rooted hparse) hb
  have hbnodes : b.nodes = .ofTree t := (congrArg CompilationUnit.nodes (bind_unit hb)).trans hnodes
  refine Always.mono (fun s hs => hs.exclusive fun hend hend' => ?_)
    (always_of_each (Pooled.start hfirm) (fun hs hr ha => hs.answer hfirm hr ha) hrs)
  exact Bound.block_eq_of_blockEnd? hparse hbnodes hend hend'

/-- A block with two statements, and a third statement behind it. -/
def threeStatements : List Char := "\x7b a; b; \x7d c;".toList

/-- Each statement uses a temporary, the last one two. -/
def requestsOfThree : List Request :=
  [.temporary 2 (some programScope) "$D", .release "$D$0" 2 true,
    .temporary 4 (some programScope) "$D", .release "$D$0" 4 true,
    .temporary 6 (some programScope) "$D", .temporary 6 (some programScope) "$D"]

theorem temporaries_exclusive_three : ∃ t b, Grammar.parse threeStatements = .ok t ∧
    bind ⟨"", threeStatements, .ofTree t, {}⟩ = .ok b ∧ (start b).Each (Orderly b) requestsOfThree ∧
      ((start b).run requestsOfThree).past.map (·.name) =
        ["$D$1", "$D$0", "$D$0", "$D$0", "$D$0", "$D$0"] ∧
      (start b).Always (Exclusive b) requestsOfThree := by
  have hrun : okAnd (Grammar.parse threeStatements) (fun t =>
      okAnd (bind ⟨"", threeStatements, .ofTree t, {}⟩) fun b =>
        decide ((start b).Each (Orderly b) requestsOfThree ∧
          ((start b).run requestsOfThree).past.map (·.name) =
            ["$D$1", "$D$0", "$D$0", "$D$0", "$D$0", "$D$0"])) = true := by
    decide +kernel
  obtain ⟨t, hparse, hrun⟩ := okAnd_iff.1 hrun
  obtain ⟨b, hb, hrun⟩ := okAnd_iff.1 hrun
  obtain ⟨hrs, hnames⟩ := of_decide_eq_true hrun
  exact ⟨t, b, hparse, hb, hrs, hnames,
    temporaries_exclusive (u := ⟨"", threeStatements, .ofTree t, {}⟩) hparse rfl hb hrs⟩

end Session

end LoopClosure
