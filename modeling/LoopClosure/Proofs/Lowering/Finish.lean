import LoopClosure.Proofs.Lowering.Exits

/-!
# What a lowering ends with

`Lowering.Finished l`: each wrap relays what it carries and has one check for each of its relays,
the jumps among the sites are rewritten, and the calls are written. So does `finish` end, and it
replaces nothing but at a site (`finish_finished`).
-/

namespace LoopClosure

open Syntax Syntax.Nodes

/-- The declarations and the head of the call, in front of a body. -/
def Wrap.callStart (w : Wrap) (body : Node) (declared : List String)
    (value : Option String) : Edit :=
  let head := (if declared.isEmpty then "" else "var " ++ ", ".intercalate declared ++ ";") ++
    (value.map (· ++ " = ")).getD "" ++ "(function(" ++ ", ".intercalate w.params ++ ")\x7b"
  if w.blockBody then ⟨.insert, body.start + 1, body.start + 1, head, true⟩
  else ⟨.insert, body.start, body.start, "\x7b" ++ head, true⟩

/-- The end of the call and the checks, behind a body. -/
def Wrap.callEnd (w : Wrap) (body : Node) (checks : List String) : Edit :=
  let tail := "\x7d)(" ++ ", ".intercalate w.params ++ ");" ++ String.join checks
  if w.blockBody then ⟨.insert, body.stop - 1, body.stop - 1, tail, true⟩
  else ⟨.insert, body.stop, body.stop, tail ++ "\x7d", true⟩

namespace Wrap

variable {w : Wrap} {body : Node} {declared checks : List String} {value : Option String}

theorem callStart_kind : (w.callStart body declared value).kind = .insert := by
  unfold callStart
  dsimp only
  split <;> rfl

theorem callEnd_kind : (w.callEnd body checks).kind = .insert := by
  unfold callEnd
  dsimp only
  split <;> rfl

theorem callStart_start : (w.callStart body declared value).start =
    if w.blockBody then body.start + 1 else body.start := by
  unfold callStart
  dsimp only
  split <;> rfl

theorem callEnd_start : (w.callEnd body checks).start =
    if w.blockBody then body.stop - 1 else body.stop := by
  unfold callEnd
  dsimp only
  split <;> rfl

end Wrap

namespace Lowering

variable {l l' : Lowering} {P : Edit → Prop} {i k : Nat} {r : Relay}

/-- The variable for the result of the call of a wrap. -/
def resultName (l : Lowering) (i : Nat) : Option String :=
  if (l.exit i).valued then l.draft.names.permanent? "value" else none

/-- The variables declared in front of the call of a wrap. -/
def declaredNames (l : Lowering) (i : Nat) : List String :=
  if (l.parent? i).isNone then (l.exit i).declared ++ (l.resultName i).toList else []

/-- The call of a wrap is written, with its declarations and checks. -/
def CallWritten (l : Lowering) (i : Nat) : Prop :=
  ∀ w body, l.wraps[i]? = some w → l.nodes.get? w.body = some body →
    ((l.exit i).valued = true → ∃ name, l.resultName i = some name) ∧
      w.callStart body (l.declaredNames i) (l.resultName i) ∈ l.draft.edits.edits.toList ∧
      w.callEnd body (l.exit i).checks ∈ l.draft.edits.edits.toList

/-- `Writes` that leaves all exits as they are. -/
structure Still (P : Edit → Prop) (l l' : Lowering) : Prop extends Writes P l l' where
  exits : l'.exits = l.exits

namespace Still

theorem refl (l : Lowering) : Still P l l := ⟨.refl l, rfl⟩

theorem trans {l'' : Lowering} (h : Still P l l') (h' : Still P l' l'') : Still P l l'' :=
  ⟨h.toWrites.trans h'.toWrites, h'.exits.trans h.exits⟩

theorem exit (h : Still P l l') (k : Nat) : l'.exit k = l.exit k := by
  rw [Lowering.exit, h.exits]
  rfl

theorem quiet (h : Still P l l') : Quiet P l l' :=
  ⟨h.toWrites, fun k => by rw [h.exit], fun k => by rw [h.exit]⟩

end Still

theorem declare_still {scope : Option ScopeId} {name : String} (h : l.declare scope name = .ok l') :
    Still P l l' := by
  refine ⟨(declare_quiet h).toWrites, ?_⟩
  unfold declare at h
  dsimp only at h
  split at h
  · cases h
  · obtain ⟨d, -, rfl⟩ := map_eq_ok.1 h
    rfl

theorem valueName?_still {valued : Bool} {value : Option String}
    (h : l.valueName? valued = .ok (l', value)) : Still P l l' := by
  refine ⟨(valueName?_quiet h).1.toWrites, ?_⟩
  unfold valueName? at h
  split at h
  · obtain ⟨⟨l₁, name⟩, hname, h⟩ := map_eq_ok.1 h
    cases h
    obtain ⟨⟨d, name'⟩, -, h⟩ := bind_eq_ok.1 hname
    cases h
    rfl
  · cases h
    rfl

/-- The edits around the body of wrap `i`. -/
def CallEdit (l : Lowering) (i : Nat) (e : Edit) : Prop :=
  ∃ w body, l.wraps[i]? = some w ∧ l.nodes.get? w.body = some body ∧
    (e = w.callStart body (l.declaredNames i) (l.resultName i) ∨
      e = w.callEnd body (l.exit i).checks)

theorem CallEdit.at {ns : Nodes} {sites : List NodeId} {e : Edit} (h : l.CallEdit i e) :
    e.At ns sites := by
  obtain ⟨w, body, -, -, rfl | rfl⟩ := h
  · unfold Wrap.callStart
    dsimp only
    split <;> exact ⟨rfl, fun h => (nomatch h)⟩
  · unfold Wrap.callEnd
    dsimp only
    split <;> exact ⟨rfl, fun h => (nomatch h)⟩

theorem insert_still (l : Lowering) {position : Nat} {text : String}
    (hP : P ⟨.insert, position, position, text, true⟩) : Still P l (l.insert position text) := by
  refine ⟨⟨⟨rfl, rfl, rfl, .refl _⟩, rfl, .refl _, rfl, [_], Array.toList_push, fun e he => ?_⟩, rfl⟩
  exact List.mem_singleton.1 he ▸ hP

theorem edits_insert (l : Lowering) (position : Nat) (text : String) :
    (l.insert position text).draft.edits.edits.toList =
      l.draft.edits.edits.toList ++ [⟨.insert, position, position, text, true⟩] := Array.toList_push

/-- Writing a call makes the edits around the body, the one in front of it first. -/
theorem writeCall_edits (h : l.writeCall i = .ok l') {w : Wrap} {body : Node}
    (hw : l.wraps[i]? = some w) (hbody : l.nodes.get? w.body = some body) :
    Still (fun _ => True) l l' ∧
      ((l'.exit i).valued = true → ∃ name, l'.resultName i = some name) ∧
      l'.draft.edits.edits.toList = l.draft.edits.edits.toList ++
        [w.callStart body (l'.declaredNames i) (l'.resultName i),
          w.callEnd body (l'.exit i).checks] := by
  unfold writeCall at h
  rw [hw] at h
  dsimp -zeta only at h
  rw [hbody] at h
  dsimp -zeta only at h
  extract_lets e params tail at h
  obtain ⟨⟨l₁, value⟩, hvalue, h⟩ := bind_eq_ok.1 h
  have h₁ : Still (fun _ => True) l l₁ := valueName?_still hvalue
  have hquiet : Still (fun _ => False) l l₁ := valueName?_still hvalue
  obtain ⟨-, hval, hsome⟩ := valueName?_quiet (P := fun _ => True) hvalue
  dsimp -zeta only at h
  extract_lets declared head l₂ at h
  obtain ⟨h₂, hcall⟩ : Still (fun _ => True) l₁ l₂ ∧ l₂.draft.edits.edits.toList =
      l₁.draft.edits.edits.toList ++
        [w.callStart body declared value, w.callEnd body e.checks] := by
    unfold Wrap.callStart Wrap.callEnd
    dsimp only [l₂]
    split <;> exact ⟨(insert_still _ trivial).trans (insert_still _ trivial), by
      rw [edits_insert, edits_insert, List.append_assoc]
      rfl⟩
  have h₃ {Q : Edit → Prop} : Still Q l₂ l' := foldlM_rel Still.refl Still.trans
    (fun _ _ _ _ _ hstep => declare_still hstep) h
  have hlast : Still (fun _ => True) l₁ l' := h₂.trans h₃
  have hexit : l'.exit i = e := (hlast.exit i).trans (h₁.exit i)
  have hresult : l'.resultName i = value := by
    rw [resultName, hexit, hval]
    by_cases hv : e.valued = true
    · obtain ⟨name, rfl⟩ := hsome hv
      rw [if_pos hv] at hval
      rw [if_pos hv, if_pos hv, ← hval]
      exact hlast.names.kept hval.symm
    · rw [if_neg hv, if_neg hv]
  have hdeclared : l'.declaredNames i = declared := by
    rw [declaredNames, hresult, hexit, hlast.parent?]
  refine ⟨h₁.trans hlast, by rwa [hexit, hresult], ?_⟩
  rw [hdeclared, hresult, hexit, (h₃ (Q := fun _ => False)).edits_eq, hcall, hquiet.edits_eq]

theorem writeCall_spec (h : l.writeCall i = .ok l') (hP : ∀ e, l'.CallEdit i e → P e) :
    Still P l l' ∧ l'.CallWritten i := by
  cases hw : l.wraps[i]? with
  | none =>
    unfold writeCall at h
    rw [hw] at h
    cases h
    refine ⟨.refl l, fun w body hw' => ?_⟩
    rw [hw] at hw'
    cases hw'
  | some w =>
    cases hbody : l.nodes.get? w.body with
    | none =>
      unfold writeCall at h
      simp only [hw, hbody] at h
      cases h
    | some body =>
      obtain ⟨hstill, hsome, hedits⟩ := writeCall_edits h hw hbody
      rw [← hstill.wraps] at hw
      rw [← hstill.nodes] at hbody
      refine ⟨⟨⟨hstill.toKeeps, hstill.size, hstill.names, hstill.source, _, hedits, fun e he => ?_⟩,
        hstill.exits⟩, fun v b hv hb => ?_⟩
      · exact hP e ⟨w, body, hw, hbody, by simpa using he⟩
      · cases hw.symm.trans hv
        cases hbody.symm.trans hb
        rw [hedits]
        exact ⟨hsome, by simp, by simp⟩

/-- Once a name was given out, the result keeps it. -/
theorem Still.resultName (h : Still P l l')
    (hsome : (l.exit i).valued = true → ∃ name, l.resultName i = some name) :
    l'.resultName i = l.resultName i := by
  unfold Lowering.resultName at hsome ⊢
  rw [h.exit]
  split
  · next hv =>
    obtain ⟨name, hname⟩ := hsome hv
    rw [if_pos hv] at hname
    rw [hname]
    exact h.names.kept hname
  · rfl

theorem Still.declaredNames (h : Still P l l') (hr : l'.resultName i = l.resultName i) :
    l'.declaredNames i = l.declaredNames i := by
  rw [Lowering.declaredNames, hr, h.exit, h.parent?]
  rfl

theorem Still.callWritten (h : Still P l l') (hc : l.CallWritten i) : l'.CallWritten i := by
  intro w body hw hbody
  rw [h.wraps] at hw
  rw [h.nodes] at hbody
  obtain ⟨hsome, hstart, hend⟩ := hc w body hw hbody
  have hresult := h.resultName hsome
  rw [hresult, h.declaredNames hresult, h.exit]
  exact ⟨hsome, h.mem_edits hstart, h.mem_edits hend⟩

/-- The edits around the body of wrap `i`, the one in front of it first. -/
def callEdits (l : Lowering) (i : Nat) : List Edit :=
  match l.wraps[i]? with
  | none => []
  | some w =>
    match l.nodes.get? w.body with
    | none => []
    | some body =>
      [w.callStart body (l.declaredNames i) (l.resultName i), w.callEnd body (l.exit i).checks]

theorem callEdits_eq {w : Wrap} {body : Node} (hw : l.wraps[i]? = some w)
    (hbody : l.nodes.get? w.body = some body) : l.callEdits i =
      [w.callStart body (l.declaredNames i) (l.resultName i), w.callEnd body (l.exit i).checks] := by
  simp only [callEdits, hw, hbody]

theorem mem_callEdits {e : Edit} : e ∈ l.callEdits i ↔ l.CallEdit i e := by
  constructor
  · intro he
    unfold callEdits at he
    split at he
    · cases he
    · next w hw =>
      split at he
      · cases he
      · next body hbody => exact ⟨w, body, hw, hbody, by simpa using he⟩
  · rintro ⟨w, body, hw, hbody, he⟩
    rw [callEdits_eq hw hbody]
    simpa using he

/-- The edits of a call stay what they are. -/
theorem Still.callEdits (h : Still P l l') (hc : l.CallWritten i) :
    l'.callEdits i = l.callEdits i := by
  unfold Lowering.callEdits
  rw [h.wraps]
  split
  · rfl
  · next w hw =>
    rw [h.nodes]
    split
    · rfl
    · next body hbody =>
      have hresult := h.resultName (hc w body hw hbody).1
      rw [hresult, h.declaredNames hresult, h.exit]

/-- Writing the calls makes the edits around the bodies, body by body. -/
theorem writeCalls_edits {order : List Nat} (h : order.foldlM writeCall l = .ok l') :
    l'.draft.edits.edits.toList = l.draft.edits.edits.toList ++ order.flatMap l'.callEdits := by
  induction order generalizing l with
  | nil =>
    rw [List.foldlM_nil, pure_eq_ok] at h
    rw [h, List.flatMap_nil, List.append_nil]
  | cons i order ih =>
    obtain ⟨t, ht, h⟩ := foldlM_cons_eq_ok.1 h
    have hrest : Still (fun _ => True) t l' := foldlM_rel Still.refl Still.trans
      (fun _ _ _ _ _ hs => (writeCall_spec hs fun _ _ => trivial).1) h
    have hwritten : t.CallWritten i := (writeCall_spec ht fun _ _ => trivial).2
    have hstep : t.draft.edits.edits.toList = l.draft.edits.edits.toList ++ t.callEdits i := by
      cases hw : l.wraps[i]? with
      | none =>
        unfold writeCall at ht
        rw [hw] at ht
        cases ht
        simp only [callEdits, hw, List.append_nil]
      | some w =>
        cases hbody : l.nodes.get? w.body with
        | none =>
          unfold writeCall at ht
          simp only [hw, hbody] at ht
          cases ht
        | some body =>
          obtain ⟨hstill, -, hedits⟩ := writeCall_edits ht hw hbody
          rw [hedits, callEdits_eq (hstill.wraps ▸ hw) (hstill.nodes ▸ hbody)]
    rw [ih h, hstep, ← hrest.callEdits hwritten, List.flatMap_cons, List.append_assoc]

theorem callWritten_of_foldlM {order : List Nat} (h : order.foldlM writeCall l = .ok l')
    (hi : i ∈ order) : l'.CallWritten i := by
  obtain ⟨t, t', -, hstep, ht'⟩ := foldlM_exists_step (R := Still fun _ => True) Still.refl
    Still.trans hi (fun _ _ _ _ _ hstep => (writeCall_spec hstep fun _ _ => trivial).1) h
  exact ht'.callWritten (writeCall_spec hstep fun _ _ => trivial).2

/-- What `finish` ends with. -/
structure Finished (l : Lowering) : Prop where
  nodup : ∀ k, (l.exit k).relays.Nodup
  relays : ∀ k < l.wraps.size, ∀ r, r ∈ (l.exit k).relays ↔ l.Carried k r
  checked : ∀ k < l.wraps.size, l.Checked k
  rewrites : ∀ i < l.wraps.size, ∀ site ∈ l.sitesOf i .jump, ∀ n kind label,
    l.nodes.get? site = some n → n.form = .jump kind label →
      l.Rewrites n (Relay.ofJump? kind (label.bind l.nodes.identifier?))
  calls : ∀ i < l.wraps.size, l.CallWritten i

theorem mem_inSourceOrder : k ∈ l.inSourceOrder ↔ k < l.wraps.size := by
  rw [inSourceOrder, sortByKey, mem_sortBy, List.mem_range]

theorem Keeps.innerFirst (h : Keeps l l') : l'.innerFirst = l.innerFirst := by
  simp only [Lowering.innerFirst, Lowering.inSourceOrder, h.wraps, h.nodes]

/-- The three rounds of `finish`. -/
theorem finish_cases (hsize : l.exits.size = l.wraps.size) (h : l.finish = .ok l') : ∃ l₁ l₂,
    l.inSourceOrder.foldlM adaptBody l = .ok l₁ ∧ l.innerFirst.foldlM resolveRelays l₁ = .ok l₂ ∧
      l.innerFirst.foldlM writeCall l₂ = .ok l' ∧ Writes (Edit.At l.nodes l.allSites) l l₁ ∧
      Writes (fun _ => False) l₁ l₂ ∧ Still (Edit.At l.nodes l.allSites) l₂ l' := by
  obtain ⟨l₁, h₁, h⟩ := bind_eq_ok.1 h
  obtain ⟨l₂, h₂, h₃⟩ := bind_eq_ok.1 h
  have hw₁ := (foldlM_adaptBody hsize (.refl l) (fun i hi => mem_inSourceOrder.1 hi) h₁).1
  have hsize₁ : l₁.exits.size = l₁.wraps.size := by rw [hw₁.size, hw₁.wraps, hsize]
  rw [hw₁.toKeeps.innerFirst] at h₂
  have hw₂ : Writes (fun _ => False) l₁ l₂ := foldlM_rel Writes.refl Writes.trans
    (fun t t' i hi ht hstep => (resolveRelays_resolves (by rw [ht.size, ht.wraps, hsize₁])
      (by rw [ht.wraps, hw₁.wraps]; exact mem_innerFirst.1 hi) hstep).toWrites) h₂
  rw [(hw₁.toKeeps.trans hw₂.toKeeps).innerFirst] at h₃
  exact ⟨l₁, l₂, h₁, h₂, h₃, hw₁, hw₂, foldlM_rel Still.refl Still.trans
    (fun _ _ _ _ _ hstep => (writeCall_spec hstep fun _ he => he.at).1) h₃⟩

theorem finish_keeps (hsize : l.exits.size = l.wraps.size) (h : l.finish = .ok l') :
    Keeps l l' := by
  obtain ⟨_, _, -, -, -, hw₁, hw₂, hw₃⟩ := finish_cases hsize h
  exact (hw₁.toKeeps.trans hw₂.toKeeps).trans hw₃.toKeeps

/-- Once the bodies are adapted, each wrap relays what its own body does. -/
theorem underway_adapted (hn : l.Nested) (hsize : l.exits.size = l.wraps.size)
    (hempty : ∀ k, l.exit k = {}) (h : l.inSourceOrder.foldlM adaptBody l = .ok l') :
    Underway l l.innerFirst l' := by
  obtain ⟨hw, hchecks, hnodup, hmem⟩ := foldlM_adaptBody hsize (.refl l)
    (fun i hi => mem_inSourceOrder.1 hi) h
  refine ⟨⟨fun k => hnodup k (by rw [hempty]; exact .nil), fun k hk => ⟨?_, fun r => ?_⟩,
    fun k hlt hk => absurd (mem_innerFirst.2 hlt) hk⟩, hn, by rw [hw.size, hw.wraps, hsize],
    hw.toKeeps, fun i hi => mem_innerFirst.1 hi, pairwise_innerFirst hn, fun i hi p hp => ?_⟩
  · rw [hchecks, hempty]
  · rw [hmem, hempty, mem_inSourceOrder]
    constructor
    · rintro (hr | ⟨-, hr⟩)
      · cases hr
      · exact .inl hr
    · rintro (hr | ⟨i, hi, -, hf⟩)
      · exact .inr ⟨mem_innerFirst.1 hk, hr⟩
      · obtain ⟨w, o, hw, -⟩ := forwardTo?_eq_some hf
        exact absurd (mem_innerFirst.2 (Array.getElem?_eq_some_iff.1 hw).1) hi
  · obtain ⟨-, o, ho, -⟩ := hn.parent (Array.getElem?_eq_getElem (mem_innerFirst.1 hi)) hp
    exact mem_innerFirst.2 (Array.getElem?_eq_some_iff.1 ho).1

theorem finish_finished (hn : l.Nested) (hsize : l.exits.size = l.wraps.size)
    (hempty : ∀ k, l.exit k = {}) (h : l.finish = .ok l') :
    Writes (Edit.At l.nodes l.allSites) l l' ∧ l'.Finished := by
  obtain ⟨l₁, l₂, h₁, h₂, h₃, hw₁, hw₂, hw₃⟩ := finish_cases hsize h
  have hresolved : Resolved l [] l₂ := (underway_adapted hn hsize hempty h₁).foldlM h₂
  have hw₂ : Writes (Edit.At l.nodes l.allSites) l₁ l₂ := hw₂.mono fun _ => False.elim
  have hlast := hw₁.trans (hw₂.trans hw₃.toWrites)
  have hlt (i : Nat) (hi : i < l'.wraps.size) : i < l.wraps.size := by rwa [hlast.wraps] at hi
  refine ⟨hlast, fun k => ?_, fun k hk r => ?_, fun k hk => ?_,
    fun i hi site hs n kind label hg hf => ?_, fun i hi => ?_⟩
  · rw [hw₃.exit]
    exact hresolved.nodup k
  · rw [hw₃.exit, hlast.toKeeps.carried_iff]
    exact (hresolved.done k (hlt k hk) (fun h => (nomatch h))).1 r
  · exact (hresolved.done k (hlt k hk) (fun h => (nomatch h))).2.mono hw₃.quiet
  · -- Each body was adapted at some time, and what was written then stays.
    obtain ⟨t, t', ht, hstep, ht'⟩ := foldlM_exists_step (R := Writes fun _ => True) Writes.refl
      Writes.trans (mem_inSourceOrder.2 (hlt i hi))
      (fun _ _ _ _ _ hstep => (adaptBody_adds hstep).toWrites.mono fun _ _ => trivial) h₁
    rw [hlast.sitesOf, ← ht.sitesOf] at hs
    rw [hlast.nodes, ← ht.nodes] at hg ⊢
    exact (hw₂.trans hw₃.toWrites).rewrites (ht'.rewrites (adaptBody_rewrites hstep hs hg hf))
  · exact callWritten_of_foldlM h₃ (mem_innerFirst.2 (hlt i hi))

end Lowering

end LoopClosure
