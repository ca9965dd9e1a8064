import LoopClosure.Compile
import LoopClosure.Proofs.Grammar.Program
import LoopClosure.Proofs.Lowering.Detection

/-!
# The outcome of a lowering

`lowering b` is the state that the lowering of a bound unit ends in; `lower` writes it out
(`lower_eq_ok`). For a unit with a well-formed table, `Outcome` says what is known of the state
(`lowering_outcome`).

A compilation writes out the state that the lowering ends in. Since the grammar accepts well-formed
trees only, and binding makes well-scoped units of them, all that is known of lowered units holds of
this state (`compile_outcome`).
-/

namespace LoopClosure

open Syntax Syntax.Nodes

/-- The state that the lowering of a bound unit ends in. -/
def lowering (b : Bound) : Except Failure Lowering := do
  let (b, wraps) ← b.wrapLoops
  (Lowering.ofWraps b wraps).finish

variable {b b' : Bound} {l : Lowering} {out : Lowered}

theorem lower_eq_ok : lower b = .ok out ↔ ∃ l, lowering b = .ok l ∧ l.draft.apply = .ok out.code ∧
    out.edits = l.draft.edits.active ∧ out.wrappedLoops = l.wraps.toList.mapIdx l.wrappedLoop ∧
      out.bound = l.bound := by
  constructor
  · intro h
    obtain ⟨⟨b', wraps⟩, hwraps, h⟩ := bind_eq_ok.1 h
    obtain ⟨l, hfinish, h⟩ := bind_eq_ok.1 h
    obtain ⟨code, hcode, h⟩ := bind_eq_ok.1 h
    cases h
    have hw : l.wraps = wraps :=
      (Lowering.finish_keeps Array.size_replicate hfinish).wraps
    exact ⟨l, bind_eq_ok.2 ⟨_, hwraps, hfinish⟩, hcode, rfl, by rw [hw], rfl⟩
  · rintro ⟨l, h, hcode, hedits, hloops, hbound⟩
    obtain ⟨⟨b', wraps⟩, hwraps, hfinish⟩ := bind_eq_ok.1 h
    have hw : l.wraps = wraps :=
      (Lowering.finish_keeps Array.size_replicate hfinish).wraps
    refine bind_eq_ok.2 ⟨_, hwraps, bind_eq_ok.2 ⟨l, hfinish, bind_eq_ok.2 ⟨_, hcode, ?_⟩⟩⟩
    obtain ⟨code, edits, loops, bound⟩ := out
    subst hedits hloops hbound
    rw [hw]
    rfl

theorem lower_eq_error {e : Failure} (h : lowering b = .error e) : lower b = .error e := by
  unfold lowering at h
  unfold lower
  cases hw : b.wrapLoops with
  | error e' =>
    rw [hw] at h
    cases h
    rfl
  | ok r =>
    rw [hw, ok_bind] at h
    rw [ok_bind]
    dsimp only at h ⊢
    rw [h]
    rfl

/-! ## Wraps -/

theorem Bound.wrapAll_wrapsOf {wraps wraps' : Array Wrap} {idents : List NodeId}
    (hb : b.WellScoped) (hw : WrapsOf b.nodes wraps)
    (h : wrapAll b wraps idents = .ok (b', wraps')) : WrapsOf b.nodes wraps' := by
  induction idents generalizing b wraps with
  | nil =>
    cases h
    exact hw
  | cons ident idents ih =>
    unfold wrapAll at h
    split at h
    · exact ih hb hw h
    · obtain ⟨⟨b₁, wraps₁⟩, hstep, h⟩ := bind_eq_ok.1 h
      obtain ⟨hb₁, hext⟩ := wrapHazard_extends hb hstep
      rw [← hext.nodes] at hw ⊢
      refine ih hb₁ ?_ h
      obtain ⟨-, -, ⟨-, rfl, -⟩ | ⟨body, w, hbody, -, hnew, hwrap, rfl⟩⟩ := wrapHazard_cases hstep
      · exact hw
      · obtain ⟨hloop, hwbody, -⟩ := wrap_spec hb hwrap
        obtain ⟨form, hf, hform⟩ := Option.bind_eq_some_iff.1 hbody
        rw [← hloop, ← hext.nodes] at hf
        refine hw.push hf (hwbody ▸ hform) fun v hv heq => hnew ?_
        rw [← hloop, ← heq]
        exact List.mem_map_of_mem hv

theorem Lowering.nested_ofWraps {wraps : Array Wrap} (hns : b.nodes.WellFormed)
    (hw : WrapsOf b.nodes wraps) : (ofWraps b wraps).Nested where
  nodes := hns
  wraps := hw
  parents {i} hi := by
    have hi' : i < wraps.size := hi
    simp [Lowering.parent?, ofWraps, hi', Lowering.nodes, Draft.nodes, Draft.ofBound]

theorem Lowering.exit_ofWraps (b : Bound) (wraps : Array Wrap) (k : Nat) :
    (ofWraps b wraps).exit k = {} := by
  rw [exit, ofWraps, Array.getElem?_replicate]
  split <;> rfl

/-- What is known of the state that a lowering ends in. -/
structure Lowering.Outcome (l : Lowering) : Prop extends Finished l where
  nested : l.Nested
  names : l.draft.names.Sound
  edits : ∀ e ∈ l.draft.edits.edits.toList, e.At l.nodes l.allSites

theorem lowering_outcome (hb : b.WellScoped) (hns : b.nodes.WellFormed)
    (h : lowering b = .ok l) : l.Outcome ∧ l.nodes = b.nodes := by
  obtain ⟨⟨b', wraps⟩, hwraps, hfinish⟩ := bind_eq_ok.1 h
  have hnodes : b'.nodes = b.nodes := (Bound.wrapAll_extends hb hwraps).2.nodes
  have hw := Bound.wrapAll_wrapsOf hb (.empty _) hwraps
  rw [← hnodes] at hns hw
  have hn := Lowering.nested_ofWraps hns hw
  obtain ⟨hwrites, hfinished⟩ := Lowering.finish_finished hn Array.size_replicate
    (Lowering.exit_ofWraps b' wraps) hfinish
  obtain ⟨es, hes, hedits⟩ := hwrites.edits
  have hsites : l.allSites = (Lowering.ofWraps b' wraps).allSites := by
    simp only [Lowering.allSites, hwrites.wraps, hwrites.sites]
  refine ⟨⟨hfinished, hwrites.nested hn, hwrites.names.sound (Names.sound_of_permanent rfl), ?_⟩,
    hwrites.nodes.trans hnodes⟩
  rw [hes, hsites, hwrites.nodes]
  exact hedits

/-! ## Compilations -/

variable {file : String} {source : List Char} {options : Options}

/-- The state that the lowering of a source ends in. -/
def lowerSource (file : String) (source : List Char) (options : Options) :
    Except (Halt Failure) Lowering :=
  match Grammar.parse source with
  | .error .abort => .error .abort
  | .error (.fault d) => .error (.fault (syntaxFailure file source d))
  | .ok t => (do lowering (← bind { file, source, nodes := .ofTree t, options }) :
      Except Failure Lowering).mapError .fault

/-- The lowering of a source ends in `l`, and `out` is what it wrote. -/
structure Compiles (file : String) (source : List Char) (options : Options) (l : Lowering)
    (out : Lowered) : Prop where
  lowered : lowerSource file source options = .ok l
  nodes : ∃ t, Grammar.parse source = .ok t ∧ l.nodes = .ofTree t
  code : l.draft.apply = .ok out.code
  edits : out.edits = l.draft.edits.active
  wrappedLoops : out.wrappedLoops = l.wraps.toList.mapIdx l.wrappedLoop
  calls : ∀ k < l.wraps.size, l.CallWritten k

theorem lowerSource_eq_ok : lowerSource file source options = .ok l ↔ ∃ t b,
    Grammar.parse source = .ok t ∧ bind { file, source, nodes := .ofTree t, options } = .ok b ∧
      lowering b = .ok l := by
  unfold lowerSource
  split
  · next hparse => simp [hparse]
  · next d hparse => simp [hparse]
  · next t hparse =>
    rw [mapError_eq_ok, bind_eq_ok]
    constructor
    · rintro ⟨b, hb, hl⟩
      exact ⟨t, b, hparse, hb, hl⟩
    · rintro ⟨t', b, hparse', hb, hl⟩
      obtain rfl : t = t' := Except.ok.inj (hparse.symm.trans hparse')
      exact ⟨b, hb, hl⟩

/-- The table of a bound source is that of a well-formed tree. -/
theorem nodes_of_bind {t : Tree} {b : Bound} (hparse : Grammar.parse source = .ok t)
    (hb : bind { file, source, nodes := .ofTree t, options } = .ok b) :
    b.nodes = .ofTree t ∧ b.nodes.WellFormed := by
  have hnodes : b.nodes = .ofTree t := congrArg CompilationUnit.nodes (bind_unit hb)
  exact ⟨hnodes, hnodes ▸ Nodes.wellFormed_ofTree (Grammar.parse_wellFormed hparse)⟩

theorem outcome_of_lowerSource (h : lowerSource file source options = .ok l) :
    l.Outcome ∧ ∃ t, Grammar.parse source = .ok t ∧ l.nodes = .ofTree t := by
  obtain ⟨t, b, hparse, hb, hl⟩ := lowerSource_eq_ok.1 h
  obtain ⟨hnodes, hwf⟩ := nodes_of_bind hparse hb
  obtain ⟨hout, hkept⟩ := lowering_outcome (bind_wellScoped hb).1 hwf hl
  exact ⟨hout, t, hparse, hkept.trans hnodes⟩

theorem compile_eq_ok : compile file source options = .ok out ↔
    ∃ l, lowerSource file source options = .ok l ∧ l.draft.apply = .ok out.code ∧
      out.edits = l.draft.edits.active ∧ out.wrappedLoops = l.wraps.toList.mapIdx l.wrappedLoop ∧
        out.bound = l.bound := by
  unfold compile
  split
  · next hparse =>
    unfold lowerSource
    simp [hparse]
  · next d hparse =>
    unfold lowerSource
    simp [hparse]
  · next t hparse =>
    rw [mapError_eq_ok]
    constructor
    · intro h
      obtain ⟨b, hb, h⟩ := bind_eq_ok.1 h
      obtain ⟨l, hl, hout⟩ := lower_eq_ok.1 h
      exact ⟨l, lowerSource_eq_ok.2 ⟨t, b, hparse, hb, hl⟩, hout⟩
    · rintro ⟨l, hl, hout⟩
      obtain ⟨t', b, hparse', hb, hl⟩ := lowerSource_eq_ok.1 hl
      obtain rfl : t = t' := Except.ok.inj (hparse.symm.trans hparse')
      exact bind_eq_ok.2 ⟨b, hb, lower_eq_ok.2 ⟨l, hl, hout⟩⟩

theorem compile_outcome (h : compile file source options = .ok out) :
    ∃ l, Compiles file source options l out ∧ l.Outcome := by
  obtain ⟨l, hl, hcode, hedits, hloops, -⟩ := compile_eq_ok.1 h
  obtain ⟨ho, hnodes⟩ := outcome_of_lowerSource hl
  exact ⟨l, ⟨hl, hnodes, hcode, hedits, hloops, ho.calls⟩, ho⟩

/-- A lowering whose edits can be applied is a compilation. -/
theorem exists_compile_of_apply {code : List Char}
    (hl : lowerSource file source options = .ok l) (hcode : l.draft.apply = .ok code) :
    ∃ out, compile file source options = .ok out :=
  ⟨⟨code, l.draft.edits.active, l.wraps.toList.mapIdx l.wrappedLoop, l.bound⟩,
    compile_eq_ok.2 ⟨l, hl, hcode, rfl, rfl, rfl⟩⟩

/-- A test of the state behind a compilation. -/
theorem exists_compile {p : Lowering → Bool} (h : okAnd (lowerSource file source options) (fun l =>
    okAnd l.draft.apply (fun _ => true) && p l) = true) :
    ∃ l out, compile file source options = .ok out ∧
      lowerSource file source options = .ok l ∧ p l = true := by
  obtain ⟨l, hl, h⟩ := okAnd_iff.1 h
  rw [Bool.and_eq_true] at h
  obtain ⟨code, hcode, -⟩ := okAnd_iff.1 h.1
  obtain ⟨out, hout⟩ := exists_compile_of_apply hl hcode
  exact ⟨l, out, hout, hl, h.2⟩

end LoopClosure
