import LoopClosure.Proofs.Lowering.Finish

/-!
# The pieces of generated text

What a lowering inserts is plain text, names of the source and generated names. A generated name is
used, declared with `var`, or bound by a `catch` clause for its block (`Piece`); `render` writes
pieces out. For each text that a lowering inserts there are its pieces here.
-/

namespace LoopClosure

inductive Atom where
  /-- Keywords, operators, brackets. -/
  | plain (text : String)
  /-- A name of the source. -/
  | known (name : String)
  /-- A use of a generated name. -/
  | use (name : String)
deriving DecidableEq, Repr

inductive Piece where
  | atom (a : Atom)
  /-- A name that a `var` statement declares. -/
  | var (name : String)
  /-- A `catch` clause, whose name is bound in the block. -/
  | catches (name : String) (block : List Atom)
deriving DecidableEq, Repr

namespace Atom

def text : Atom → String
  | plain text => text
  | known name | use name => name

def renderAll : List Atom → String
  | [] => ""
  | a :: as => a.text ++ renderAll as

end Atom

namespace Piece

def text : Piece → String
  | atom a => a.text
  | var name => name
  | catches name block => "catch(" ++ name ++ ")" ++ braces (Atom.renderAll block)

end Piece

/-- Plain text has no dollar sign, other names have `source`, and the generated names that are used
have `visible`. -/
def Atom.Proper (source visible : String → Prop) : Atom → Prop
  | plain text => '$' ∉ text.toList
  | known name => source name
  | use name => visible name

/-- In the block of a `catch` clause the caught name is in scope. -/
def Piece.Proper (source visible : String → Prop) : Piece → Prop
  | atom a => a.Proper source visible
  | var _ => True
  | catches name block => ∀ a ∈ block, a.Proper source fun v => v = name ∨ visible v

def render : List Piece → String
  | [] => ""
  | p :: ps => p.text ++ render ps

theorem render_append (ps qs : List Piece) : render (ps ++ qs) = render ps ++ render qs := by
  induction ps with
  | nil => simp [render]
  | cons p ps ih => rw [List.cons_append, render, render, ih, String.append_assoc]

theorem render_flatMap {α : Type} (f : α → List Piece) (as : List α) :
    render (as.flatMap f) = String.join (as.map fun a => render (f a)) := by
  induction as with
  | nil => rfl
  | cons a as ih => rw [List.flatMap_cons, render_append, ih, List.map_cons, String.join_cons]

/-- Pieces with commas between them. -/
def Piece.listed (ps : List Piece) : List Piece := ps.intersperse (.atom (.plain ", "))

theorem Piece.mem_listed {p : Piece} {ps : List Piece} (hp : p ∈ ps) : p ∈ listed ps := by
  induction ps with
  | nil => exact hp
  | cons q ps ih =>
    cases ps with
    | nil => exact hp
    | cons q' ps =>
      rcases List.mem_cons.1 hp with rfl | hp
      · exact List.mem_cons_self
      · exact List.mem_cons_of_mem _ (List.mem_cons_of_mem _ (ih hp))

theorem Piece.mem_or_of_mem_listed {p : Piece} {ps : List Piece} (hp : p ∈ listed ps) :
    p ∈ ps ∨ p = .atom (.plain ", ") := by
  induction ps with
  | nil => exact .inl hp
  | cons q ps ih =>
    cases ps with
    | nil => exact .inl hp
    | cons q' ps =>
      rcases List.mem_cons.1 hp with rfl | hp
      · exact .inl List.mem_cons_self
      · rcases List.mem_cons.1 hp with rfl | hp
        · exact .inr rfl
        · exact (ih hp).imp_left (List.mem_cons_of_mem _)

theorem render_listed {f : String → Piece} (hf : ∀ v, (f v).text = v) (names : List String) :
    render (Piece.listed (names.map f)) = ", ".intercalate names := by
  induction names with
  | nil => rfl
  | cons v names ih =>
    cases names with
    | nil => simp [Piece.listed, render, hf]
    | cons w names =>
      rw [String.intercalate_cons_of_ne_nil (List.cons_ne_nil _ _), ← ih]
      have hcomma : (Piece.atom (.plain ", ")).text = ", " := rfl
      simp [Piece.listed, render, hf, hcomma, String.append_assoc]

/-! ## The texts of a lowering -/

open Piece Atom

attribute [local simp] render Piece.text Atom.text

/-- Leaves the function after raising a flag. -/
def raisePieces (flag : String) : List Piece :=
  [atom (plain "\x7b"), atom (use flag), atom (plain " = true;return"), atom (plain "\x7d")]

def checkPieces (flag : String) (action : List Piece) : List Piece :=
  [atom (plain "if("), atom (use flag), atom (plain "===true)"), atom (plain "\x7b")] ++ action ++
    [atom (plain "\x7d")]

def jumpPieces (flag : String) (jump : List Piece) : List Piece :=
  checkPieces flag ([atom (use flag), atom (plain "=void 0;")] ++ jump)

def returnPieces (flag value caught : String) : List Piece :=
  checkPieces flag [atom (plain "try"), atom (plain "\x7b"), atom (plain "throw "),
    atom (use value), atom (plain "\x7d"),
    catches caught [use value, plain "=", use flag, plain "=void 0;return ", use caught]]

theorem render_raisePieces (flag : String) : render (raisePieces flag) = raiseText flag := by
  simp [raisePieces, raiseText, braces, String.append_assoc]

theorem render_checkPieces (flag : String) (action : List Piece) :
    render (checkPieces flag action) = checkText flag (render action) := by
  simp [render_append, checkPieces, checkText, braces, String.append_assoc]

theorem render_jumpPieces (flag : String) (jump : List Piece) :
    render (jumpPieces flag jump) = jumpText flag (render jump) := by
  simp [render_checkPieces, jumpPieces, jumpText, String.append_assoc]

theorem render_returnPieces (flag value caught : String) :
    render (returnPieces flag value caught) = returnText flag value caught := by
  simp [-String.reduceAppend, render_checkPieces, returnPieces, returnText, braces, renderAll,
    String.append_assoc]

/-- The pieces of the check of a relay. -/
def Relay.pieces (flag value caught : String) (handsOn : Bool) (r : Relay) : List Piece :=
  if handsOn then
    checkPieces flag
      (if r.isValued then [atom (plain "return "), atom (use value)] else [atom (plain "return")])
  else
    match r with
    | .break_ none => jumpPieces flag [atom (plain "break")]
    | .break_ (some label) => jumpPieces flag [atom (plain "break "), atom (known label)]
    | .continue_ label => jumpPieces flag [atom (plain "continue "), atom (known label)]
    | .returnVoid => jumpPieces flag [atom (plain "return")]
    | .returnPrimitive => jumpPieces flag [atom (plain "return "), atom (use value)]
    | .returnValue => returnPieces flag value caught

/-- The name given out for a key, if it was asked for. -/
def Names.get (n : Names) (key : String) : String := (n.permanent? key).getD ""

/-- The pieces of the check of a relay, with the names that were given out. -/
def Relay.namedPieces (n : Names) (handsOn : Bool) (r : Relay) : List Piece :=
  r.pieces (n.get r.flagKey) (n.get "value") (n.get "rp") handsOn

theorem Names.get_eq {n : Names} {key name : String} (h : n.permanent? key = some name) :
    n.get key = name := by
  rw [Names.get, h, Option.getD_some]

theorem Relay.exists_value_of_check? {n : Names} {handsOn : Bool} {r : Relay} {text : String}
    (h : r.check? n handsOn = some text) (hv : r.isValued = true) :
    ∃ value, n.permanent? "value" = some value := by
  obtain ⟨flag, -, h⟩ := Option.bind_eq_some_iff.1 h
  cases handsOn with
  | true =>
    rw [if_pos rfl, if_pos hv] at h
    obtain ⟨value, hvalue, -⟩ := Option.bind_eq_some_iff.1 h
    exact ⟨value, hvalue⟩
  | false =>
    rw [if_neg Bool.false_ne_true] at h
    cases r with
    | break_ label | continue_ label | returnVoid => cases hv
    | returnPrimitive | returnValue =>
      obtain ⟨value, hvalue, -⟩ := Option.bind_eq_some_iff.1 h
      exact ⟨value, hvalue⟩

theorem Relay.render_namedPieces {n : Names} {handsOn : Bool} {r : Relay} {text : String}
    (h : r.check? n handsOn = some text) : render (r.namedPieces n handsOn) = text := by
  obtain ⟨flag, hflag, h⟩ := Option.bind_eq_some_iff.1 h
  unfold Relay.namedPieces Relay.pieces
  rw [Names.get_eq hflag]
  cases handsOn with
  | true =>
    rw [if_pos rfl] at h ⊢
    rw [render_checkPieces]
    split at h
    · next hv =>
      obtain ⟨value, hvalue, h⟩ := Option.bind_eq_some_iff.1 h
      cases h
      rw [if_pos hv, Names.get_eq hvalue]
      simp [forwardText]
    · next hv =>
      cases h
      rw [if_neg hv]
      simp [forwardText]
  | false =>
    rw [if_neg Bool.false_ne_true] at h ⊢
    cases r with
    | break_ label =>
      cases label <;>
        · cases h
          simp [render_jumpPieces]
    | continue_ label | returnVoid =>
      cases h
      simp [render_jumpPieces]
    | returnPrimitive =>
      obtain ⟨value, hvalue, h⟩ := Option.bind_eq_some_iff.1 h
      cases h
      simp [render_jumpPieces, Names.get_eq hvalue]
    | returnValue =>
      obtain ⟨value, hvalue, h⟩ := Option.bind_eq_some_iff.1 h
      obtain ⟨caught, hcaught, h⟩ := Option.bind_eq_some_iff.1 h
      cases h
      simp [render_returnPieces, Names.get_eq hvalue, Names.get_eq hcaught]

/-- The declarations and the head of a call. -/
def Wrap.startPieces (w : Wrap) (declared : List String) (value : Option String) : List Piece :=
  (if w.blockBody then [] else [atom (plain "\x7b")]) ++
    (if declared.isEmpty then [] else
      [atom (plain "var ")] ++ listed (declared.map var) ++ [atom (plain ";")]) ++
    (match value with
      | some name => [atom (use name), atom (plain " = ")]
      | none => []) ++
    [atom (plain "(function(")] ++ listed (w.params.map fun v => atom (known v)) ++
    [atom (plain ")\x7b")]

/-- The end of a call and its checks. -/
def Wrap.endPieces (w : Wrap) (checks : List Piece) : List Piece :=
  [atom (plain "\x7d)(")] ++ listed (w.params.map fun v => atom (known v)) ++
    [atom (plain ");")] ++ checks ++ if w.blockBody then [] else [atom (plain "\x7d")]

theorem Wrap.text_callStart (w : Wrap) (body : Syntax.Node) (declared : List String)
    (value : Option String) :
    (w.callStart body declared value).text = render (w.startPieces declared value) := by
  have hparams := render_listed (f := fun v => atom (known v)) (fun _ => rfl) w.params
  have hdeclared := render_listed (f := var) (fun _ => rfl) declared
  unfold Wrap.callStart Wrap.startPieces
  cases w.blockBody <;> cases value <;> cases hempty : declared.isEmpty <;>
    simp [-String.reduceAppend, render_append, hparams, hdeclared, String.append_assoc]

theorem Wrap.text_callEnd (w : Wrap) (body : Syntax.Node) {checks : List String}
    {pieces : List Piece} (h : String.join checks = render pieces) :
    (w.callEnd body checks).text = render (w.endPieces pieces) := by
  have hparams := render_listed (f := fun v => atom (known v)) (fun _ => rfl) w.params
  unfold Wrap.callEnd Wrap.endPieces
  cases w.blockBody <;>
    simp [render_append, hparams, h, String.append_assoc]

/-! ## Names in the texts -/

section Proper

variable {source visible : String → Prop} {flag value caught : String} {action : List Piece}

@[simp] theorem Piece.proper_plain {text : String} :
    (atom (plain text)).Proper source visible ↔ '$' ∉ text.toList := .rfl

@[simp] theorem Piece.proper_known {name : String} :
    (atom (known name)).Proper source visible ↔ source name := .rfl

@[simp] theorem Piece.proper_use {name : String} :
    (atom (use name)).Proper source visible ↔ visible name := .rfl

@[simp] theorem Piece.proper_var {name : String} : (var name).Proper source visible := trivial

theorem raisePieces_proper (hflag : visible flag) :
    ∀ p ∈ raisePieces flag, p.Proper source visible := by
  simp [raisePieces, hflag]

theorem checkPieces_proper (hflag : visible flag) (ha : ∀ p ∈ action, p.Proper source visible) :
    ∀ p ∈ checkPieces flag action, p.Proper source visible := by
  simpa [checkPieces, or_imp, forall_and, hflag] using ha

theorem jumpPieces_proper (hflag : visible flag) (ha : ∀ p ∈ action, p.Proper source visible) :
    ∀ p ∈ jumpPieces flag action, p.Proper source visible :=
  checkPieces_proper hflag (by simpa [or_imp, forall_and, hflag] using ha)

theorem returnPieces_proper (hflag : visible flag) (hvalue : visible value) :
    ∀ p ∈ returnPieces flag value caught, p.Proper source visible :=
  checkPieces_proper hflag (by simp [hvalue, hflag, Piece.Proper, Atom.Proper])

theorem Relay.pieces_proper {r : Relay} (hflag : visible flag)
    (hvalue : r.isValued = true → visible value)
    (hlabel : ∀ label, r.label? = some label → source label) (handsOn : Bool) :
    ∀ p ∈ r.pieces flag value caught handsOn, p.Proper source visible := by
  unfold Relay.pieces
  split
  · refine checkPieces_proper hflag ?_
    split
    · next hv => simp [hvalue hv]
    · simp
  · split
    · exact jumpPieces_proper hflag (by simp)
    · next label => exact jumpPieces_proper hflag (by simp [hlabel label rfl])
    · next label => exact jumpPieces_proper hflag (by simp [hlabel label rfl])
    · exact jumpPieces_proper hflag (by simp)
    · exact jumpPieces_proper hflag (by simp [hvalue rfl])
    · exact returnPieces_proper hflag (hvalue rfl)

theorem Piece.listed_proper {ps : List Piece} (h : ∀ p ∈ ps, p.Proper source visible) :
    ∀ p ∈ listed ps, p.Proper source visible := by
  intro p hp
  rcases mem_or_of_mem_listed hp with hp | rfl
  · exact h p hp
  · simp

section

variable {w : Wrap} (hparams : ∀ v ∈ w.params, source v)

include hparams

theorem Wrap.params_proper :
    ∀ p ∈ listed (w.params.map fun v => atom (known v)), p.Proper source visible :=
  listed_proper (by simpa using hparams)

theorem Wrap.startPieces_proper {value : Option String} (declared : List String)
    (hvalue : ∀ v, value = some v → visible v) :
    ∀ p ∈ w.startPieces declared value, p.Proper source visible := by
  have hvars : ∀ p ∈ listed (declared.map var), p.Proper source visible :=
    listed_proper (by simp)
  have hknown : ∀ p ∈ listed (w.params.map fun v => atom (known v)), p.Proper source visible :=
    w.params_proper hparams
  simp only [Wrap.startPieces, List.forall_mem_append]
  refine ⟨⟨⟨⟨⟨?_, ?_⟩, ?_⟩, by simp⟩, hknown⟩, by simp⟩
  · split <;> simp
  · split
    · simp
    · simp only [List.forall_mem_append]
      exact ⟨⟨by simp, hvars⟩, by simp⟩
  · split
    · simp [hvalue]
    · simp

theorem Wrap.endPieces_proper {checks : List Piece}
    (hchecks : ∀ p ∈ checks, p.Proper source visible) :
    ∀ p ∈ w.endPieces checks, p.Proper source visible := by
  have hknown : ∀ p ∈ listed (w.params.map fun v => atom (known v)), p.Proper source visible :=
    w.params_proper hparams
  simp only [Wrap.endPieces, List.forall_mem_append]
  refine ⟨⟨⟨⟨by simp, hknown⟩, by simp⟩, hchecks⟩, ?_⟩
  split <;> simp

end

end Proper

/-! ## Declarations in the texts -/

theorem Wrap.var_mem_startPieces {w : Wrap} {declared : List String} {value : Option String}
    {v : String} : var v ∈ w.startPieces declared value ↔ v ∈ declared := by
  have hvars : var v ∈ listed (declared.map var) ↔ v ∈ declared :=
    ⟨fun h => by simpa using mem_or_of_mem_listed h, fun h => mem_listed (List.mem_map_of_mem h)⟩
  have hknown : var v ∉ listed (w.params.map fun v => atom (known v)) := fun h => by
    simpa using mem_or_of_mem_listed h
  cases declared with
  | nil => cases hb : w.blockBody <;> cases value <;> simp [Wrap.startPieces, hb, hknown]
  | cons d ds => cases hb : w.blockBody <;> cases value <;> simp_all [Wrap.startPieces]

theorem Relay.var_notMem_pieces {flag value caught v : String} {handsOn : Bool} {r : Relay} :
    var v ∉ r.pieces flag value caught handsOn := by
  unfold Relay.pieces
  split
  · split <;> simp [checkPieces]
  · split <;> simp [checkPieces, jumpPieces, returnPieces]

theorem Wrap.var_notMem_endPieces {w : Wrap} {checks : List Piece} {v : String}
    (hchecks : var v ∉ checks) : var v ∉ w.endPieces checks := by
  have hknown : var v ∉ listed (w.params.map fun v => atom (known v)) := fun h => by
    simpa using mem_or_of_mem_listed h
  unfold Wrap.endPieces
  split <;> simp [hknown, hchecks]

end LoopClosure
