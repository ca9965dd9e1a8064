import LoopClosure.Proofs.Syntax.WellFormed
import LoopClosure.Proofs.Text.Bytes
import LoopClosure.Proofs.Token.Lexemes

/-!
# Nodes begin and end with tokens

The nodes of a tree read from a text begin and end between two characters of the text, and so do the
keyword of a declaration and the braces of a block (`Tree.Edged`).

A node begins where a token begins and ends where a token ends, and a name or a literal is spelled as
the text there (`Form.ReadAt`). That holds of all nodes below the program (`Tree.Read`), of which none
is a program, and the tokens of all of them are those of one way to read the text. A block whose text
begins with `var` begins with a declaration (`DeclaredAt`).
-/

namespace LoopClosure.Syntax

open Text Token

/-! ## Edges between characters -/

/-- The length of the keyword of a declaration, or of the brace of a block. -/
def Form.opening {α : Type} : Form α → Nat
  | .bindings .. => 3
  | .block _ => 1
  | _ => 0

@[simp] theorem Form.opening_number {α : Type} {f : Form α} : f.number.opening = f.opening := by
  cases f <;> rfl

@[simp] theorem Form.opening_map {α β : Type} {f : Form α} {g : α → β} :
    (f.map g).opening = f.opening := by
  cases f <;> rfl

/-- A node with the form from `start` to `stop` lies between characters. -/
structure Form.EdgedAt {α : Type} (source : List Char) (start stop : Nat) (form : Form α) :
    Prop where
  front : isBoundary source start = true
  back : isBoundary source stop = true
  opening : isBoundary source (start + form.opening) = true
  closing : isBoundary source (stop - form.trail) = true

theorem Form.EdgedAt.of_plain {α : Type} {source : List Char} {start stop : Nat} {form : Form α}
    (hfront : isBoundary source start = true) (hback : isBoundary source stop = true)
    (hopening : form.opening = 0) (htrail : form.trail = 0) : form.EdgedAt source start stop where
  front := hfront
  back := hback
  opening := by rwa [hopening]
  closing := by rwa [htrail]

namespace Tree

/-- The nodes of the tree lie between characters. -/
inductive Edged (source : List Char) : Tree → Prop where
  | node {start stop : Nat} {form : Form Nat} {ts : List Tree}
    (edges : form.EdgedAt source start stop) (kids : ∀ t ∈ ts, t.Edged source) :
    Edged source (.node start stop form ts)

variable {source : List Char} {t u : Tree} {start stop : Nat} {form : Form Nat} {ts : List Tree}

theorem Edged.edges (h : t.Edged source) : t.form.EdgedAt source t.start t.stop := by
  cases h
  assumption

theorem Edged.kid (h : (Tree.node start stop form ts).Edged source) (ht : t ∈ ts) :
    t.Edged source := by
  cases h with
  | node _ kids => exact kids t ht

theorem Located.edged {id i : Nat} {parent p : Option NodeId} (h : Located id parent t i p u)
    (ht : t.Edged source) : u.Edged source := by
  induction h with
  | here => exact ht
  | child _ ih => exact ih (ht.kid (by simp))

end Tree

/-- The nodes of a table lie between characters. -/
theorem Nodes.edged_ofTree {source : List Char} {t : Tree} (ht : t.Edged source) {id : NodeId}
    {n : Node} (h : (ofTree t).get? id = some n) : n.form.EdgedAt source n.start n.stop := by
  obtain ⟨p, u, hu, rfl⟩ := located_of_get? h
  obtain ⟨hfront, hback, hopening, hclosing⟩ := (hu.edged ht).edges
  refine ⟨hfront, hback, ?_, ?_⟩
  · rwa [Tree.nodeAt, Form.opening_map]
  · rwa [Tree.nodeAt, Form.trail_map]

/-! ## Tokens at the edges -/

/-- The spelling of a name or a literal. -/
def Form.spelling? {α : Type} : Form α → Option String
  | .identifier name => some name
  | .literal _ raw => some raw
  | _ => none

@[simp] theorem Form.spelling?_number {α : Type} {f : Form α} : f.number.spelling? = f.spelling? := by
  cases f <;> rfl

@[simp] theorem Form.spelling?_map {α β : Type} {f : Form α} {g : α → β} :
    (f.map g).spelling? = f.spelling? := by
  cases f <;> rfl

def Form.isProgram {α : Type} : Form α → Bool
  | .program _ _ => true
  | _ => false

@[simp] theorem Form.isProgram_number {α : Type} {f : Form α} : f.number.isProgram = f.isProgram := by
  cases f <;> rfl

@[simp] theorem Form.isProgram_map {α β : Type} {f : Form α} {g : α → β} :
    (f.map g).isProgram = f.isProgram := by
  cases f <;> rfl

/-- A node with the form goes from the start of a token to the end of one. -/
structure Form.ReadAt {α : Type} (source : List Char) (ks : List Lexeme) (start stop : Nat)
    (form : Form α) : Prop extends form.EdgedAt source start stop where
  begins : ∃ k ∈ ks, k.start = start
  ends : ∃ k ∈ ks, k.stop = stop
  spelled : ∀ text, form.spelling? = some text → slice? source start stop = some text.toList
  inner : form.isProgram = false

variable {source : List Char} {ks ks' : List Lexeme}

theorem Form.ReadAt.mono {α : Type} {start stop : Nat} {form : Form α}
    (h : form.ReadAt source ks start stop) (hks : ks ⊆ ks') : form.ReadAt source ks' start stop :=
  { h with
    begins := h.begins.imp fun _ hk => ⟨hks hk.1, hk.2⟩
    ends := h.ends.imp fun _ hk => ⟨hks hk.1, hk.2⟩ }

namespace Tree

/-- If the text at `p` begins with `var`, the first of the trees is a declaration. -/
def DeclaredAt (source : List Char) (p : Nat) (ts : List Tree) : Prop :=
  ∀ rest, dropBytes? p source = some ('v' :: 'a' :: 'r' :: ' ' :: rest) →
    ∃ t us, ts = t :: us ∧ t.form.isBindings = true

/-- The nodes of the tree are read from the tokens. -/
inductive Read (source : List Char) (ks : List Lexeme) : Tree → Prop where
  | node {start stop : Nat} {form : Form Nat} {ts : List Tree}
    (read : form.ReadAt source ks start stop) (kids : ∀ t ∈ ts, t.Read source ks)
    (block : form.isBlock = true → DeclaredAt source (start + 1) ts) :
    Read source ks (.node start stop form ts)

variable {t u : Tree} {start stop : Nat} {form : Form Nat} {ts : List Tree}

theorem Read.readAt (h : t.Read source ks) : t.form.ReadAt source ks t.start t.stop := by
  cases h
  assumption

theorem Read.kid (h : (Tree.node start stop form ts).Read source ks) (ht : t ∈ ts) :
    t.Read source ks := by
  cases h with
  | node _ kids _ => exact kids t ht

theorem Read.mono (h : t.Read source ks) (hks : ks ⊆ ks') : t.Read source ks' := by
  induction h with
  | node read _ block ih => exact .node (read.mono hks) ih block

theorem Read.edged (h : t.Read source ks) : t.Edged source := by
  induction h with
  | node read _ _ ih => exact .node read.toEdgedAt ih

theorem Located.read {id i : Nat} {parent p : Option NodeId} (h : Located id parent t i p u)
    (ht : t.Read source ks) : u.Read source ks := by
  induction h with
  | here => exact ht
  | child _ ih => exact ih (ht.kid (by simp))

end Tree

end LoopClosure.Syntax
