import LoopClosure.Proofs.Syntax.Nested
import LoopClosure.Proofs.Syntax.Ways
import LoopClosure.Proofs.Token.Lexemes

/-!
# Places in a program

What may stand in a place of a program depends on what is around it. A `Place` says whether `in` is an
operator there, whether `yield` and `await` are, how tight a binary operator has to bind, and which
part of its parent the node is (`Slot`). `Place.into` leads from a node to its children, and
`Place.admits` is what a place asks of a node.

`Tree.Suits ks p t`: all nodes of `t` are admitted where they stand, if `t` stands in `p`, and every
binary operator is the one token of `ks` between its operands.

- `Tree.suits_ofForm` takes a node apart into its children.
- `Tree.Suits.weaken`: a tree may be put where less is asked.

`Nodes.StandsIn ns top i p`: if the root of the table stands in `top`, node `i` stands in `p`.

- `Nodes.exists_standsIn`: every node stands somewhere.
- `Nodes.StandsIn.admits`: in the table of a tree that suits its place, each node is admitted where
  it stands.
- `Nodes.StandsIn.operates`: a binary operator stands between its operands.
-/

namespace LoopClosure

open Token

namespace Token.Kind

/-- How tight an operator has to bind in the operand in front, -/
def leftAbove (op : Kind) : Nat := if op = .punct .starStar then 12 else op.precedence true - 1

/-- and in the one behind. -/
def rightAbove (op : Kind) : Nat :=
  if op = .punct .starStar then op.precedence true - 1 else op.precedence true

theorem precedence_le (k : Kind) (allowIn : Bool) : k.precedence allowIn ≤ 12 := by
  cases allowIn <;> cases k with
  | punct p => cases p <;> decide
  | word w => cases w <;> decide
  | _ => exact Nat.zero_le _

theorem precedence_le_true (k : Kind) (allowIn : Bool) :
    k.precedence allowIn ≤ k.precedence true := by
  cases allowIn <;> cases k with
  | word w => cases w <;> decide
  | _ => exact Nat.le_refl _

/-- An operator binds as it does anywhere. -/
theorem precedence_eq_true {k : Kind} {allowIn : Bool} (h : 0 < k.precedence allowIn) :
    k.precedence allowIn = k.precedence true := by
  cases allowIn <;> cases k with
  | word w => cases w <;> first | rfl | exact absurd h (Nat.lt_irrefl 0)
  | _ => rfl

theorem leftAbove_le (op : Kind) : op.leftAbove ≤ 12 := by
  have hle := op.precedence_le true
  unfold leftAbove
  split <;> omega

theorem rightAbove_le (op : Kind) : op.rightAbove ≤ 12 := by
  have hle := op.precedence_le true
  unfold rightAbove
  split <;> omega

theorem rightAbove_eq {op : Kind} {allowIn : Bool} (h : 0 < op.precedence allowIn) :
    op.rightAbove = if op = .punct .starStar then op.precedence allowIn - 1
      else op.precedence allowIn := by
  rw [rightAbove, precedence_eq_true h]

/-- The one operator that groups to the right binds tightest. -/
theorem eq_starStar {k : Kind} {allowIn : Bool} (h : 11 < k.precedence allowIn) :
    k = .punct .starStar := by
  cases allowIn <;> cases k with
  | punct p => cases p <;> first | rfl | exact absurd h (by decide)
  | word w => cases w <;> exact absurd h (by decide)
  | _ => exact absurd h (Nat.not_lt_zero 11)

/-- An operator behind the right operand of another has that one in its left operand. -/
theorem leftAbove_lt {op k : Kind} {allowIn : Bool} (hop : 0 < op.precedence allowIn)
    (hk : 0 < k.precedence allowIn) (hle : k.precedence allowIn ≤ op.rightAbove) :
    k.leftAbove < op.precedence allowIn := by
  rw [rightAbove_eq hop] at hle
  unfold leftAbove
  split
  · next hstar =>
    subst hstar
    have htight : Kind.precedence allowIn (.punct .starStar) = 12 := rfl
    have hle12 := op.precedence_le allowIn
    split at hle
    · omega
    · next hne => exact absurd (eq_starStar (Nat.lt_of_lt_of_le (by omega) hle)) hne
  · rw [← precedence_eq_true hk]
    split at hle <;> omega

end Token.Kind

namespace Syntax

namespace Form

variable {α β : Type}

/-- A name, a plain member, or parentheses. -/
def isSimple : Form α → Bool
  | .identifier _ | .parenthesized _ => true
  | .member _ _ _ optional => !optional
  | _ => false

def isPattern : Form α → Bool
  | .arrayPattern _ | .objectPattern _ => true
  | _ => false

def isDefault : Form α → Bool
  | .assignmentPattern _ _ => true
  | _ => false

/-- Child number `j` stands between brackets or braces of the node, those of a substitution among them,
or in the middle of a conditional. The parameters of a function count, though a single one of an arrow
needs no brackets. -/
def encloses (j : Nat) : Form α → Bool
  | .function _ name params _ traits =>
    count name ≤ j && (j < count name + params.length || !traits.concise)
  | .classBody _ name heritage _ => count name + count heritage ≤ j
  | .method _ _ _ _ computed | .field _ _ _ computed => j = 0 && computed
  | .property _ _ _ traits => j = 0 && traits.computed
  | .member _ _ computed _ => j = 1 && computed
  | .call _ _ _ | .new _ _ => 0 < j
  | .ifElse _ _ _ | .whileLoop _ _ | .withObject _ _ | .switch _ _ => j = 0
  | .conditional _ _ _ | .forEach _ _ _ _ | .doWhile _ _ => j = 1
  | .block _ | .template _ | .parenthesized _ | .arrayLiteral _ | .objectLiteral _
  | .arrayPattern _ | .objectPattern _ => true
  | _ => false

/-- Child number `j` is what the head of a `for` loop begins with. -/
def startsLoop (j : Nat) : Form α → Bool
  | .forLoop init _ _ _ => j < count init
  | .forEach _ _ _ _ => j = 0
  | _ => false

/-- The traits of the function that child number `j` is a parameter or the body of. -/
def owner? (j : Nat) : Form α → Option FunctionTraits
  | .function _ name _ _ traits => if j < count name then none else some traits
  | _ => none

/-- How tight a binary operator has to bind in child number `j`. -/
def above (j : Nat) : Form α → Nat
  | .binary op _ _ => if j = 0 then op.leftAbove else op.rightAbove
  | _ => 0

end Form

/-- Which part of its parent a node is. -/
inductive Slot where
  /-- Neither part of a pattern nor an item of a list. -/
  | plain
  /-- The name of a function or a class, or a label. -/
  | name
  /-- The name of a property or a member. -/
  | key
  /-- What a compound assignment writes to. -/
  | simple
  /-- What an assignment or a declaration writes to. -/
  | target
  /-- A target with or without a default, -/
  | part
  /-- or one that collects the rest. -/
  | element
  /-- A parameter of an arrow function. -/
  | param
  /-- What a loop over a collection writes to, or declares. -/
  | head
  /-- An expression, or one that is spread out. -/
  | item
  /-- In an object literal. -/
  | entry
  /-- In an object pattern. -/
  | field
  /-- In a declaration. -/
  | declarator
deriving DecidableEq, Repr

namespace Slot

variable {α : Type}

/-- Simple targets may stand here in parentheses. -/
def isTarget : Slot → Bool
  | .simple | .target | .part | .element | .param | .head => true
  | _ => false

/-- An identifier here need not be one of its surroundings: a bare parameter of an arrow function is
read before the function begins. -/
def isFree : Slot → Bool
  | .key | .param => true
  | _ => false

def takes (f : Form α) : Slot → Bool
  | .plain => !(f.isPattern || f.isItem || f.isSpread || f.isProperty || f.isDeclarator)
  | .name =>
    match f with
    | .identifier _ => true
    | _ => false
  | .key =>
    match f with
    | .identifier _ | .literal _ _ => true
    | _ => false
  | .simple => f.isSimple
  | .target => f.isSimple || f.isPattern
  | .part => f.isSimple || f.isPattern || f.isDefault
  | .element | .param => f.isSimple || f.isPattern || f.isItem
  | .head => f.isSimple || f.isPattern || f.isBindings
  | .item =>
    match f with
    | .spread _ => true
    | f => !(f.isPattern || f.isItem || f.isSpread || f.isProperty || f.isDeclarator)
  | .entry =>
    match f with
    | .property _ _ _ _ | .spread _ => true
    | _ => false
  | .field =>
    match f with
    | .property _ _ role traits => role = .init && !traits.method
    | .rest _ => true
    | _ => false
  | .declarator => f.isDeclarator

/-- The slot of child number `j` of a node in the slot. -/
def into (s : Slot) (j : Nat) : Form α → Slot
  | .bindings _ _ => .declarator
  | .declarator _ _ => if j = 0 then .target else .plain
  | .function place ident params _ _ =>
    if j < Form.count ident then .name
    else if j < Form.count ident + params.length then if place = .arrow then .param else .element
    else .plain
  | .classBody _ ident _ _ => if j < Form.count ident then .name else .plain
  | .method _ _ _ _ computed | .field _ _ _ computed => if j = 0 && !computed then .key else .plain
  | .property _ _ _ traits =>
    if j = 0 then if traits.computed then .plain else .key
    else if s = .field then .part else .plain
  | .member _ _ computed _ => if j = 1 && !computed then .key else .plain
  | .forEach _ _ _ _ => if j = 0 then .head else .plain
  | .catchClause bound _ => if j < Form.count bound then .target else .plain
  | .jump _ _ => .name
  | .labeled _ _ => if j = 0 then .name else .plain
  | .call _ _ _ | .new _ _ => if j = 0 then .plain else .item
  | .arrayLiteral _ => .item
  | .objectLiteral _ => .entry
  | .arrayPattern _ => .element
  | .objectPattern _ => .field
  | .assignmentPattern _ _ => if j = 0 then .target else .plain
  | .rest _ => .target
  | .update _ _ _ => .simple
  | .assignment op _ _ =>
    if j = 0 then if op = .punct .equals then .target else .simple else .plain
  | .parenthesized _ => if s.isTarget then .simple else .plain
  | _ => .plain

/-- The slot of what a literal in the slot is read as again. -/
def recast (element : Bool) : Slot → Slot
  | .item => if element then .element else .target
  | _ => if element then .part else .target

theorem isTarget_recast (s : Slot) (element : Bool) : (s.recast element).isTarget = true := by
  cases s <;> cases element <;> rfl

theorem takes_recast {s : Slot} {element : Bool} {f : Form α}
    (h : (f.isSimple || f.isPattern) = true) : (s.recast element).takes f = true := by
  have hor (b : Bool) : (f.isSimple || f.isPattern || b) = true := by rw [h]; rfl
  cases s <;> cases element <;> first | exact h | exact hor _

end Slot

/-- What is around a node. -/
structure Place where
  /-- `in` is no operator here. -/
  noIn : Bool := false
  /-- `yield` is an operator here. -/
  generator : Bool := false
  /-- `await` is an operator here. -/
  async : Bool := false
  /-- A binary operator binds tighter here. -/
  above : Nat := 0
  slot : Slot := .plain
deriving DecidableEq, Repr

namespace Place

variable {α : Type}

/-- An identifier of the name may be read here. -/
def allows (p : Place) (name : String) : Bool :=
  !(p.generator && name = "yield") && !(p.async && name = "await")

theorem allows_iff {p : Place} {name : String} : p.allows name = true ↔
    (name = "yield" → p.generator = false) ∧ (name = "await" → p.async = false) := by
  simp only [allows, Bool.and_eq_true, Bool.not_eq_true', Bool.and_eq_false_iff,
    decide_eq_false_iff_not]
  grind

def admits (p : Place) (f : Form α) : Bool :=
  p.slot.takes f &&
    match f with
    | .binary op _ _ => p.above < op.precedence !p.noIn
    | .yield _ _ => p.generator
    | .await _ => p.async
    | .identifier name => p.slot.isFree || p.allows name
    | .function place name _ _ _ => place ≠ .arrow || name.isNone
    | _ => true

/-- The place of child number `j` of a node. -/
def into (p : Place) (f : Form α) (j : Nat) : Place where
  noIn := !f.encloses j && (f.startsLoop j || p.noIn)
  generator := ((f.owner? j).map (·.isGenerator)).getD p.generator
  async := ((f.owner? j).map (·.isAsync)).getD p.async
  above := f.above j
  slot := p.slot.into j f

/-- Another part of the same node, -/
def withSlot (p : Place) (slot : Slot) : Place := { p with slot }

/-- an operand of a binary operator, -/
def tighter (p : Place) (above : Nat) : Place := { p with above }

/-- something between brackets, -/
def enclosed (p : Place) : Place := { p with noIn := false }

/-- and what a literal there is read as again, if it is a pattern. -/
def recast (p : Place) (element : Bool) : Place :=
  { p with above := 0, slot := p.slot.recast element }

theorem into_call (p : Place) (callee : α) (arguments : List α) (optional : Bool) (j : Nat) :
    p.into (.call callee arguments optional) (1 + j) = ((p.tighter 0).withSlot .item).enclosed := by
  rw [Nat.add_comm]
  rfl

theorem into_new (p : Place) (callee : α) (arguments : List α) (j : Nat) :
    p.into (.new callee arguments) (1 + j) = ((p.tighter 0).withSlot .item).enclosed := by
  rw [Nat.add_comm]
  rfl

end Place

/-- Two ranges in the tokens, with the operator between them. -/
structure Joined (ks : List Lexeme) (op : Kind) (start stop start' stop' : Nat) : Prop where
  left : start < stop
  right : start' < stop'
  between : ∃ pre k r post, ks = pre ++ k :: r :: post ∧ k.kind = op ∧
    (∀ x ∈ pre, x.stop ≤ stop) ∧ stop ≤ k.start ∧ r.start = start'

/-- A binary operator stands between its operands, which fill the node. -/
def Operates (ks : List Lexeme) (start stop : Nat) (form : Form Nat) (ts : List Tree) : Prop :=
  ∀ op i j l r, form = .binary op i j → ts = [l, r] →
    l.start = start ∧ r.stop = stop ∧ Joined ks op l.start l.stop r.start r.stop

section Map

variable {α β : Type} (f : Form α) (g : Nat → α → β)

theorem Form.count_map {γ δ : Type} (h : γ → δ) (o : Option γ) : count (o.map h) = count o := by
  cases o <;> rfl

@[simp] theorem Slot.takes_mapIdx (s : Slot) : s.takes (f.mapIdx g) = s.takes f := by
  cases s <;> cases f <;> rfl

@[simp] theorem Place.admits_mapIdx (p : Place) : p.admits (f.mapIdx g) = p.admits f := by
  unfold admits
  rw [Slot.takes_mapIdx]
  cases f with
  | function place name params body traits => cases name <;> rfl
  | _ => rfl

@[simp] theorem Place.into_mapIdx (p : Place) (j : Nat) : p.into (f.mapIdx g) j = p.into f j := by
  cases f <;> simp only [into, Form.mapIdx, Form.startsLoop, Form.encloses, Form.owner?, Form.above,
    Slot.into, Form.count_map, Form.mapList, List.length_mapIdx]

end Map

namespace Tree

mutual

/-- All nodes of the tree are admitted where they stand. -/
def Suits (ks : List Lexeme) (p : Place) : Tree → Prop
  | .node start stop form ts =>
    p.admits form = true ∧ ts.length = form.children.length ∧ Operates ks start stop form ts ∧
      AllSuit ks (p.into form) 0 ts

/-- The trees stand in the places from number `i` on. -/
def AllSuit (ks : List Lexeme) (place : Nat → Place) (i : Nat) : List Tree → Prop
  | [] => True
  | t :: ts => t.Suits ks (place i) ∧ AllSuit ks place (i + 1) ts

end

variable {ks : List Lexeme} {p q : Place} {place place' : Nat → Place} {i s e : Nat} {t u : Tree}
  {ts us : List Tree}

@[simp] theorem allSuit_nil : AllSuit ks place i [] := trivial

@[simp] theorem allSuit_cons :
    AllSuit ks place i (t :: ts) ↔ t.Suits ks (place i) ∧ AllSuit ks place (i + 1) ts := Iff.rfl

theorem allSuit_append : AllSuit ks place i (ts ++ us) ↔
    AllSuit ks place i ts ∧ AllSuit ks place (i + ts.length) us := by
  induction ts generalizing i with
  | nil => simp
  | cons t ts ih =>
    rw [List.cons_append, allSuit_cons, allSuit_cons, ih, List.length_cons, and_assoc,
      Nat.add_assoc, Nat.add_comm 1]

theorem allSuit_of_forall (h : ∀ j t, i ≤ j → j < i + ts.length → t ∈ ts → t.Suits ks (place j)) :
    AllSuit ks place i ts := by
  induction ts generalizing i with
  | nil => trivial
  | cons t ts ih =>
    refine ⟨h i t (Nat.le_refl i) (by simp) List.mem_cons_self, ih fun j u hle hlt hu => ?_⟩
    exact h j u (by omega) (by rw [List.length_cons]; omega) (List.mem_cons_of_mem t hu)

theorem AllSuit.nth {j : Nat} (h : AllSuit ks place i ts) (ht : ts[j]? = some t) :
    t.Suits ks (place (i + j)) := by
  induction ts generalizing i j with
  | nil => cases ht
  | cons u ts ih =>
    cases j with
    | zero =>
      cases ht
      exact h.1
    | succ j =>
      rw [← Nat.add_assoc, Nat.add_right_comm]
      exact ih h.2 ht

/-- What a node of the grammar needs. -/
theorem suits_ofForm {f : Form Tree} : (ofForm s e f).Suits ks p ↔ p.admits f = true ∧
    Operates ks s e f.number f.children ∧ AllSuit ks (p.into f) 0 f.children := by
  have hadmits : p.admits f.number = p.admits f := Place.admits_mapIdx f _ p
  have hinto : p.into f.number = p.into f := funext (Place.into_mapIdx f _ p)
  have hlength : f.children.length = f.number.children.length := by
    rw [Form.children_number, List.length_range]
  rw [ofForm, Suits, hadmits, hinto]
  exact and_congr_right fun _ => and_iff_right hlength

theorem operates_of_not_binary {form : Form Nat} (h : ∀ op l r, form ≠ .binary op l r) :
    Operates ks s e form ts := fun op i j _ _ hform => absurd hform (h op i j)

end Tree

/-! ## Places that ask for less -/

/-- All that stands in the first slot may stand in the second. -/
structure Slot.Milder (s s' : Slot) : Prop where
  takes : ∀ f : Form Nat, s.takes f = true → s'.takes f = true
  target : s'.isTarget = s.isTarget
  field : s' = .field ↔ s = .field
  free : s.isFree = true → s'.isFree = true

/-- All that stands in the first place may stand in the second. -/
structure Place.Milder (p q : Place) : Prop where
  noIn : q.noIn = true → p.noIn = true
  generator : q.generator = p.generator
  async : q.async = p.async
  above : q.above ≤ p.above
  slot : p.slot.Milder q.slot

namespace Slot.Milder

theorem refl (s : Slot) : s.Milder s := ⟨fun _ => id, rfl, Iff.rfl, id⟩

theorem target_part : Slot.Milder .target .part where
  takes _ h := Bool.or_eq_true_iff.2 (.inl h)
  target := rfl
  field := by decide
  free := nofun

theorem part_element : Slot.Milder .part .element where
  takes f h := by cases f <;> first | rfl | exact h
  target := rfl
  field := by decide
  free := nofun

theorem element_param : Slot.Milder .element .param := ⟨fun _ => id, rfl, by decide, nofun⟩

theorem target_head : Slot.Milder .target .head where
  takes _ h := Bool.or_eq_true_iff.2 (.inl h)
  target := rfl
  field := by decide
  free := nofun

theorem plain_item : Slot.Milder .plain .item where
  takes f h := by cases f <;> first | rfl | exact h
  target := rfl
  field := by decide
  free := nofun

end Slot.Milder

namespace Place.Milder

variable {p q : Place} {form : Form Nat}

theorem admits (h : p.Milder q) (ha : p.admits form = true) : q.admits form = true := by
  obtain ⟨hslot, hform⟩ := Bool.and_eq_true_iff.1 ha
  refine Bool.and_eq_true_iff.2 ⟨h.slot.takes _ hslot, ?_⟩
  cases form with
  | binary op l r =>
    have hle : op.precedence (!p.noIn) ≤ op.precedence (!q.noIn) := by
      cases hq : q.noIn with
      | false => exact op.precedence_le_true _
      | true => exact Nat.le_of_eq (by rw [h.noIn hq])
    have hlt := of_decide_eq_true hform
    exact decide_eq_true (Nat.lt_of_le_of_lt h.above (Nat.lt_of_lt_of_le hlt hle))
  | «yield» argument delegate => exact h.generator.trans hform
  | await argument => exact h.async.trans hform
  | identifier name =>
    have hallows : q.allows name = p.allows name := by
      rw [Place.allows, Place.allows, h.generator, h.async]
    dsimp only at hform ⊢
    rw [Bool.or_eq_true] at hform ⊢
    rw [hallows]
    exact hform.imp_left h.slot.free
  | function place name params body traits => exact hform
  | _ => rfl

theorem into (h : p.Milder q) (form : Form Nat) (j : Nat) :
    (p.into form j).Milder (q.into form j) where
  noIn hq := by
    simp only [Place.into, Bool.and_eq_true, Bool.or_eq_true] at hq ⊢
    exact ⟨hq.1, hq.2.imp_right h.noIn⟩
  generator := by rw [Place.into, Place.into, h.generator]
  async := by rw [Place.into, Place.into, h.async]
  above := Nat.le_refl _
  slot := by
    have hslot : q.slot.into j form = p.slot.into j form := by
      cases form <;> simp only [Slot.into, h.slot.target, h.slot.field]
    rw [Place.into, Place.into, hslot]
    exact .refl _

theorem withSlot (p : Place) {a b : Slot} (h : a.Milder b) :
    (p.withSlot a).Milder (p.withSlot b) :=
  ⟨id, rfl, rfl, Nat.le_refl _, h⟩

theorem tighter (p : Place) {a b : Nat} (h : b ≤ a) : (p.tighter a).Milder (p.tighter b) :=
  ⟨id, rfl, rfl, h, .refl _⟩

theorem enclosed (p : Place) : p.Milder p.enclosed :=
  ⟨nofun, rfl, rfl, Nat.le_refl _, .refl _⟩

end Place.Milder

namespace Tree

variable {ks : List Lexeme} {p q : Place} {place place' : Nat → Place} {i s e : Nat} {t u : Tree}
  {ts us : List Tree}

mutual

theorem suits_weaken {a b : Place} (h : a.Milder b) : (t : Tree) → t.Suits ks a → t.Suits ks b
  | .node _ _ form ts, ⟨hadmits, hlength, hoperates, hkids⟩ =>
    ⟨h.admits hadmits, hlength, hoperates, allSuit_weaken (fun j => h.into form j) 0 ts hkids⟩

theorem allSuit_weaken {a b : Nat → Place} (h : ∀ j, (a j).Milder (b j)) (i : Nat) :
    (ts : List Tree) → AllSuit ks a i ts → AllSuit ks b i ts
  | [], _ => trivial
  | t :: ts, ⟨ht, hts⟩ => ⟨suits_weaken (h i) t ht, allSuit_weaken h (i + 1) ts hts⟩

end

theorem Suits.weaken (ht : t.Suits ks p) (h : p.Milder q) : t.Suits ks q := suits_weaken h t ht

end Tree

end Syntax

end LoopClosure

/-! ## Where nodes stand -/

namespace LoopClosure.Syntax.Nodes

open Token LoopClosure.Syntax.Tree

/-- If the root stands in `top`, the node stands in the place. -/
inductive StandsIn (ns : Nodes) (top : Place) : NodeId → Place → Prop where
  | root : ns.StandsIn top 0 top
  | child {i c j : Nat} {p : Place} {form : Form NodeId} (h : ns.StandsIn top i p)
    (hf : ns.form? i = some form) (hc : form.children[j]? = some c) :
    ns.StandsIn top c (p.into form j)

variable {ns : Nodes} {ks : List Lexeme} {top p : Place} {t : Tree} {i : NodeId} {n : Node}
  {form : Form NodeId}

/-- A node without a parent is the root. -/
theorem eq_zero_of_parent?_eq_none (hn : (ofTree t).get? i = some n)
    (hp : (ofTree t).parent? i = none) : i = 0 := by
  obtain ⟨q, u, hu, -⟩ := located_of_get? hn
  rw [parent?_ofTree hu] at hp
  rcases hu.cases_parent with ⟨hi, -⟩ | ⟨j, q', start, stop, form, pre, post, -, hq, -⟩
  · exact hi
  · rw [hp] at hq
    cases hq

theorem exists_standsIn (ht : t.WellFormed) (top : Place) (hn : (ofTree t).get? i = some n) :
    ∃ p, (ofTree t).StandsIn top i p := by
  have hwf := wellFormed_ofTree ht
  induction i using Nat.strongRecOn generalizing n with
  | ind i ih =>
    cases hp : (ofTree t).parent? i with
    | none => exact eq_zero_of_parent?_eq_none hn hp ▸ ⟨top, .root⟩
    | some q =>
      obtain ⟨m, hm⟩ := exists_get?_of_parent? hwf hp
      obtain ⟨form, hform, hmem⟩ := exists_form?_of_parent? hwf hp
      obtain ⟨j, hj⟩ := List.mem_iff_getElem?.1 hmem
      obtain ⟨p, hstands⟩ := ih q (hwf.parent_lt hp) hm
      exact ⟨_, .child hstands hform hj⟩

namespace StandsIn

/-- A child stands where its number says. -/
theorem cases_child (h : ns.StandsIn top i p) : (i = 0 ∧ p = top) ∨
    ∃ q j pq form, ns.StandsIn top q pq ∧ ns.form? q = some form ∧ form.children[j]? = some i ∧
      p = pq.into form j := by
  cases h with
  | root => exact .inl ⟨rfl, rfl⟩
  | child h hf hc => exact .inr ⟨_, _, _, _, h, hf, hc, rfl⟩

/-- Each child stands somewhere, behind its parent. -/
theorem kid {c j : Nat} (ht : t.WellFormed) (h : (ofTree t).StandsIn top i p)
    (hf : (ofTree t).form? i = some form) (hc : form.children[j]? = some c) :
    (ofTree t).StandsIn top c (p.into form j) ∧ i < c ∧ ∃ f, (ofTree t).form? c = some f := by
  have hwf := wellFormed_ofTree ht
  have hp := parent?_of_form? hwf hf (List.mem_of_getElem? hc)
  obtain ⟨n, hn⟩ := exists_get?_of_parent?_eq_some hp
  exact ⟨.child h hf hc, hwf.parent_lt hp, n.form, by rw [form?, hn]; rfl⟩

variable (ht : t.WellFormed) (hs : t.Suits ks top)
include ht hs

/-- The subtree of the node suits the place. -/
theorem exists_suits (h : (ofTree t).StandsIn top i p) :
    ∃ q u, Located 0 none t i q u ∧ u.Suits ks p := by
  induction h with
  | root => exact ⟨none, t, .here 0 none t, hs⟩
  | @child i c j p form _ hf hc ih =>
    obtain ⟨q, u, hu, hsuits⟩ := ih
    rw [form?_ofTree hu, Option.some.injEq] at hf
    subst hf
    rw [children_nodeAt (hu.wellFormed ht)] at hc
    match u with
    | .node start stop form ts =>
      obtain ⟨hlt, hid⟩ := List.getElem?_eq_some_iff.1 hc
      have hlt : j < ts.length := by rwa [length_siblingIds] at hlt
      have hkid : ts[j]? = some ts[j] := List.getElem?_eq_getElem hlt
      have hnth := hu.nth hkid
      have hc : (siblingIds (i + 1) ts).toArray.getD j 0 = c := by
        rw [Array.getD_eq_getD_getElem?, List.getElem?_toArray]
        exact congrArg (Option.getD · 0) hc
      refine ⟨some i, ts[j], hc ▸ hnth, ?_⟩
      have hplace := hsuits.2.2.2.nth hkid
      rw [Nat.zero_add] at hplace
      exact (Place.into_mapIdx form _ p j).symm ▸ hplace

theorem admits (h : (ofTree t).StandsIn top i p) (hf : (ofTree t).form? i = some form) :
    p.admits form = true := by
  obtain ⟨q, u, hu, hsuits⟩ := h.exists_suits ht hs
  rw [form?_ofTree hu, Option.some.injEq] at hf
  subst hf
  match u, hsuits with
  | .node start stop form ts, hsuits => exact (Place.admits_mapIdx form _ p).trans hsuits.1

/-- Between the operands of a binary operator, which fill the node, there is only its token. -/
theorem operates {op : Kind} {l r : NodeId} {a b : Node} (h : (ofTree t).StandsIn top i p)
    (hn : (ofTree t).get? i = some n) (hform : n.form = .binary op l r)
    (ha : (ofTree t).get? l = some a) (hb : (ofTree t).get? r = some b) :
    a.start = n.start ∧ b.stop = n.stop ∧ Joined ks op a.start a.stop b.start b.stop := by
  obtain ⟨q, u, hu, hsuits⟩ := h.exists_suits ht hs
  have hwf := hu.wellFormed ht
  rw [get?_ofTree hu, Option.some.injEq] at hn
  subst hn
  match u with
  | .node start stop form ts =>
    obtain ⟨-, hlength, hoperates, -⟩ := hsuits
    obtain ⟨l', r', rfl⟩ : ∃ l' r', form = .binary op l' r' := by
      cases form with
      | binary op' l' r' =>
        obtain ⟨rfl, -⟩ := Form.binary.inj hform
        exact ⟨l', r', rfl⟩
      | _ => cases hform
    obtain ⟨x, y, rfl⟩ := List.length_eq_two.1 hlength
    obtain ⟨rfl, rfl⟩ : l = i + 1 ∧ r = i + 1 + x.size := by
      have hkids := children_nodeAt (i := i) (p := q) hwf
      rw [hform] at hkids
      simpa [Form.children, Tree.children, siblingIds] using hkids
    rw [get?_ofTree hu.first, Option.some.injEq] at ha
    rw [get?_ofTree hu.second, Option.some.injEq] at hb
    subst ha hb
    exact hoperates op l' r' x y rfl rfl

end StandsIn

end LoopClosure.Syntax.Nodes
