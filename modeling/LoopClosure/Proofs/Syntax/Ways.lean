import LoopClosure.Syntax.Pattern
import LoopClosure.Proofs.Syntax.WellFormed
import Mathlib.Data.List.Forall2

/-!
# How deep constructs nest

The grammar comes to each node of a tree in one of several ways (`Way`): as a statement inside
another one, as the operand of a sign, as an element of a literal, and so on. `Tree.nesting k` is the
greatest number of ways of the kinds `k` on the way from a node down into its tree. The kinds for
which the grammar counts a level of nesting are the charged ones (`Way.isCharged`); a tree fits into
`R` levels (`Tree.Within`) if no more than `R` of them lead to a node in it.

`within_ofForm` takes the levels of a node apart into those of its children; reading a literal again
as a pattern changes nothing about them (`within_toPattern`).
-/

namespace LoopClosure.Syntax

/-- How the grammar comes to a node. -/
inductive Way where
  /-- A statement. -/
  | statement
  /-- Between parentheses. -/
  | parenthesis
  /-- Behind a sign in front: a unary operator, `++`, `--` or `await`. -/
  | operand
  /-- A `new` behind another one. -/
  | new
  /-- Inside an array or object literal. -/
  | element
  /-- Any other expression that is read anew. -/
  | value
  /-- Inside an array or object pattern of a declaration. -/
  | pattern
  /-- Behind `**`. -/
  | power
  /-- Behind `extends`. -/
  | heritage
  /-- What a declaration binds, or a part of it. -/
  | target
  /-- What `new` is applied to. -/
  | callee
  /-- Read by the rule that reads the parent. -/
  | inline
  /-- By no rule. -/
  | stray
deriving DecidableEq, Repr

namespace Form

variable {α : Type}

def isNew : Form α → Bool
  | .new _ _ => true
  | _ => false

/-- A `new`, or what may hold one in front of what comes behind. -/
def isChain : Form α → Bool
  | .new _ _ | .member _ _ _ _ | .taggedTemplate _ _ => true
  | _ => false

def isProperty : Form α → Bool
  | .property _ _ _ _ => true
  | _ => false

/-- No target, but an item that holds one. -/
def isItem : Form α → Bool
  | .assignmentPattern _ _ | .rest _ => true
  | _ => false

/-- An element that stands for any number of others. -/
def isSpread : Form α → Bool
  | .spread _ | .rest _ => true
  | _ => false

end Form

namespace Way

/-- The grammar counts a level of nesting. -/
def isCharged : Way → Bool
  | .statement | .parenthesis | .operand | .new | .element | .value => true
  | _ => false

/-- The grammar goes on without counting. -/
def isFree : Way → Bool
  | .pattern | .power | .heritage | .target | .callee | .inline => true
  | _ => false

def isStray : Way → Bool
  | .stray => true
  | _ => false

/-- In the pattern of a declaration. -/
def isBinding : Way → Bool
  | .pattern | .target => true
  | _ => false

/-- Neither in the pattern of a declaration nor behind `new`. -/
def isPlain (w : Way) : Bool := !w.isBinding && w ≠ .callee

/-- To an item of a pattern. -/
def item (w : Way) : Way := if w.isBinding then .pattern else .element

/-- To a part of an item. -/
def part (w : Way) : Way := if w.isBinding then .target else .inline

/-- To the tree in front of an access or a template. -/
def head (w : Way) (form : Form Nat) : Way :=
  if w = .callee then if form.isNew then .new else .callee else .inline

/-- To an expression or the declarations in the head of a loop. -/
def loopHead (form : Form Nat) : Way := if form.isBindings then .inline else .value

/-- The way to child number `i` of a node, which has the form `child`; `w` is the way to the node. -/
def into (w : Way) (form : Form Nat) (i : Nat) (child : Form Nat) : Way :=
  match form with
  | .program _ _ | .block _ => .statement
  | .declarator bound _ => if i = bound then .target else .value
  | .function _ _ _ body traits =>
    if i = body then if traits.concise then .value else .inline else .target
  | .classBody _ _ base _ => if base = some i then .heritage else .inline
  | .method key _ _ _ computed => if i = key ∧ computed = true then .value else .inline
  | .field key _ _ computed => if i = key ∧ computed = false then .inline else .value
  | .expression _ | .returns _ | .throws _ | .template _ | .yield _ _ => .value
  | .ifElse test _ _ | .whileLoop test _ | .doWhile _ test | .withObject test _ =>
    if i = test then .value else .statement
  | .switchCase test _ => if test = some i then .value else .statement
  | .forLoop _ _ _ body | .forEach _ _ _ body => if i = body then .statement else loopHead child
  | .catchClause param _ => if param = some i then .target else .inline
  | .switch discriminant _ => if i = discriminant then .value else .inline
  | .labeled _ body => if i = body then .statement else .inline
  | .taggedTemplate tag _ => if i = tag then w.head child else .inline
  | .arrayLiteral _ => .element
  | .objectLiteral _ =>
    if child.isSpread then .element else if child.isProperty then .inline else .stray
  | .arrayPattern _ => w.item
  | .objectPattern _ =>
    if child.isSpread then w.item else if child.isProperty then w.part else .stray
  | .property key _ role traits =>
    if i = key then if traits.computed then .value else .inline
    else if traits.shorthand then w.part
    else if traits.method || role ≠ .init then if child.isFunction then w.part else .stray
    else w.item
  | .assignmentPattern left _ => if i = left then if child.isItem then .stray else w.part else .value
  | .rest _ => if child.isItem then .stray else w.part
  | .member object _ computed _ =>
    if i = object then w.head child else if computed then .value else .inline
  | .call called _ _ => if i = called then .inline else .value
  | .new called _ => if i = called then head .callee child else .value
  | .unary _ _ | .await _ => .operand
  | .update _ before _ => if before then .operand else .inline
  | .binary operator left _ =>
    if i ≠ left ∧ operator = .punct .starStar then .power else .inline
  | .assignment _ left _ =>
    if i = left then if child.isItem then .stray else .inline else .value
  | .conditional test _ _ => if i = test then .inline else .value
  | .parenthesized _ => .parenthesis
  | .bindings _ _ | .empty | .debugger | .jump _ _ | .tryCatch _ _ _ | .identifier _ | .this
  | .super | .literal _ _ | .spread _ | .sequence _ => .inline

end Way

namespace Tree

mutual

/-- The most ways of the kinds `k` in a row from the node down, where `w` is the way to the node. -/
def nesting (k : Way → Bool) (w : Way) : Tree → Nat
  | .node _ _ form ts => nestings k w form 0 ts

def nestings (k : Way → Bool) (w : Way) (form : Form Nat) (i : Nat) : List Tree → Nat
  | [] => 0
  | t :: ts =>
    max ((if k (w.into form i t.form) then 1 else 0) + nesting k (w.into form i t.form) t)
      (nestings k w form (i + 1) ts)

end

/-- The grammar comes to all nodes, and the way to the node and the ways in its tree make at most `R`
charged ones in a row. -/
structure Within (R : Nat) (w : Way) (t : Tree) : Prop where
  known : w.isStray = false
  all : t.nesting Way.isStray w = 0
  levels : (if w.isCharged then 1 else 0) + t.nesting Way.isCharged w ≤ R

/-- The children `ts` of a node, the first of which is number `i`, fit. -/
def AllWithin (R : Nat) (w : Way) (form : Form Nat) (i : Nat) : List Tree → Prop
  | [] => True
  | t :: ts => t.Within R (w.into form i t.form) ∧ AllWithin R w form (i + 1) ts

variable {R i : Nat} {w w' : Way} {form : Form Nat} {t u : Tree} {ts us : List Tree} {k k' : Way → Bool}

mutual

theorem nesting_mono (h : ∀ w, k w = true → k' w = true) (w : Way) :
    (t : Tree) → t.nesting k w ≤ t.nesting k' w
  | .node _ _ form ts => nestings_mono h w form 0 ts

theorem nestings_mono (h : ∀ w, k w = true → k' w = true) (w : Way) (form : Form Nat) (i : Nat) :
    (ts : List Tree) → nestings k w form i ts ≤ nestings k' w form i ts
  | [] => Nat.le_refl _
  | t :: ts => by
    have hlevel : (if k (w.into form i t.form) then 1 else 0) ≤
        if k' (w.into form i t.form) then 1 else 0 := by
      split
      · exact Nat.le_of_eq (if_pos (h _ ‹_›)).symm
      · exact Nat.zero_le _
    have hfirst := Nat.add_le_add hlevel (nesting_mono h (w.into form i t.form) t)
    have hothers := nestings_mono h w form (i + 1) ts
    exact Nat.max_le.2 ⟨Nat.le_trans hfirst (Nat.le_max_left _ _),
      Nat.le_trans hothers (Nat.le_max_right _ _)⟩

end

theorem allWithin_iff : AllWithin R w form i ts ↔
    nestings Way.isStray w form i ts = 0 ∧ nestings Way.isCharged w form i ts ≤ R := by
  induction ts generalizing i with
  | nil => simp [nestings, AllWithin]
  | cons t ts ih =>
    have hwithin : t.Within R (w.into form i t.form) ↔
        ((if (w.into form i t.form).isStray then 1 else 0) +
          t.nesting Way.isStray (w.into form i t.form) = 0) ∧
        (if (w.into form i t.form).isCharged then 1 else 0) +
          t.nesting Way.isCharged (w.into form i t.form) ≤ R := by
      constructor
      · rintro ⟨hknown, hall, hlevels⟩
        exact ⟨by rw [hknown, hall]; rfl, hlevels⟩
      · rintro ⟨hstray, hlevels⟩
        obtain ⟨hknown, hall⟩ := Nat.add_eq_zero_iff.1 hstray
        exact ⟨by simpa using hknown, hall, hlevels⟩
    rw [AllWithin, hwithin, ih, nestings, nestings, Nat.max_le, ← Nat.le_zero, ← Nat.le_zero,
      ← Nat.le_zero, Nat.max_le]
    exact and_and_and_comm

@[simp] theorem allWithin_nil : AllWithin R w form i [] := trivial

@[simp] theorem allWithin_cons : AllWithin R w form i (t :: ts) ↔
    t.Within R (w.into form i t.form) ∧ AllWithin R w form (i + 1) ts := Iff.rfl

theorem allWithin_append : AllWithin R w form i (ts ++ us) ↔
    AllWithin R w form i ts ∧ AllWithin R w form (i + ts.length) us := by
  induction ts generalizing i with
  | nil => simp
  | cons t ts ih =>
    rw [List.cons_append, allWithin_cons, allWithin_cons, ih, List.length_cons, and_assoc,
      Nat.add_assoc, Nat.add_comm 1]

/-- Children to which all ways are of one kind. -/
theorem allWithin_of_forall (h : ∀ j t, i ≤ j → j < i + ts.length → t ∈ ts →
    t.Within R (w.into form j t.form)) : AllWithin R w form i ts := by
  induction ts generalizing i with
  | nil => trivial
  | cons t ts ih =>
    refine ⟨h i t (Nat.le_refl i) (by simp) List.mem_cons_self, ih fun j u hle hlt hu => ?_⟩
    exact h j u (by omega) (by rw [List.length_cons]; omega) (List.mem_cons_of_mem t hu)

theorem allWithin_const {w₁ : Way} (hinto : ∀ j child, w.into form j child = w₁)
    (h : ∀ t ∈ ts, t.Within R w₁) : AllWithin R w form i ts :=
  allWithin_of_forall fun j t _ _ ht => hinto j t.form ▸ h t ht

/-- What a node of the grammar needs. -/
theorem within_ofForm {s e : Nat} {f : Form Tree} (hw : w.isFree = true) :
    (ofForm s e f).Within R w ↔ AllWithin R w f.number 0 f.children := by
  obtain ⟨hknown, huncharged⟩ : w.isStray = false ∧ w.isCharged = false := by
    cases w <;> first | exact ⟨rfl, rfl⟩ | cases hw
  rw [allWithin_iff]
  constructor
  · rintro ⟨-, hall, hlevels⟩
    rw [huncharged, if_neg Bool.false_ne_true, Nat.zero_add] at hlevels
    exact ⟨hall, hlevels⟩
  · rintro ⟨hall, hlevels⟩
    refine ⟨hknown, hall, ?_⟩
    rwa [huncharged, if_neg Bool.false_ne_true, Nat.zero_add]

@[simp] theorem within_inline_ofForm {s e : Nat} {f : Form Tree} :
    (ofForm s e f).Within R .inline ↔ AllWithin R .inline f.number 0 f.children :=
  within_ofForm rfl

@[simp] theorem within_target_ofForm {s e : Nat} {f : Form Tree} :
    (ofForm s e f).Within R .target ↔ AllWithin R .target f.number 0 f.children :=
  within_ofForm rfl

/-! ## Ways that lead on alike -/

/-- The way to a node tells of the ways on only whether it is in a declaration, or behind `new`. -/
theorem into_congr {child : Form Nat} (hbinding : w.isBinding = w'.isBinding)
    (hcallee : w = .callee ↔ w' = .callee) : w.into form i child = w'.into form i child := by
  cases form <;> simp only [Way.into, Way.item, Way.part, Way.head, hbinding, hcallee]

theorem nestings_congr (hbinding : w.isBinding = w'.isBinding)
    (hcallee : w = .callee ↔ w' = .callee) : nestings k w form i ts = nestings k w' form i ts := by
  induction ts generalizing i with
  | nil => rfl
  | cons t ts ih => rw [nestings, nestings, into_congr hbinding hcallee, ih]

theorem nesting_congr (hbinding : w.isBinding = w'.isBinding)
    (hcallee : w = .callee ↔ w' = .callee) : t.nesting k w = t.nesting k w' := by
  cases t
  exact nestings_congr hbinding hcallee

theorem within_congr (hcharged : w.isCharged = w'.isCharged) (hstray : w.isStray = w'.isStray)
    (hbinding : w.isBinding = w'.isBinding) (hcallee : w = .callee ↔ w' = .callee) :
    t.Within R w ↔ t.Within R w' := by
  constructor
  all_goals
    rintro ⟨hknown, hall, hlevels⟩
    constructor
  · rw [← hstray, hknown]
  · rw [← nesting_congr hbinding hcallee, hall]
  · rwa [← hcharged, ← nesting_congr hbinding hcallee]
  · rw [hstray, hknown]
  · rw [nesting_congr hbinding hcallee, hall]
  · rwa [hcharged, nesting_congr hbinding hcallee]

@[simp] theorem within_statement : t.Within R .statement ↔ t.Within R .value :=
  within_congr rfl rfl rfl (by simp)

@[simp] theorem within_parenthesis : t.Within R .parenthesis ↔ t.Within R .value :=
  within_congr rfl rfl rfl (by simp)

@[simp] theorem within_operand : t.Within R .operand ↔ t.Within R .value :=
  within_congr rfl rfl rfl (by simp)

@[simp] theorem within_new : t.Within R .new ↔ t.Within R .value :=
  within_congr rfl rfl rfl (by simp)

@[simp] theorem within_element : t.Within R .element ↔ t.Within R .value :=
  within_congr rfl rfl rfl (by simp)

@[simp] theorem within_pattern : t.Within R .pattern ↔ t.Within R .target :=
  within_congr rfl rfl rfl (by simp)

@[simp] theorem within_power : t.Within R .power ↔ t.Within R .inline :=
  within_congr rfl rfl rfl (by simp)

@[simp] theorem within_heritage : t.Within R .heritage ↔ t.Within R .inline :=
  within_congr rfl rfl rfl (by simp)

/-- A level of nesting makes room for a charged way. -/
theorem within_value_succ : t.Within (R + 1) .value ↔ t.Within R .inline := by
  have hnesting {k : Way → Bool} : t.nesting k .value = t.nesting k .inline :=
    nesting_congr rfl (by simp)
  constructor
  all_goals
    rintro ⟨-, hall, hlevels⟩
    refine ⟨rfl, hnesting ▸ hall, ?_⟩
    simp only [Way.isCharged, hnesting, if_true, Bool.false_eq_true, if_false] at hlevels ⊢
    omega

theorem Within.mono {R' : Nat} (h : t.Within R w) (hle : R ≤ R') : t.Within R' w :=
  { h with levels := Nat.le_trans h.levels hle }

/-- A charged way needs a level. -/
theorem not_within_value_zero : ¬t.Within 0 .value := by
  rintro ⟨-, -, hlevels⟩
  simp [Way.isCharged] at hlevels

theorem Within.of_value (h : t.Within R .value) : t.Within R .inline := by
  cases R with
  | zero => exact absurd h not_within_value_zero
  | succ R => exact (within_value_succ.1 h).mono (Nat.le_succ R)

/-- A node whose children are all read as it is. -/
theorem within_value_of_forall {f : Form Tree} {s e : Nat} (hne : f.children ≠ [])
    (hinto : ∀ j child, Way.into .inline f.number j child = .inline)
    (h : ∀ t ∈ f.children, t.Within R .value) : (ofForm s e f).Within R .value := by
  cases R with
  | zero =>
    obtain ⟨t, ts, hts⟩ := List.exists_cons_of_ne_nil hne
    exact absurd (h t (hts ▸ List.mem_cons_self)) not_within_value_zero
  | succ R =>
    rw [within_value_succ, within_ofForm rfl]
    refine allWithin_of_forall fun j t _ _ ht => ?_
    rw [hinto]
    exact within_value_succ.1 (h t ht)

theorem nestings_callee (hform : form.isChain = false) :
    nestings k .callee form i ts = nestings k .inline form i ts := by
  have hinto : ∀ j child, Way.into .callee form j child = Way.into .inline form j child := by
    intro j child
    cases form <;> first | rfl | cases hform
  induction ts generalizing i with
  | nil => rfl
  | cons t ts ih => rw [nestings, nestings, hinto, ih]

/-- Behind `new` all trees are read alike but for those that may hold another `new` in front. -/
theorem within_head_of_not_isChain (h : t.form.isChain = false) :
    t.Within R (w.head t.form) ↔ t.Within R .inline := by
  cases t with
  | node s e form ts =>
    have hnew : form.isNew = false := by cases form <;> first | rfl | cases h
    have hhead : w.head form = if w = .callee then .callee else .inline := by
      rw [Way.head, hnew]
      rfl
    rw [Tree.form, hhead]
    split
    · have hnesting {k : Way → Bool} : (node s e form ts).nesting k .callee =
          (node s e form ts).nesting k .inline := nestings_callee h
      constructor
      · exact fun hwithin => ⟨rfl, hnesting ▸ hwithin.all, hnesting ▸ hwithin.levels⟩
      · exact fun hwithin => ⟨rfl, hnesting ▸ hwithin.all, hnesting ▸ hwithin.levels⟩
    · rfl

/-! ## Single forms -/

theorem within_leaf {s e : Nat} {f : Form Tree} (hf : f.children = []) (hw : w.isFree = true) :
    (ofForm s e f).Within R w := by
  rw [within_ofForm hw, hf]
  trivial

theorem within_function {s e : Nat} {place : FunctionPlace} {name : Option Tree} {params : List Tree}
    {body : Tree} {traits : FunctionTraits} (hname : ∀ t ∈ name, t.Within R .target)
    (hparams : ∀ t ∈ params, t.Within R .target)
    (hbody : body.Within R (if traits.concise then .value else .inline)) :
    (ofForm s e (.function place name params body traits)).Within R .inline := by
  have hinto : ∀ j child, Way.into .inline (Form.function place name params body traits).number j
      child = if j = Form.count name + params.length then
        if traits.concise then .value else .inline else .target := fun _ _ => rfl
  rw [within_inline_ofForm, Form.children, allWithin_append, allWithin_cons, hinto,
    List.length_append]
  refine ⟨allWithin_of_forall fun j t _ hlt ht => ?_, ?_, trivial⟩
  · rw [List.length_append] at hlt
    rw [hinto, if_neg (Nat.ne_of_lt (by simpa [Form.count] using hlt))]
    exact (List.mem_append.1 ht).elim (fun ht => hname t (Option.mem_toList.1 ht)) (hparams t)
  · rw [if_pos (by simp [Form.count])]
    exact hbody

theorem within_property {s e : Nat} {key value : Tree} {role : PropertyRole} {traits : PropertyTraits}
    (hw : w.isFree = true) (hkey : key.Within R (if traits.computed then .value else .inline))
    (hvalue : value.Within R (if traits.shorthand then w.part
      else if traits.method || role ≠ .init then if value.form.isFunction then w.part else .stray
      else w.item)) :
    (ofForm s e (.property key value role traits)).Within R w := by
  rw [within_ofForm hw]
  exact ⟨hkey, hvalue, trivial⟩

theorem isSpread_of_isProperty {form : Form Nat} (h : form.isProperty = true) :
    form.isSpread = false := by
  cases form <;> first | rfl | cases h

/-- A property in an object literal. -/
theorem within_property_literal {s e : Nat} {key value : Tree} {role : PropertyRole}
    {traits : PropertyTraits} (hkey : key.Within R (if traits.computed then .value else .inline))
    (hvalue : value.Within R .inline)
    (hmethod : (traits.method || role ≠ .init) = true → value.form.isFunction = true)
    (hlong : traits.shorthand = false → (traits.method || role ≠ .init) = false →
      value.Within R .value) :
    (ofForm s e (.property key value role traits)).Within R .inline := by
  refine within_property rfl hkey ?_
  split
  · exact hvalue
  · next hshort =>
    split
    · next hrole =>
      rw [if_pos (hmethod hrole)]
      exact hvalue
    · next hrole =>
      exact within_element.2 (hlong (Bool.eq_false_iff.2 hshort) (Bool.eq_false_iff.2 hrole))

theorem within_default {s e : Nat} {target value : Tree} (hw : w.isFree = true)
    (hitem : target.form.isItem = false) (htarget : target.Within R w.part)
    (hvalue : value.Within R .value) : (ofForm s e (.assignmentPattern target value)).Within R w := by
  have hinto : w.into (Form.assignmentPattern target value).number 0 target.form =
      if target.form.isItem then .stray else w.part := rfl
  rw [within_ofForm hw]
  refine ⟨?_, hvalue, trivial⟩
  rwa [hinto, hitem]

theorem within_rest {s e : Nat} {argument : Tree} (hw : w.isFree = true)
    (hitem : argument.form.isItem = false) (hargument : argument.Within R w.part) :
    (ofForm s e (.rest argument)).Within R w := by
  have hinto : w.into (Form.rest argument).number 0 argument.form =
      if argument.form.isItem then .stray else w.part := rfl
  rw [within_ofForm hw]
  refine ⟨?_, trivial⟩
  rwa [hinto, hitem]

theorem within_assignment {s e : Nat} {operator : Token.Kind} {left right : Tree}
    (hitem : left.form.isItem = false) (hleft : left.Within R .inline)
    (hright : right.Within R .value) :
    (ofForm s e (.assignment operator left right)).Within R .inline := by
  have hinto : Way.into .inline (Form.assignment operator left right).number 0 left.form =
      if left.form.isItem then .stray else .inline := rfl
  rw [within_inline_ofForm]
  refine ⟨?_, hright, trivial⟩
  rwa [hinto, hitem]

theorem within_classBody {s e : Nat} {place : ClassPlace} {name heritage : Option Tree}
    {members : List Tree} (hname : ∀ t ∈ name, t.Within R .inline)
    (hheritage : ∀ t ∈ heritage, t.Within R .inline) (hmembers : ∀ t ∈ members, t.Within R .inline) :
    (ofForm s e (.classBody place name heritage members)).Within R .inline := by
  rw [within_inline_ofForm]
  refine allWithin_of_forall fun j t _ _ ht => ?_
  have hinto : Way.into .inline (Form.classBody place name heritage members).number j t.form =
    if heritage.map (fun _ => Form.count name) = some j then .heritage else .inline := rfl
  have ht : t.Within R .inline := by
    rcases List.mem_append.1 ht with ht | ht
    · exact (List.mem_append.1 ht).elim (fun ht => hname t (Option.mem_toList.1 ht))
        fun ht => hheritage t (Option.mem_toList.1 ht)
    · exact hmembers t ht
  rw [hinto]
  split
  · exact within_heritage.2 ht
  · exact ht

theorem within_loopHead (h : t.Within R .value) : t.Within R (Way.loopHead form) := by
  unfold Way.loopHead
  split
  · exact h.of_value
  · exact h

theorem within_forLoop {s e : Nat} {init test step : Option Tree} {body : Tree}
    (hinit : ∀ t ∈ init, t.Within R (Way.loopHead t.form)) (htest : ∀ t ∈ test, t.Within R .value)
    (hstep : ∀ t ∈ step, t.Within R .value) (hbody : body.Within R .value) :
    (ofForm s e (.forLoop init test step body)).Within R .inline := by
  have hinto : ∀ j child, Way.into .inline (Form.forLoop init test step body).number j child =
      if j = Form.count init + Form.count test + Form.count step then .statement
      else Way.loopHead child := fun _ _ => rfl
  rw [within_inline_ofForm, Form.children, allWithin_append, allWithin_cons, hinto]
  refine ⟨allWithin_of_forall fun j t _ hlt ht => ?_, ?_, trivial⟩
  · rw [hinto, if_neg (Nat.ne_of_lt (by simpa [Form.count, Nat.add_assoc] using hlt))]
    rcases List.mem_append.1 ht with ht | ht
    · exact (List.mem_append.1 ht).elim (fun ht => hinit t (Option.mem_toList.1 ht))
        fun ht => within_loopHead (htest t (Option.mem_toList.1 ht))
    · exact within_loopHead (hstep t (Option.mem_toList.1 ht))
  · rw [if_pos (by simp [Form.count, Nat.add_assoc])]
    exact within_statement.2 hbody

/-! ## Patterns read from literals -/

/-- The second tree nests as the first one does, wherever an expression may stand. -/
structure NestsAlike (t u : Tree) : Prop where
  spread : u.form.isSpread = t.form.isSpread
  property : u.form.isProperty = t.form.isProperty
  nesting : ∀ k w, w.isPlain = true → u.nesting k w = t.nesting k w

theorem NestsAlike.refl (t : Tree) : NestsAlike t t := ⟨rfl, rfl, fun _ _ _ => rfl⟩

/-- The forms lead alike to the children, and only to where expressions may stand. -/
def LeadsAlike (form form' : Form Nat) (ts us : List Tree) : Prop :=
  ∀ (w : Way) (j : Nat) (t u : Tree), w.isPlain = true → NestsAlike t u →
    ts[j]? = some t → us[j]? = some u →
    w.into form' j u.form = w.into form j t.form ∧ (w.into form j t.form).isPlain = true

/-- A node over children read again. -/
theorem NestsAlike.node {s e s' e' : Nat} {form' : Form Nat} (h : List.Forall₂ NestsAlike ts us)
    (hspread : form'.isSpread = form.isSpread) (hproperty : form'.isProperty = form.isProperty)
    (hleads : LeadsAlike form form' ts us) :
    NestsAlike (.node s e form ts) (.node s' e' form' us) := by
  refine ⟨hspread, hproperty, fun k w hw => ?_⟩
  rw [Tree.nesting, Tree.nesting]
  replace hleads : ∀ (j : Nat) (t u : Tree), NestsAlike t u → ts[j]? = some t → us[j]? = some u →
      w.into form' (0 + j) u.form = w.into form (0 + j) t.form ∧
        (w.into form (0 + j) t.form).isPlain = true := by
    intro j t u h ht hu
    rw [Nat.zero_add]
    exact hleads w j t u hw h ht hu
  generalize 0 = i at hleads ⊢
  induction h generalizing i with
  | nil => rfl
  | @cons t u ts us ht _ ih =>
    obtain ⟨hsame, hplain⟩ := hleads 0 t u ht rfl rfl
    rw [Nat.add_zero] at hsame hplain
    rw [nestings, nestings, hsame, ht.nesting k _ hplain, ih (i + 1) fun j t u h ht hu => ?_]
    rw [Nat.add_assoc, Nat.add_comm 1 j]
    exact hleads (j + 1) t u h ht hu

/-- What is read again as a target is no item that holds one, before and after. -/
theorem isItem_of_toPattern (h : t.toPattern false = .ok u) :
    t.form.isItem = false ∧ u.form.isItem = false := by
  cases t with
  | node s e form kids =>
    unfold toPattern at h
    split at h
    all_goals first | cases h | skip
    all_goals first | exact ⟨rfl, rfl⟩ | skip
    all_goals
      split at h
      all_goals
        cases h
      all_goals exact ⟨rfl, rfl⟩

theorem isItem_of_isSimpleTarget (h : t.isSimpleTarget = true) : t.form.isItem = false := by
  cases t with
  | node s e form kids =>
    unfold isSimpleTarget at h
    split at h <;> first | (rename_i heq; cases heq; rfl) | cases h

theorem item_of_isPlain (hw : w.isPlain = true) : w.item = .element := by
  simp only [Way.isPlain, Bool.and_eq_true, Bool.not_eq_true'] at hw
  simp [Way.item, hw.1]

theorem part_of_isPlain (hw : w.isPlain = true) : w.part = .inline := by
  simp only [Way.isPlain, Bool.and_eq_true, Bool.not_eq_true'] at hw
  simp [Way.part, hw.1]

theorem leadsAlike_rest {i : Nat} (h : t.toPattern false = .ok u) :
    LeadsAlike (.spread i) (.rest i) [t] [u] := by
  intro w j t' u' hw _ ht hu
  match j with
  | 0 =>
    cases ht
    cases hu
    refine ⟨?_, rfl⟩
    simp only [Way.into, (isItem_of_toPattern h).2, part_of_isPlain hw]
    rfl

mutual

theorem nestsAlike_toPattern {element : Bool} {t u : Tree} (h : toPattern element t = .ok u) :
    NestsAlike t u := by
  match t with
  | .node s e form kids =>
    unfold toPattern at h
    split at h
    · next op l r target value =>
      split at h
      · cases htarget : toPattern false target with
        | error d => simp [htarget] at h
        | ok target' =>
          simp only [htarget, Except.ok.injEq] at h
          subst h
          refine .node (.cons (nestsAlike_toPattern htarget) (.cons (.refl _) .nil)) rfl rfl ?_
          intro w j t u hw _ ht hu
          simp only [Way.into, part_of_isPlain hw]
          refine ⟨?_, by (repeat' split) <;> rfl⟩
          match j with
          | 0 =>
            cases ht
            cases hu
            rw [(isItem_of_toPattern htarget).1, (isItem_of_toPattern htarget).2]
          | 1 =>
            cases ht
            cases hu
            rfl
      · cases h
    · next i argument =>
      split at h
      · cases hargument : toPattern false argument with
        | error d => simp [hargument] at h
        | ok argument' =>
          simp only [hargument, Except.ok.injEq] at h
          subst h
          refine .node (.cons (nestsAlike_toPattern hargument) .nil) rfl rfl ?_
          exact leadsAlike_rest hargument
      · cases h
    · cases h
      exact .refl _
    · cases h
      exact .refl _
    · cases h
      exact .refl _
    · split at h
      · cases h
      · cases h
        exact .refl _
    · split at h
      · cases h
        exact .refl _
      · cases h
    · next elements =>
      cases hkids : toElements kids with
      | error d => simp [hkids] at h
      | ok us =>
        simp only [hkids, Except.ok.injEq] at h
        subst h
        refine .node (nestsAlike_toElements hkids) rfl rfl fun w j t u hw _ _ _ => ?_
        exact ⟨item_of_isPlain hw, rfl⟩
    · next properties =>
      cases hkids : toProperties kids with
      | error d => simp [hkids] at h
      | ok us =>
        simp only [hkids, Except.ok.injEq] at h
        subst h
        refine .node (nestsAlike_toProperties hkids) rfl rfl fun w j t u hw h _ _ => ?_
        simp only [Way.into, h.spread, h.property, item_of_isPlain hw, part_of_isPlain hw]
        exact ⟨trivial, by (repeat' split) <;> rfl⟩
    · cases h

theorem nestsAlike_toElements {ts us : List Tree} (h : toElements ts = .ok us) :
    List.Forall₂ NestsAlike ts us := by
  match ts with
  | [] =>
    unfold toElements at h
    cases h
    exact .nil
  | t :: ts =>
    unfold toElements at h
    split at h
    · cases h
    · next t' ht =>
      split at h
      · cases h
      · next ts' hts =>
        cases h
        exact .cons (nestsAlike_toPattern ht) (nestsAlike_toElements hts)

theorem nestsAlike_toProperty {t u : Tree} (h : toProperty t = .ok u) : NestsAlike t u := by
  match t with
  | .node s e form kids =>
    unfold toProperty at h
    split at h
    · next i j role traits key value =>
      split at h
      · cases h
      · next hrole =>
        cases hvalue : toPattern true value with
        | error d => simp [hvalue] at h
        | ok value' =>
          simp only [hvalue, Except.ok.injEq] at h
          subst h
          refine .node (.cons (.refl key) (.cons (nestsAlike_toPattern hvalue) .nil)) rfl rfl ?_
          intro w j t u hw _ _ _
          simp only [Way.into, item_of_isPlain hw, part_of_isPlain hw, if_neg hrole]
          exact ⟨trivial, by (repeat' split) <;> rfl⟩
    · next i argument =>
      cases hargument : toPattern false argument with
      | error d => simp [hargument] at h
      | ok argument' =>
        simp only [hargument, Except.ok.injEq] at h
        subst h
        refine .node (.cons (nestsAlike_toPattern hargument) .nil) rfl rfl ?_
        exact leadsAlike_rest hargument
    · cases h
      exact .refl _

theorem nestsAlike_toProperties {ts us : List Tree} (h : toProperties ts = .ok us) :
    List.Forall₂ NestsAlike ts us := by
  match ts with
  | [] =>
    unfold toProperties at h
    cases h
    exact .nil
  | t :: ts =>
    unfold toProperties at h
    split at h
    · cases h
    · next t' ht =>
      split at h
      · cases h
      · next ts' hts =>
        cases h
        exact .cons (nestsAlike_toProperty ht) (nestsAlike_toProperties hts)

end

/-- A literal read again as a pattern fits where the literal does. -/
theorem within_toTarget (h : t.toTarget = .ok u) (hw : w.isPlain = true) :
    u.Within R w ↔ t.Within R w := by
  have hsame {k : Way → Bool} : u.nesting k w = t.nesting k w := (nestsAlike_toPattern h).nesting k w hw
  constructor
  · exact fun ⟨hknown, hall, hlevels⟩ => ⟨hknown, hsame ▸ hall, hsame ▸ hlevels⟩
  · exact fun ⟨hknown, hall, hlevels⟩ => ⟨hknown, hsame ▸ hall, hsame ▸ hlevels⟩

end Tree

end LoopClosure.Syntax
