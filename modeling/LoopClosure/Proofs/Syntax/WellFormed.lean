import LoopClosure.Proofs.Syntax.Location

/-!
# Well-formed trees

In a well-formed tree the children of a node lie in its range, in source order and apart from one
another; the key and the value of a property in short form share their place. Statements are
not far below the functions that they belong to, and in the head of a loop there are none but a
declaration. What a declaration, a function or a `catch` clause binds has no parentheses in it
(`Tree.Parts`).

- `Tree.laminar`: the ranges of two nodes, no identifiers, lie apart unless one node is below the
  other.
-/

namespace LoopClosure.Syntax

/-- A keyword stands in front of the children. -/
def Form.hasKeyword {α : Type} : Form α → Bool
  | .bindings .. | .forLoop .. | .forEach .. | .whileLoop .. | .doWhile .. | .returns ..
  | .jump .. => true
  | _ => false

def Form.isJump {α : Type} : Form α → Bool
  | .jump .. => true
  | _ => false

/-- A statement, or a part of one that is no expression; functions are told apart from both. -/
def Form.isStatement {α : Type} : Form α → Bool
  | .program .. | .bindings .. | .classBody .declaration .. | .block _ | .empty | .debugger
  | .expression _ | .ifElse .. | .forLoop .. | .forEach .. | .whileLoop .. | .doWhile ..
  | .returns _ | .jump .. | .throws _ | .tryCatch .. | .catchClause .. | .switch ..
  | .switchCase .. | .labeled .. | .withObject .. => true
  | _ => false

def Form.isBindings {α : Type} : Form α → Bool
  | .bindings .. => true
  | _ => false

/-- A class, a declaration or a `return`: statements lie in it in functions only. -/
def Form.isSealed {α : Type} : Form α → Bool
  | .classBody .. | .bindings .. | .returns _ => true
  | _ => false

def Form.isDeclarator {α : Type} : Form α → Bool
  | .declarator .. => true
  | _ => false

/-- Something is bound in the parts of the node. -/
def Form.isBinder {α : Type} : Form α → Bool
  | .bindings .. | .declarator .. | .function .. | .catchClause .. => true
  | _ => false

/-- The targets that a node binds. -/
def Form.bound {α : Type} : Form α → List α
  | .declarator target _ => [target]
  | .function _ _ params _ _ => params
  | .catchClause param _ => param.toList
  | _ => []

/-- The body of a function, unless that is an expression. -/
def Form.blockBody? {α : Type} : Form α → Option α
  | .function .arrow _ _ body traits => if traits.concise then none else some body
  | .function _ _ _ body _ => some body
  | _ => none

/-- Through which children a target, or an item of one, binds. -/
def Form.targets {α : Type} : Form α → List α
  | .arrayPattern elements => elements.filterMap fun e => e
  | .objectPattern properties => properties
  | .property _ value _ _ => [value]
  | .assignmentPattern left _ => [left]
  | .rest argument => [argument]
  | .parenthesized e => [e]
  | _ => []

/-- What the head of a `for` loop begins with. -/
def Form.loopStart? {α : Type} : Form α → Option α
  | .forLoop init _ _ _ => init
  | .forEach _ left _ _ => some left
  | _ => none

/-- What else is in the head of a loop. -/
def Form.loopExpressions {α : Type} : Form α → List α
  | .forLoop _ test step _ => test.toList ++ step.toList
  | .forEach _ _ right _ => [right]
  | .whileLoop test _ | .doWhile _ test => [test]
  | _ => []

/-- How far behind the start of a node its children begin at least. -/
def Form.lead {α : Type} : Form α → Nat
  | .bindings .. => 3
  | .block _ | .forLoop .. | .forEach .. | .whileLoop .. | .doWhile .. | .returns .. | .jump .. => 1
  | _ => 0

/-- How far in front of the end of a node its children end at least. -/
def Form.trail {α : Type} : Form α → Nat
  | .block _ => 1
  | _ => 0

/-- A property in short form. -/
def Form.isShort {α : Type} : Form α → Bool
  | .property _ _ _ traits => traits.shorthand
  | _ => false

theorem Form.lead_pos {α : Type} {f : Form α} (h : f.hasKeyword = true) : 0 < f.lead := by
  cases f <;> first | exact Nat.succ_pos _ | exact absurd h Bool.false_ne_true

@[simp] theorem Form.hasKeyword_number {α : Type} {f : Form α} :
    f.number.hasKeyword = f.hasKeyword := by
  cases f <;> rfl

@[simp] theorem Form.isJump_number {α : Type} {f : Form α} : f.number.isJump = f.isJump := by
  cases f <;> rfl

@[simp] theorem Form.isStatement_number {α : Type} {f : Form α} :
    f.number.isStatement = f.isStatement := by
  cases f with
  | classBody place => cases place <;> rfl
  | _ => rfl

@[simp] theorem Form.isSealed_number {α : Type} {f : Form α} : f.number.isSealed = f.isSealed := by
  cases f <;> rfl

@[simp] theorem Form.isBinder_number {α : Type} {f : Form α} : f.number.isBinder = f.isBinder := by
  cases f <;> rfl

@[simp] theorem Form.lead_number {α : Type} {f : Form α} : f.number.lead = f.lead := by
  cases f <;> rfl

@[simp] theorem Form.trail_number {α : Type} {f : Form α} : f.number.trail = f.trail := by
  cases f <;> rfl

@[simp] theorem Form.isShort_number {α : Type} {f : Form α} : f.number.isShort = f.isShort := by
  cases f <;> rfl

@[simp] theorem Form.hasKeyword_map {α β : Type} {f : Form α} {g : α → β} :
    (f.map g).hasKeyword = f.hasKeyword := by
  cases f <;> rfl

@[simp] theorem Form.isStatement_map {α β : Type} {f : Form α} {g : α → β} :
    (f.map g).isStatement = f.isStatement := by
  cases f with
  | classBody place => cases place <;> rfl
  | _ => rfl

@[simp] theorem Form.isBindings_map {α β : Type} {f : Form α} {g : α → β} :
    (f.map g).isBindings = f.isBindings := by
  cases f <;> rfl

@[simp] theorem Form.isSealed_map {α β : Type} {f : Form α} {g : α → β} :
    (f.map g).isSealed = f.isSealed := by
  cases f <;> rfl

theorem Form.isClass_of_isSealed {α : Type} {f : Form α} (h : f.isSealed = false) :
    f.isClass = false := by
  cases f <;> first | rfl | cases h

@[simp] theorem Form.isBinder_map {α β : Type} {f : Form α} {g : α → β} :
    (f.map g).isBinder = f.isBinder := by
  cases f <;> rfl

@[simp] theorem Form.isBlock_map {α β : Type} {f : Form α} {g : α → β} :
    (f.map g).isBlock = f.isBlock := by
  cases f <;> rfl

@[simp] theorem Form.isDeclarator_map {α β : Type} {f : Form α} {g : α → β} :
    (f.map g).isDeclarator = f.isDeclarator := by
  cases f <;> rfl

theorem Form.bound_map {α β : Type} {f : Form α} {g : α → β} :
    (f.map g).bound = f.bound.map g := by
  cases f with
  | function place name params body traits =>
    refine List.ext_getElem? fun i => ?_
    rw [map, mapIdx, bound, mapList, List.getElem?_mapIdx, bound, List.getElem?_map]
  | catchClause param body => cases param <;> rfl
  | _ => rfl

theorem Form.blockBody?_map {α β : Type} {f : Form α} {g : α → β} :
    (f.map g).blockBody? = f.blockBody?.map g := by
  cases f with
  | function place name params body traits =>
    cases place with
    | arrow =>
      simp only [map, mapIdx, blockBody?]
      split <;> rfl
    | _ => rfl
  | _ => rfl

theorem Form.targets_map {α β : Type} {f : Form α} {g : α → β} :
    (f.map g).targets = f.targets.map g := by
  cases f with
  | arrayPattern elements => exact children_map g (.arrayPattern elements)
  | objectPattern properties => exact children_map g (.objectPattern properties)
  | _ => rfl

theorem Form.loopStart?_map {α β : Type} {f : Form α} {g : α → β} :
    (f.map g).loopStart? = f.loopStart?.map g := by
  cases f <;> rfl

theorem Form.loopExpressions_map {α β : Type} {f : Form α} {g : α → β} :
    (f.map g).loopExpressions = f.loopExpressions.map g := by
  cases f with
  | forLoop init test step body => cases test <;> cases step <;> rfl
  | _ => rfl

theorem Form.isFunction_of_isStatement {α : Type} {f : Form α} (h : f.isStatement = true) :
    f.isFunction = false := by
  cases f <;> first | rfl | cases h

theorem Form.mem_children_of_loopStart? {α : Type} {f : Form α} {a : α}
    (h : f.loopStart? = some a) : a ∈ f.children := by
  cases f with
  | forLoop init test step body =>
    obtain rfl : init = some a := h
    simp [children]
  | forEach each left right body =>
    cases h
    exact List.mem_cons_self
  | _ => cases h

theorem Form.mem_children_of_loopExpressions {α : Type} {f : Form α} {a : α}
    (h : a ∈ f.loopExpressions) : a ∈ f.children := by
  cases f with
  | forLoop init test step body =>
    rcases List.mem_append.1 h with h | h <;> simp [children, h]
  | forEach each left right body => simp [children, List.mem_singleton.1 h]
  | whileLoop test body => simp [children, List.mem_singleton.1 h]
  | doWhile body test => simp [children, List.mem_singleton.1 h]
  | _ => cases h

theorem Form.hasKeyword_of_loopBody? {α : Type} {f : Form α} {body : α}
    (h : f.loopBody? = some body) : f.hasKeyword = true := by
  cases f <;> first | rfl | cases h

theorem Form.mem_children_of_loopBody? {α : Type} {f : Form α} {body : α}
    (h : f.loopBody? = some body) : body ∈ f.children := by
  cases f <;> first | (cases h; simp [children]) | cases h

theorem Form.loopStart?_of_not_isLoop {α : Type} {f : Form α} (h : f.isLoop = false) :
    f.loopStart? = none := by
  cases f <;> first | rfl | cases h

theorem Form.loopExpressions_of_not_isLoop {α : Type} {f : Form α} (h : f.isLoop = false) :
    f.loopExpressions = [] := by
  cases f <;> first | rfl | cases h

theorem Form.mem_children_of_mem_bound {α : Type} {f : Form α} {a : α} (h : a ∈ f.bound) :
    a ∈ f.children := by
  cases f with
  | declarator target init => simp [children, List.mem_singleton.1 h]
  | function place name params body traits => simp [children, show a ∈ params from h]
  | catchClause param body => exact List.mem_append_left _ h
  | _ => cases h

theorem Form.blockBody?_function {α : Type} {place : FunctionPlace} {name : Option α}
    {params : List α} {body : α} {traits : FunctionTraits}
    (h : place ≠ .arrow ∨ traits.concise = false) :
    (Form.function place name params body traits).blockBody? = some body := by
  cases place with
  | arrow => exact if_neg (Bool.eq_false_iff.1 (h.resolve_left (not_not_intro rfl)))
  | _ => rfl

theorem Form.mem_children_of_blockBody? {α : Type} {f : Form α} {a : α}
    (h : f.blockBody? = some a) : a ∈ f.children := by
  cases f with
  | function place name params body traits =>
    have ha : a = body := by
      cases place with
      | arrow =>
        simp only [blockBody?] at h
        split at h <;> cases h
        rfl
      | _ =>
        cases h
        rfl
    simp [children, ha]
  | _ => cases h

theorem Form.mem_children_of_mem_targets {α : Type} {f : Form α} {a : α} (h : a ∈ f.targets) :
    a ∈ f.children := by
  cases f with
  | arrayPattern elements => exact h
  | objectPattern properties => exact h
  | property key value role traits => exact List.mem_cons_of_mem _ h
  | assignmentPattern left right => exact List.mem_cons.2 (.inl (List.mem_singleton.1 h))
  | rest argument => exact h
  | parenthesized e => exact h
  | _ => cases h

/-- The numbers of the parts of a node are their places among the children. -/
theorem Form.mem_bound_number {α : Type} {f : Form α} {k : Nat} {a : α}
    (h : k ∈ f.number.bound) (ha : f.children[k]? = some a) : a ∈ f.bound := by
  cases f with
  | declarator target init =>
    obtain rfl := List.mem_singleton.1 h
    exact List.mem_singleton.2 (Option.some.inj ha).symm
  | function place name params body traits =>
    obtain ⟨j, hj, rfl⟩ := List.mem_mapIdx.1 h
    have hcount : count name = name.toList.length := by cases name <;> rfl
    rw [children, List.append_assoc, hcount, List.getElem?_append_right (Nat.le_add_right _ _),
      Nat.add_sub_cancel_left, List.getElem?_append_left hj] at ha
    exact List.mem_of_getElem? ha
  | catchClause param body =>
    cases param with
    | none => cases h
    | some param =>
      obtain rfl := List.mem_singleton.1 h
      exact List.mem_singleton.2 (Option.some.inj ha).symm
  | _ => cases h

theorem Form.blockBody?_number {α : Type} {f : Form α} {k : Nat} {a : α}
    (h : f.number.blockBody? = some k) (ha : f.children[k]? = some a) :
    f.blockBody? = some a := by
  cases f with
  | function place name params body traits =>
    have hcount : count name = name.toList.length := by cases name <;> rfl
    have hk (hk : k = count name + params.length) : a = body := by
      rw [hk, hcount, ← List.length_append, children, List.getElem?_concat_length] at ha
      exact (Option.some.inj ha).symm
    cases place with
    | arrow =>
      simp only [number, mapIdx, blockBody?] at h ⊢
      split at h
      · cases h
      · next hconcise => rw [if_neg hconcise, hk (Option.some.inj h).symm]
    | _ => exact congrArg some (hk (Option.some.inj h).symm).symm
  | _ => cases h

/-- The last child of a function is its body; those in front are its name and the parameters. -/
theorem Form.getElem?_children_function {α : Type} {place : FunctionPlace} {name : Option α}
    {params : List α} {body a : α} {traits : FunctionTraits} {k : Nat}
    (h : (Form.function place name params body traits).children[k]? = some a) :
    k = count name + params.length ∧ a = body ∨ a ∈ name.toList ∨ a ∈ params := by
  have hcount : count name = name.toList.length := by cases name <;> rfl
  rw [children, List.getElem?_append, List.length_append, ← hcount] at h
  split at h
  · exact .inr (List.mem_append.1 (List.mem_of_getElem? h))
  · have hbody := List.getElem?_eq_some_iff.1 h
    simp only [List.length_singleton] at hbody
    obtain ⟨hlt, rfl⟩ := hbody
    exact .inl ⟨by omega, by simp⟩

theorem Form.mem_targets_number {α : Type} {f : Form α} {k : Nat} {a : α}
    (h : k ∈ f.number.targets) (ha : f.children[k]? = some a) : a ∈ f.targets := by
  cases f with
  | arrayPattern elements => exact List.mem_of_getElem? ha
  | objectPattern properties => exact List.mem_of_getElem? ha
  | property key value role traits =>
    obtain rfl := List.mem_singleton.1 h
    exact List.mem_singleton.2 (Option.some.inj ha).symm
  | assignmentPattern left right =>
    obtain rfl := List.mem_singleton.1 h
    exact List.mem_singleton.2 (Option.some.inj ha).symm
  | rest argument =>
    obtain rfl := List.mem_singleton.1 h
    exact List.mem_singleton.2 (Option.some.inj ha).symm
  | parenthesized e =>
    obtain rfl := List.mem_singleton.1 h
    exact List.mem_singleton.2 (Option.some.inj ha).symm
  | _ => cases h

/-- The numbers of the parts of a head are their places among the children. -/
theorem Form.loopStart?_number {α : Type} {f : Form α} {k : Nat} {a : α}
    (h : f.number.loopStart? = some k) (ha : f.children[k]? = some a) : f.loopStart? = some a := by
  cases f with
  | forLoop init test step body =>
    cases init with
    | none => cases h
    | some i =>
      cases h
      exact ha
  | forEach each left right body =>
    cases h
    exact ha
  | _ => cases h

theorem Form.mem_loopExpressions_number {α : Type} {f : Form α} {k : Nat} {a : α}
    (h : k ∈ f.number.loopExpressions) (ha : f.children[k]? = some a) :
    a ∈ f.loopExpressions := by
  cases f with
  | forLoop init test step body =>
    cases init <;> cases test <;> cases step <;>
      simp only [number, mapIdx, loopExpressions, children, count, Option.map_none, Option.map_some,
        Option.toList_none, Option.toList_some, List.length_nil, List.length_cons, List.nil_append,
        List.cons_append, List.append_nil, List.mem_cons, List.not_mem_nil, or_false] at h ha ⊢
    all_goals (try rcases h with rfl | rfl) <;> simp_all
  | forEach each left right body =>
    obtain rfl := List.mem_singleton.1 h
    exact List.mem_singleton.2 (Option.some.inj ha).symm
  | whileLoop test body =>
    obtain rfl := List.mem_singleton.1 h
    exact List.mem_singleton.2 (Option.some.inj ha).symm
  | doWhile body test =>
    obtain rfl := List.mem_singleton.1 h
    exact List.mem_singleton.2 (Option.some.inj ha).symm
  | _ => cases h

@[simp] theorem Form.lead_map {α β : Type} {f : Form α} {g : α → β} :
    (f.map g).lead = f.lead := by
  cases f <;> rfl

@[simp] theorem Form.isShort_map {α β : Type} {f : Form α} {g : α → β} :
    (f.map g).isShort = f.isShort := by
  cases f <;> rfl

@[simp] theorem Form.trail_map {α β : Type} {f : Form α} {g : α → β} :
    (f.map g).trail = f.trail := by
  cases f <;> rfl

namespace Tree

/-- Subtrees one after the other, none empty, between two offsets. -/
def Spread (start stop : Nat) : List Tree → Prop
  | [] => start ≤ stop
  | t :: ts => start ≤ t.start ∧ t.start < t.stop ∧ Spread t.stop stop ts

mutual

/-- The number of nodes on the longest way down to a statement that leaves out functions; zero if
there is none. -/
def statementDepth : Tree → Nat
  | .node _ _ form ts =>
    if form.isFunction then 0
    else if form.isStatement || statementDepths ts ≠ 0 then statementDepths ts + 1
    else 0

def statementDepths : List Tree → Nat
  | [] => 0
  | t :: ts => max t.statementDepth (statementDepths ts)

end

/-- Three nodes for each level of nesting, and some for the outermost. -/
def maxStatementDepth : Nat := 3003

/-- An expression, or a declaration over expressions. -/
def IsStart : Tree → Prop
  | .node start stop form ts =>
    (Tree.node start stop form ts).statementDepth = 0 ∨
      form.isBindings = true ∧ statementDepths ts = 0

theorem IsStart.of_expression {t : Tree} (h : t.statementDepth = 0) : t.IsStart := by
  cases t with
  | node => exact .inl h

theorem IsStart.depth_of_not_bindings {t : Tree} (h : t.IsStart)
    (hnot : ∀ keyword declarators, t.form ≠ .bindings keyword declarators) :
    t.statementDepth = 0 := by
  cases t with
  | node start stop form ts =>
    refine h.resolve_right fun ⟨hbindings, _⟩ => ?_
    cases form with
    | bindings keyword declarators => exact hnot keyword declarators rfl
    | _ => cases hbindings

/-- An identifier, which has no children. -/
def IsName : Tree → Prop
  | .node _ _ (.identifier name) ts => name ≠ "" ∧ ts = []
  | _ => False

/-- A target that binds through no parentheses. -/
inductive Bare : Tree → Prop where
  | node {start stop : Nat} {form : Form Nat} {ts : List Tree}
    (open_ : ∀ e, form ≠ .parenthesized e)
    (targets : ∀ k t, k ∈ form.targets → ts[k]? = some t → t.Bare) : Bare (.node start stop form ts)

/-- What the parts of functions and declarations are. -/
structure Parts (form : Form Nat) (ts : List Tree) : Prop where
  block : ∀ k t, form.blockBody? = some k → ts[k]? = some t → t.form.isBlock = true
  inner : form.isFunction = true → ∀ k t, ts[k]? = some t →
    form.blockBody? = some k ∨ t.statementDepth = 0
  bare : ∀ k t, k ∈ form.bound → ts[k]? = some t → t.Bare
  declarators : form.isBindings = true → ∀ t ∈ ts, t.form.isDeclarator = true

theorem Parts.of_not_isBinder {form : Form Nat} {ts : List Tree} (h : form.isBinder = false) :
    Parts form ts := by
  have hblock : form.blockBody? = none := by
    cases form <;> first | rfl | cases h
  have hfunction : form.isFunction = false := by
    cases form <;> first | rfl | cases h
  have hbound : form.bound = [] := by
    cases form <;> first | rfl | cases h
  have hbindings : form.isBindings = false := by
    cases form <;> first | rfl | cases h
  exact ⟨by simp [hblock], by simp [hfunction], by simp [hbound], by simp [hbindings]⟩

/-- A name, or a name with a default; in an object literal the default is an assignment. -/
inductive IsShort (key : Tree) : Tree → Prop where
  | name : IsShort key key
  | default {start stop : Nat} {value : Tree} (hle : key.stop ≤ value.start) :
    IsShort key (.node start stop (.assignmentPattern 0 1) [key, value])
  | assigned {start stop : Nat} {operator : Token.Kind} {value : Tree}
    (hle : key.stop ≤ value.start) :
    IsShort key (.node start stop (.assignment operator 0 1) [key, value])

/-- A name, or a node over it and something behind it. -/
theorem IsShort.cases_form {key t : Tree} (h : key.IsShort t) : t = key ∨
    ∃ start stop form value, form.hasKeyword = false ∧ key.stop ≤ value.start ∧
      t = .node start stop form [key, value] := by
  cases h with
  | name => exact .inl rfl
  | default hle => exact .inr ⟨_, _, _, _, rfl, hle, rfl⟩
  | assigned hle => exact .inr ⟨_, _, _, _, rfl, hle, rfl⟩

/-- Where the children of a node from `start` to `stop` lie. -/
inductive Placed (start stop : Nat) : Form Nat → List Tree → Prop where
  | spread {form : Form Nat} {ts : List Tree} (hlong : form.isShort = false)
    (h : Spread (start + form.lead) (stop - form.trail) ts) : Placed start stop form ts
  | short {role : PropertyRole} {traits : PropertyTraits} {key value : Tree}
    (hform : traits.shorthand = true) (hcomputed : traits.computed = false)
    (hname : key.IsName) (hkey : Spread start stop [key]) (hvalue : Spread start stop [value])
    (hshort : key.IsShort value) : Placed start stop (.property 0 1 role traits) [key, value]

inductive WellFormed : Tree → Prop where
  | node {start stop : Nat} {form : Form Nat} {ts : List Tree}
    (children : form.children = List.range ts.length) (placed : Placed start stop form ts)
    (named : ∀ name, form = .identifier name → name ≠ "")
    (shallow : (Tree.node start stop form ts).statementDepth ≤ maxStatementDepth)
    (closed : form.isSealed = true → statementDepths ts = 0)
    (labels : form.isJump = true → ∀ t ∈ ts, t.IsName)
    (first : ∀ k t, form.loopStart? = some k → ts[k]? = some t → t.IsStart)
    (expressions : ∀ k t, k ∈ form.loopExpressions → ts[k]? = some t → t.statementDepth = 0)
    (parts : Parts form ts)
    (kids : ∀ t ∈ ts, t.WellFormed) : WellFormed (.node start stop form ts)

/-! ## Ranges -/

variable {a b start stop : Nat} {t u v : Tree} {ts us : List Tree}

theorem Spread.le (h : Spread a b ts) : a ≤ b := by
  induction ts generalizing a with
  | nil => exact h
  | cons t ts ih =>
    obtain ⟨h1, h2, h3⟩ := h
    have := ih h3
    omega

theorem Spread.of_mem (h : Spread a b ts) (ht : t ∈ ts) :
    a ≤ t.start ∧ t.start < t.stop ∧ t.stop ≤ b := by
  induction ts generalizing a with
  | nil => cases ht
  | cons t' ts ih =>
    obtain ⟨h1, h2, h3⟩ := h
    rcases List.mem_cons.1 ht with rfl | ht
    · exact ⟨h1, h2, h3.le⟩
    · have := ih h3 ht
      omega

theorem Spread.apart {pre mid post : List Tree}
    (h : Spread a b (pre ++ t :: (mid ++ u :: post))) : t.stop ≤ u.start := by
  induction pre generalizing a with
  | nil => exact (h.2.2.of_mem (by simp)).1
  | cons t' pre ih => exact ih h.2.2

theorem Placed.margins {form : Form Nat} (h : Placed start stop form ts) (ht : t ∈ ts) :
    start + form.lead ≤ t.start ∧ t.start < t.stop ∧ t.stop ≤ stop - form.trail := by
  cases h with
  | spread _ h => exact h.of_mem ht
  | short _ _ _ hkey hvalue _ =>
    rcases (by simpa using ht : t = _ ∨ t = _) with rfl | rfl
    · exact hkey.of_mem List.mem_cons_self
    · exact hvalue.of_mem List.mem_cons_self

/-- There is room for what stands in front of and behind the children. -/
theorem Placed.room {form : Form Nat} (h : Placed start stop form ts) :
    start + form.lead ≤ stop - form.trail := by
  cases h with
  | spread _ h => exact h.le
  | short _ _ _ hkey => exact hkey.le

theorem Placed.of_mem {form : Form Nat} (h : Placed start stop form ts) (ht : t ∈ ts) :
    start ≤ t.start ∧ t.start < t.stop ∧ t.stop ≤ stop := by
  have := h.margins ht
  omega

theorem Placed.lt_of_hasKeyword {form : Form Nat} (h : Placed start stop form ts)
    (hk : form.hasKeyword = true) (ht : t ∈ ts) : start < t.start := by
  have := h.margins ht
  have := Form.lead_pos hk
  omega

theorem Placed.lt_of_keyword {form : Form Nat} (h : Placed start stop form ts)
    (hk : form.hasKeyword = true) : start < stop := by
  have := h.room
  have := Form.lead_pos hk
  omega

/-- Of two children the first ends before the second begins, unless they are all that a property in
short form has. -/
theorem Placed.apart_or_short {form : Form Nat} {pre mid post : List Tree}
    (h : Placed start stop form (pre ++ t :: (mid ++ u :: post))) : t.stop ≤ u.start ∨
      ∃ role traits, form = .property 0 1 role traits ∧ traits.shorthand = true ∧
        pre = [] ∧ mid = [] ∧ post = [] ∧ t.IsName ∧ t.IsShort u := by
  generalize hk : pre ++ t :: (mid ++ u :: post) = kids at h
  cases h with
  | spread _ h =>
    subst hk
    exact .inl h.apart
  | short hform _ hname _ _ hshort =>
    have hlen := congrArg List.length hk
    simp only [List.length_append, List.length_cons, List.length_nil] at hlen
    obtain rfl : pre = [] := List.length_eq_zero_iff.1 (by omega)
    obtain rfl : mid = [] := List.length_eq_zero_iff.1 (by omega)
    cases hk
    exact .inr ⟨_, _, rfl, hform, rfl, rfl, rfl, hname, hshort⟩

theorem Placed.apart {form : Form Nat} {pre mid post : List Tree}
    (h : Placed start stop form (pre ++ t :: (mid ++ u :: post))) :
    t.stop ≤ u.start ∨ t.IsName ∧ t.IsShort u :=
  h.apart_or_short.imp_right fun ⟨_, _, _, _, _, _, _, hname, hshort⟩ => ⟨hname, hshort⟩

theorem WellFormed.kid {form : Form Nat} (h : (Tree.node start stop form ts).WellFormed)
    (ht : t ∈ ts) : t.WellFormed := by
  cases h with
  | node _ _ _ _ _ _ _ _ _ kids => exact kids t ht

theorem statementDepth_le_of_mem (ht : t ∈ ts) : t.statementDepth ≤ statementDepths ts := by
  induction ts with
  | nil => cases ht
  | cons t' ts ih =>
    rw [statementDepths]
    rcases List.mem_cons.1 ht with rfl | ht
    · exact Nat.le_max_left _ _
    · exact Nat.le_trans (ih ht) (Nat.le_max_right _ _)

theorem statementDepth_pos {form : Form Nat} (h : form.isStatement = true) :
    0 < (node start stop form ts).statementDepth := by
  simp [statementDepth, Form.isFunction_of_isStatement h, h]

theorem statementDepth_lt {form : Form Nat} (ht : t ∈ ts) (hform : form.isFunction = false)
    (hpos : 0 < t.statementDepth) : t.statementDepth < (node start stop form ts).statementDepth := by
  have hle := statementDepth_le_of_mem ht
  have hne : statementDepths ts ≠ 0 := by omega
  rw [statementDepth, hform, if_neg Bool.false_ne_true, if_pos (by simp [hne])]
  omega

theorem WellFormed.shallow (h : t.WellFormed) : t.statementDepth ≤ maxStatementDepth := by
  cases h
  assumption

/-- The names of a well-formed tree are its identifiers. -/
theorem WellFormed.isName_iff (h : t.WellFormed) :
    t.IsName ↔ ∃ name, t.form = .identifier name := by
  cases h with
  | @node start stop form ts children _ named _ _ _ _ =>
    constructor
    · intro hn
      cases form with
      | identifier name => exact ⟨name, rfl⟩
      | _ => exact hn.elim
    · rintro ⟨name, hform⟩
      obtain rfl : form = .identifier name := hform
      refine ⟨named name rfl, List.length_eq_zero_iff.1 ?_⟩
      simpa [Form.children] using children.symm

theorem WellFormed.placed {form : Form Nat} (h : (Tree.node start stop form ts).WellFormed) :
    Placed start stop form ts := by
  cases h
  assumption

theorem WellFormed.statementDepths_of_isSealed {form : Form Nat}
    (h : (Tree.node start stop form ts).WellFormed) (hsealed : form.isSealed = true) :
    statementDepths ts = 0 := by
  cases h with
  | node _ _ _ _ closed _ _ => exact closed hsealed

/-- The label of a jump is a name. -/
theorem WellFormed.isName_of_jump {form : Form Nat} (h : (Tree.node start stop form ts).WellFormed)
    (hjump : form.isJump = true) : ∀ t ∈ ts, t.IsName := by
  cases h with
  | node _ _ _ _ _ labels _ => exact labels hjump

theorem WellFormed.isStart {form : Form Nat} {k : Nat}
    (h : (Tree.node start stop form ts).WellFormed) (hk : form.loopStart? = some k)
    (ht : ts[k]? = some t) : t.IsStart := by
  cases h with
  | node _ _ _ _ _ _ first _ _ => exact first k t hk ht

/-- No statement lies in the head of a loop, but for what the head begins with. -/
theorem WellFormed.depth_of_loopExpressions {form : Form Nat} {k : Nat}
    (h : (Tree.node start stop form ts).WellFormed) (hk : k ∈ form.loopExpressions)
    (ht : ts[k]? = some t) : t.statementDepth = 0 := by
  cases h with
  | node _ _ _ _ _ _ _ expressions _ => exact expressions k t hk ht

theorem WellFormed.parts {form : Form Nat} (h : (Tree.node start stop form ts).WellFormed) :
    Parts form ts := by
  cases h
  assumption

section Located

variable {id i j : Nat} {parent p q : Option NodeId}

theorem Located.wellFormed (h : Located id parent t i p u) (ht : t.WellFormed) : u.WellFormed := by
  induction h with
  | here => exact ht
  | child _ ih => exact ih (ht.kid (by simp))

/-- A subtree lies in the range of the tree. -/
theorem Located.within (h : Located id parent t i p u) (ht : t.WellFormed) :
    t.start ≤ u.start ∧ u.stop ≤ t.stop := by
  induction h with
  | here => exact ⟨Nat.le_refl _, Nat.le_refl _⟩
  | child _ ih =>
    have hc := ht.placed.of_mem (List.mem_append_right _ List.mem_cons_self)
    have := ih (ht.kid (by simp))
    simp only [Tree.start, Tree.stop] at *
    omega

theorem Located.nonempty (h : Located id parent t i p u) (ht : t.WellFormed)
    (hlt : t.start < t.stop) : u.start < u.stop := by
  induction h with
  | here => exact hlt
  | child _ ih => exact ih (ht.kid (by simp)) (ht.placed.of_mem (by simp)).2.1

/-- A name has nothing below it. -/
theorem Located.eq_of_isName (h : Located id parent t i p u) (ht : t.IsName) : u = t := by
  cases h with
  | here => rfl
  | @child _ _ _ _ start stop form pre post c u h =>
    cases form with
    | identifier name => exact absurd ht.2 (by simp)
    | _ => exact ht.elim

theorem not_hasKeyword_of_isName (ht : t.IsName) : t.form.hasKeyword = false := by
  cases t with
  | node start stop form ts =>
    cases form with
    | identifier name => rfl
    | _ => exact ht.elim

/-- What has a keyword lies behind the name of a property in short form. -/
theorem Located.le_of_isShort {key : Tree} (h : Located id parent t i p u) (ht : t.WellFormed)
    (hname : key.IsName) (hshort : key.IsShort t) (hk : u.form.hasKeyword = true) :
    key.stop ≤ u.start := by
  rcases hshort.cases_form with rfl | ⟨start, stop, form, value, hform, hle, hn⟩
  · rw [h.eq_of_isName hname, not_hasKeyword_of_isName hname] at hk
    cases hk
  · cases h with
    | here =>
      subst hn
      exact absurd hk (Bool.eq_false_iff.1 hform)
    | @child _ _ _ _ _ _ _ pre post c _ h =>
      obtain ⟨rfl, rfl, rfl, hkids⟩ := Tree.node.inj hn
      rcases (by rw [← hkids]; simp : c ∈ [key, value]) with _ | ⟨_, _ | ⟨_, hc⟩⟩
      · rw [h.eq_of_isName hname, not_hasKeyword_of_isName hname] at hk
        cases hk
      · exact Nat.le_trans hle (h.within (ht.kid (by simp))).1
      · cases hc

theorem split_cases {pre pre' post post' : List Tree}
    (h : pre ++ t :: post = pre' ++ u :: post') :
    (pre = pre' ∧ t = u ∧ post = post') ∨ (∃ mid, post = mid ++ u :: post') ∨
      ∃ mid, post' = mid ++ t :: post := by
  induction pre generalizing pre' with
  | nil =>
    cases pre' with
    | nil =>
      obtain ⟨rfl, rfl⟩ := List.cons.inj h
      exact .inl ⟨rfl, rfl, rfl⟩
    | cons x pre' =>
      obtain ⟨rfl, rfl⟩ := List.cons.inj h
      exact .inr (.inl ⟨pre', rfl⟩)
  | cons x pre ih =>
    cases pre' with
    | nil =>
      obtain ⟨rfl, rfl⟩ := List.cons.inj h
      exact .inr (.inr ⟨pre, rfl⟩)
    | cons y pre' =>
      obtain ⟨rfl, hrest⟩ := List.cons.inj h
      rcases ih hrest with ⟨rfl, rfl, rfl⟩ | h | h
      · exact .inl ⟨rfl, rfl, rfl⟩
      · exact .inr (.inl h)
      · exact .inr (.inr h)

/-- A number belongs to one subtree. -/
theorem Located.unique (hu : Located id parent t i p u) (hv : Located id parent t i q v) :
    p = q ∧ u = v := by
  induction hu generalizing q v with
  | here =>
    cases hv with
    | here => exact ⟨rfl, rfl⟩
    | child hv => exact absurd hv.bounds.1 (by omega)
  | @child id i parent p start stop form pre post c u hu ih =>
    generalize hn : Tree.node start stop form (pre ++ c :: post) = n at hv
    cases hv with
    | here => exact absurd hu.bounds.1 (by omega)
    | @child _ _ _ _ start' stop' form' pre' post' c' v hv =>
      obtain ⟨rfl, rfl, rfl, hkids⟩ := Tree.node.inj hn
      have hb := hu.bounds
      have hb' := hv.bounds
      rcases split_cases hkids with ⟨rfl, rfl, rfl⟩ | ⟨mid, rfl⟩ | ⟨mid, rfl⟩
      · exact ih hv
      · have := congrArg sizes hkids
        simp only [sizes_append, sizes] at this
        omega
      · have := congrArg sizes hkids
        simp only [sizes_append, sizes] at this
        omega

/-- The ranges of two nodes that are no identifiers lie apart, unless one is below the other. -/
theorem laminar (ht : t.WellFormed) (hu : Located id parent t i p u)
    (hv : Located id parent t j q v) (hun : ¬u.IsName) (hvn : ¬v.IsName) :
    Located i p u j q v ∨ Located j q v i p u ∨ u.stop ≤ v.start ∨ v.stop ≤ u.start := by
  induction hu generalizing j q v with
  | here => exact .inl hv
  | @child id i parent p start stop form pre post c u hu ih =>
    generalize hn : Tree.node start stop form (pre ++ c :: post) = n at hv ht
    cases hv with
    | here =>
      subst hn
      exact .inr (.inl (.child hu))
    | @child _ _ _ _ start' stop' form' pre' post' c' v hv =>
      obtain ⟨rfl, rfl, rfl, hkids⟩ := Tree.node.inj hn
      have ht' : (Tree.node start stop form (pre ++ c :: post)).WellFormed := hkids ▸ ht
      have hc := ht'.kid (t := c) (by simp)
      have hc' := ht.kid (t := c') (by simp)
      rcases split_cases hkids with ⟨rfl, rfl, rfl⟩ | ⟨mid, rfl⟩ | ⟨mid, rfl⟩
      · exact ih hc hv hun hvn
      · rcases ht'.placed.apart with h | h
        · have := (hu.within hc).2
          have := (hv.within hc').1
          exact .inr (.inr (.inl (by omega)))
        · exact absurd (hu.eq_of_isName h.1 ▸ h.1) hun
      · rcases ht.placed.apart with h | h
        · have := (hu.within hc).1
          have := (hv.within hc').2
          exact .inr (.inr (.inr (by omega)))
        · exact absurd (hv.eq_of_isName h.1 ▸ h.1) hvn

/-- A name begins behind a keyword or ends in front of it. -/
theorem name_apart_keyword (ht : t.WellFormed) (hu : Located id parent t i p u)
    (hv : Located id parent t j q v) (hun : u.IsName) (hk : v.form.hasKeyword = true) :
    v.start < u.start ∨ u.start < v.start ∧ u.stop ≤ v.start := by
  induction hu generalizing j q v with
  | here =>
    rw [hv.eq_of_isName hun, not_hasKeyword_of_isName hun] at hk
    cases hk
  | @child id i parent p start stop form pre post c u hu ih =>
    generalize hn : Tree.node start stop form (pre ++ c :: post) = n at hv ht
    cases hv with
    | here =>
      subst hn
      have hlt := ht.placed.lt_of_hasKeyword hk (t := c) (by simp)
      have hle := (hu.within (ht.kid (by simp))).1
      exact .inl (Nat.lt_of_lt_of_le hlt hle)
    | @child _ _ _ _ start' stop' form' pre' post' c' v hv =>
      obtain ⟨rfl, rfl, rfl, hkids⟩ := Tree.node.inj hn
      have ht' : (Tree.node start stop form (pre ++ c :: post)).WellFormed := hkids ▸ ht
      have hc := ht'.kid (t := c) (by simp)
      have hc' := ht.kid (t := c') (by simp)
      have hcs := ht'.placed.of_mem (t := c) (by simp)
      have hcs' := ht.placed.of_mem (t := c') (by simp)
      have hwithin := hu.within hc
      have hwithin' := hv.within hc'
      have hlt := hu.nonempty hc hcs.2.1
      have hlt' := hv.nonempty hc' hcs'.2.1
      rcases split_cases hkids with ⟨rfl, rfl, rfl⟩ | ⟨mid, rfl⟩ | ⟨mid, rfl⟩
      · exact ih hc hv hun hk
      · rcases ht'.placed.apart with h | ⟨hname, hshort⟩
        · omega
        · have hle := hv.le_of_isShort hc' hname hshort hk
          omega
      · rcases ht.placed.apart with h | ⟨hname, -⟩
        · omega
        · rw [hv.eq_of_isName hname, not_hasKeyword_of_isName hname] at hk
          cases hk

end Located

end Tree

end LoopClosure.Syntax
