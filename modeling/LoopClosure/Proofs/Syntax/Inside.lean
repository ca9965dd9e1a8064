import LoopClosure.Proofs.Syntax.Apart
import Mathlib.Data.List.Basic

/-!
# Nodes inside one another

`Nodes.Inside ns outer inner`: `inner` is `outer` or lies below it. `Nodes.WellFormed` says of a
table what well-formed trees give (`wellFormed_ofTree`); lowerings are proved correct for such
tables.
-/

namespace LoopClosure.Syntax

namespace Nodes

variable {ns : Nodes} {a b c p : NodeId}

inductive Inside (ns : Nodes) (outer : NodeId) : NodeId → Prop where
  | refl : Inside ns outer outer
  | up {id p : NodeId} (hp : ns.parent? id = some p) (h : Inside ns outer p) : Inside ns outer id

theorem Inside.trans (h : ns.Inside a b) (h' : ns.Inside b c) : ns.Inside a c := by
  induction h' with
  | refl => exact h
  | up hp _ ih => exact .up hp ih

theorem Inside.of_parent (hp : ns.parent? c = some p) : ns.Inside p c := .up hp .refl

theorem Inside.of_mem_climb {k : Nat} (h : a ∈ ns.climb k c) : ns.Inside a c := by
  induction k generalizing c with
  | zero => cases h
  | succ k ih =>
    unfold climb at h
    split at h
    · cases h
    · next p hp =>
      rcases List.mem_cons.1 h with rfl | h
      · exact .of_parent hp
      · exact .up hp (ih h)

theorem Inside.of_mem_ancestors (h : a ∈ c :: ns.ancestors c) : ns.Inside a c := by
  rcases List.mem_cons.1 h with rfl | h
  · exact .refl
  · exact .of_mem_climb h

/-- Of two nodes around a third one is inside the other. -/
theorem Inside.comparable (ha : ns.Inside a c) (hb : ns.Inside b c) :
    ns.Inside a b ∨ ns.Inside b a := by
  induction ha with
  | refl => exact .inr hb
  | up hp h ih =>
    cases hb with
    | refl => exact .inl (.up hp h)
    | up hp' h' =>
      rw [hp, Option.some.injEq] at hp'
      exact ih (hp' ▸ h')

/-- The number of levels to statements below, which grows on the way up from a statement in its
function. -/
structure IsDepth (ns : Nodes) (depth : NodeId → Nat) : Prop where
  le : ∀ c, depth c ≤ Tree.maxStatementDepth
  statement : ∀ {s : NodeId} {form : Form NodeId}, ns.form? s = some form →
    form.isStatement = true → 0 < depth s
  step : ∀ {c p : NodeId} {form : Form NodeId}, ns.parent? c = some p → ns.form? p = some form →
    form.isFunction = false → 0 < depth c → form.isSealed = false ∧ depth c < depth p
  first : ∀ {loop c : NodeId} {form : Form NodeId}, ns.form? loop = some form →
    form.loopStart? = some c → depth c = 0 ∨
      (∃ f, ns.form? c = some f ∧ f.isBindings = true) ∧ ∀ d, ns.parent? d = some c → depth d = 0
  expressions : ∀ {loop c : NodeId} {form : Form NodeId}, ns.form? loop = some form →
    c ∈ form.loopExpressions → depth c = 0
  body : ∀ {c f : NodeId} {form : Form NodeId}, ns.parent? c = some f → ns.form? f = some form →
    form.isFunction = true → 0 < depth c → form.blockBody? = some c

theorem IsDepth.jump {depth : NodeId → Nat} (hd : ns.IsDepth depth) {j : NodeId} {kind : JumpKind}
    {label : Option NodeId} (h : ns.form? j = some (.jump kind label)) : 0 < depth j :=
  hd.statement h rfl

/-- The name `s` stands at the front of the value of a property: it is the value, or a default
follows it, which an object literal writes as an assignment. -/
inductive Fronts (ns : Nodes) (value : NodeId) : NodeId → Prop where
  | name {name : String} (h : ns.form? value = some (.identifier name)) : Fronts ns value value
  | default {s d : NodeId} (h : ns.form? value = some (.assignmentPattern s d)) : Fronts ns value s
  | assigned {operator : Token.Kind} {s d : NodeId}
    (h : ns.form? value = some (.assignment operator s d)) : Fronts ns value s

/-- A property in short form has the key `key`, and the name `s` at the front of its value: the two
have one place. -/
def Twins (ns : Nodes) (key s : NodeId) : Prop :=
  ∃ p value role traits, ns.form? p = some (.property key value role traits) ∧
    traits.shorthand = true ∧ ns.Fronts value s

theorem Fronts.unique {value s s' : NodeId} (h : ns.Fronts value s) (h' : ns.Fronts value s') :
    s = s' := by
  cases h <;> rename_i hf <;> cases h' <;> rename_i hf' <;> cases hf.symm.trans hf' <;> rfl

/-- What well-formed trees give. -/
structure WellFormed (ns : Nodes) : Prop where
  parent_iff : ∀ {c p : NodeId}, ns.parent? c = some p ↔ c ∈ ns.children p
  parent_lt : ∀ {c p : NodeId}, ns.parent? c = some p → p < c
  within : ∀ {c p : NodeId} {m n : Node}, ns.parent? c = some p → ns.get? c = some m →
    ns.get? p = some n → n.start ≤ m.start ∧ m.start < m.stop ∧ m.stop ≤ n.stop
  keyword : ∀ {c p : NodeId} {m n : Node}, ns.parent? c = some p → ns.get? c = some m →
    ns.get? p = some n → n.form.hasKeyword = true → n.start < m.start
  margins : ∀ {c p : NodeId} {m n : Node}, ns.parent? c = some p → ns.get? c = some m →
    ns.get? p = some n → n.start + n.form.lead ≤ m.start ∧ m.stop ≤ n.stop - n.form.trail
  room : ∀ {id : NodeId} {n : Node}, ns.get? id = some n →
    n.start + n.form.lead ≤ n.stop - n.form.trail
  nonempty : ∀ {id : NodeId} {n : Node}, ns.get? id = some n → n.form.hasKeyword = true →
    n.start < n.stop
  name_apart : ∀ {x id : NodeId} {name : String} {m n : Node}, ns.get? x = some m →
    m.form = .identifier name → ns.get? id = some n → n.form.hasKeyword = true →
    n.start < m.start ∨ m.start < n.start ∧ m.stop ≤ n.start
  label : ∀ {p l body : NodeId} {m n : Node}, ns.get? p = some n → n.form = .labeled l body →
    ns.get? body = some m → n.start < m.start
  laminar : ∀ {a b : NodeId} {m n : Node}, ns.get? a = some m → ns.get? b = some n →
    ns.identifier? a = none → ns.identifier? b = none →
    ns.Inside a b ∨ ns.Inside b a ∨ m.stop ≤ n.start ∨ n.stop ≤ m.start
  leaf : ∀ {s x : NodeId} {m n : Node}, ns.get? s = some m → ns.children s = [] →
    ns.get? x = some n → ns.Inside x s ∨ m.stop ≤ n.start ∨ n.stop ≤ m.start ∨
      (∃ s', ns.Twins s s') ∨ ns.Twins x s
  twins : ∀ {key s : NodeId}, ns.Twins key s → ∃ m n name, ns.get? key = some m ∧
    ns.get? s = some n ∧ m.start = n.start ∧ m.stop = n.stop ∧ m.form = .identifier name
  short : ∀ {p key value : NodeId} {role : PropertyRole} {traits : PropertyTraits},
    ns.form? p = some (.property key value role traits) → traits.shorthand = true →
      traits.computed = false
  jump : ∀ {c j : NodeId} {kind : JumpKind} {label : Option NodeId}, ns.parent? c = some j →
    ns.form? j = some (.jump kind label) → ∃ name, ns.identifier? c = some name
  nodup : ∀ id, (ns.children id).Nodup
  name_ne : ∀ {c : NodeId} {name : String}, ns.identifier? c = some name → name ≠ ""
  block : ∀ {f body : NodeId} {form : Form NodeId}, ns.form? f = some form →
    form.blockBody? = some body → ∃ statements, ns.form? body = some (.block statements)
  declarator : ∀ {d p : NodeId} {keyword : VarKeyword} {ds : List NodeId}, ns.parent? d = some p →
    ns.form? p = some (.bindings keyword ds) →
      ∃ target init, ns.form? d = some (.declarator target init)
  shallow : ∃ depth, IsDepth ns depth

end Nodes

namespace Tree

variable {id i j : Nat} {parent p q : Option NodeId} {t u v : Tree}

theorem length_siblingIds (id : Nat) (ts : List Tree) : (siblingIds id ts).length = ts.length := by
  induction ts generalizing id with
  | nil => rfl
  | cons t ts ih => rw [siblingIds, List.length_cons, List.length_cons, ih]

theorem mem_siblingIds {ts : List Tree} : i ∈ siblingIds id ts ↔
    ∃ pre u post, ts = pre ++ u :: post ∧ i = id + sizes pre := by
  induction ts generalizing id with
  | nil => simp [siblingIds]
  | cons t ts ih =>
    rw [siblingIds, List.mem_cons, ih]
    constructor
    · rintro (rfl | ⟨pre, u, post, rfl, rfl⟩)
      · exact ⟨[], t, ts, rfl, rfl⟩
      · exact ⟨t :: pre, u, post, rfl, by rw [sizes]; omega⟩
    · rintro ⟨pre, u, post, hts, rfl⟩
      cases pre with
      | nil => exact .inl rfl
      | cons x pre =>
        obtain ⟨rfl, rfl⟩ := List.cons.inj hts
        exact .inr ⟨pre, u, post, rfl, by rw [sizes]; omega⟩

theorem children_nodeAt (h : u.WellFormed) :
    (nodeAt i p u).form.children = siblingIds (i + 1) u.children := by
  obtain ⟨hch, -, -, -, -, -, -, -, -, -⟩ := h
  rw [nodeAt, Form.children_map, Tree.form, hch, Tree.children]
  refine List.ext_getElem (by rw [List.length_map, List.length_range, length_siblingIds])
    fun k _ hk => ?_
  rw [List.getElem_map, List.getElem_range, Array.getD_eq_getD_getElem?, List.getElem?_toArray,
    List.getElem?_eq_getElem hk, Option.getD_some]

theorem siblingIds_append (id : Nat) (ts us : List Tree) :
    siblingIds id (ts ++ us) = siblingIds id ts ++ siblingIds (id + sizes ts) us := by
  induction ts generalizing id with
  | nil => rfl
  | cons t ts ih =>
    rw [List.cons_append, siblingIds, siblingIds, ih, List.cons_append, sizes, Nat.add_assoc]

theorem getD_siblingIds (id : Nat) (pre post : List Tree) (u : Tree) :
    (siblingIds id (pre ++ u :: post)).toArray.getD pre.length 0 = id + sizes pre := by
  have hlen := length_siblingIds id pre
  rw [siblingIds_append, Array.getD_eq_getD_getElem?, List.getElem?_toArray,
    List.getElem?_append_right (Nat.le_of_eq hlen), hlen, Nat.sub_self]
  rfl

/-- The child with a number, by its place among the children. -/
theorem Located.nth {start stop k : Nat} {form : Form Nat} {ts : List Tree}
    (h : Located id parent t i p (.node start stop form ts)) (hk : ts[k]? = some u) :
    Located id parent t ((siblingIds (i + 1) ts).toArray.getD k 0) (some i) u := by
  obtain ⟨hlt, hu⟩ := List.getElem?_eq_some_iff.1 hk
  have hsplit : ts = ts.take k ++ u :: ts.drop (k + 1) := by
    rw [← hu, List.getElem_cons_drop, List.take_append_drop]
  have hlen : (ts.take k).length = k := by
    rw [List.length_take, Nat.min_eq_left (Nat.le_of_lt hlt)]
  have hid := getD_siblingIds (i + 1) (ts.take k) (ts.drop (k + 1)) u
  rw [← hsplit, hlen] at hid
  rw [hid]
  rw [hsplit] at h
  exact h.step

/-- A located subtree is the tree itself or a child of a located one. -/
theorem Located.cases_parent (h : Located id parent t i p u) : (i = id ∧ p = parent ∧ u = t) ∨
    ∃ j q start stop form pre post,
      Located id parent t j q (.node start stop form (pre ++ u :: post)) ∧
      p = some j ∧ i = j + 1 + sizes pre := by
  induction h with
  | here => exact .inl ⟨rfl, rfl, rfl⟩
  | child h ih =>
    right
    rcases ih with ⟨rfl, rfl, rfl⟩ | ⟨j, q, start, stop, form, pre, post, hj, hp, hi⟩
    · exact ⟨_, _, _, _, _, _, _, .here _ _ _, rfl, rfl⟩
    · exact ⟨j, q, start, stop, form, pre, post, .child hj, hp, hi⟩

end Tree

/-! ## The table of a well-formed tree -/

namespace Nodes

open LoopClosure.Syntax.Tree

variable {t u v : Tree} {i j c : Nat} {p q : Option NodeId}

theorem parent?_ofTree (h : Located 0 none t i p u) : (ofTree t).parent? i = p := by
  rw [parent?, get?_ofTree h]
  rfl

theorem form?_ofTree (h : Located 0 none t i p u) :
    (ofTree t).form? i = some (nodeAt i p u).form := by
  rw [form?, get?_ofTree h]
  rfl

theorem located_of_parent? {p : NodeId} (h : (ofTree t).parent? c = some p) :
    ∃ u q start stop form pre post, Located 0 none t c (some p) u ∧
      Located 0 none t p q (.node start stop form (pre ++ u :: post)) ∧ c = p + 1 + sizes pre := by
  obtain ⟨n, hn, hp⟩ := Option.bind_eq_some_iff.1 h
  obtain ⟨p', u, hu, rfl⟩ := located_of_get? hn
  have hp' : p' = some p := hp
  subst hp'
  rcases hu.cases_parent with ⟨-, hnone, -⟩ | ⟨j, q, start, stop, form, pre, post, hj, hp, hi⟩
  · cases hnone
  · cases hp
    exact ⟨u, q, start, stop, form, pre, post, hu, hj, hi⟩

theorem children_ofTree (ht : t.WellFormed) (h : Located 0 none t i p u) :
    (ofTree t).children i = siblingIds (i + 1) u.children := by
  rw [children, get?_ofTree h]
  exact children_nodeAt (h.wellFormed ht)

theorem inside_of_located (h : Located 0 none t i p u) (h' : Located i p u j q v) :
    (ofTree t).Inside i j := by
  induction h' with
  | here => exact .refl
  | child _ ih =>
    have hc := h.step
    exact (Inside.of_parent (parent?_ofTree hc)).trans (ih hc)

theorem identifier?_eq_some_iff {ns : Nodes} {id : NodeId} {name : String} :
    ns.identifier? id = some name ↔ ns.form? id = some (.identifier name) := by
  unfold identifier?
  split
  · simp_all
  · next h =>
    exact ⟨fun hn => (nomatch hn), fun hf => absurd hf (h name)⟩

theorem identifier?_ofTree (h : Located 0 none t i p u) {name : String} :
    (ofTree t).identifier? i = some name ↔ u.form = .identifier name := by
  rw [identifier?_eq_some_iff, form?_ofTree h, Option.some.injEq]
  exact Form.map_eq_identifier_iff

theorem not_isName_of_identifier? (ht : t.WellFormed) (h : Located 0 none t i p u)
    (hn : (ofTree t).identifier? i = none) : ¬u.IsName := by
  rw [(h.wellFormed ht).isName_iff]
  rintro ⟨name, hname⟩
  rw [(identifier?_ofTree h).2 hname] at hn
  cases hn

open scoped Classical in
/-- The way down to a statement, by number. -/
noncomputable def depthOf (t : Tree) (i : NodeId) : Nat :=
  if h : ∃ u p, Located 0 none t i p u then h.choose.statementDepth else 0

theorem depthOf_eq (h : Located 0 none t i p u) : depthOf t i = u.statementDepth := by
  have hex : ∃ u p, Located 0 none t i p u := ⟨u, p, h⟩
  obtain ⟨q, hq⟩ := hex.choose_spec
  rw [depthOf, dif_pos hex, (hq.unique h).2]

theorem depthOf_le (ht : t.WellFormed) (i : NodeId) : depthOf t i ≤ maxStatementDepth := by
  by_cases hex : ∃ u p, Located 0 none t i p u
  · obtain ⟨u, p, h⟩ := hex
    rw [depthOf_eq h]
    exact (h.wellFormed ht).shallow
  · rw [depthOf, dif_neg hex]
    exact Nat.zero_le _

/-- A statement with a label begins with the label. -/
theorem start_lt_of_labeled {start stop l b : Nat} {ts : List Tree}
    (h : (Tree.node start stop (.labeled l b) ts).WellFormed) : ∃ x y, ts = [x, y] ∧ l = 0 ∧ b = 1 ∧
      start < y.start := by
  cases h with
  | node hch hplaced _ _ _ _ _ _ _ =>
    have hlen : ts.length = 2 := by simpa [Form.children] using congrArg List.length hch.symm
    obtain ⟨x, y, rfl⟩ := List.length_eq_two.1 hlen
    obtain ⟨rfl, rfl⟩ : l = 0 ∧ b = 1 := by simpa [Form.children, List.range_succ] using hch
    cases hplaced with
    | spread _ h =>
      obtain ⟨hx, hx', hy, -⟩ := h
      simp only [Form.lead] at hx
      exact ⟨x, y, rfl, rfl, rfl, by omega⟩

theorem parent?_ofTree_iff (ht : t.WellFormed) {c p : NodeId} :
    (ofTree t).parent? c = some p ↔ c ∈ (ofTree t).children p := by
  constructor
  · intro h
    obtain ⟨u, q, start, stop, form, pre, post, hc, hp, rfl⟩ := located_of_parent? h
    rw [children_ofTree ht hp]
    exact mem_siblingIds.2 ⟨pre, u, post, rfl, rfl⟩
  · intro h
    cases hn : (ofTree t).get? p with
    | none => simp [children, hn] at h
    | some n =>
      obtain ⟨q, v, hp, -⟩ := located_of_get? hn
      rw [children_ofTree ht hp] at h
      obtain ⟨pre, u, post, hv, rfl⟩ := mem_siblingIds.1 h
      cases v with
      | node start stop form ts =>
        obtain rfl : ts = _ := hv
        exact parent?_ofTree hp.step

theorem start_lt_of_form_labeled (ht : t.WellFormed) {p l body : NodeId} {m n : Node}
    (hn : (ofTree t).get? p = some n) (hform : n.form = .labeled l body)
    (hm : (ofTree t).get? body = some m) : n.start < m.start := by
  obtain ⟨q, v, hv, rfl⟩ := located_of_get? hn
  have hwf := hv.wellFormed ht
  cases v with
  | node start stop form ts =>
    obtain ⟨l', b', rfl, -, rfl⟩ := Form.map_eq_labeled hform
    obtain ⟨x, y, rfl, rfl, rfl, hlt⟩ := start_lt_of_labeled hwf
    have hy : Located 0 none t (p + 1 + sizes [x]) (some p) y := hv.step
    rw [show sizes [x] = x.size from Nat.add_zero _] at hy
    have hsecond : (siblingIds (p + 1)
        (Tree.node start stop (.labeled 0 1) [x, y]).children).toArray.getD 1 0 =
        p + 1 + x.size := rfl
    rw [hsecond, get?_ofTree hy, Option.some.injEq] at hm
    subst hm
    exact hlt

/-- The children of a node have growing numbers. -/
theorem nodup_siblingIds (id : Nat) (ts : List Tree) : (siblingIds id ts).Nodup := by
  induction ts generalizing id with
  | nil => exact List.nodup_nil
  | cons t ts ih =>
    refine List.nodup_cons.2 ⟨fun h => ?_, ih _⟩
    obtain ⟨pre, u, post, -, hid⟩ := mem_siblingIds.1 h
    have := t.size_pos
    omega

theorem nodup_children (ht : t.WellFormed) (id : NodeId) : ((ofTree t).children id).Nodup := by
  cases hn : (ofTree t).get? id with
  | none => simp [children, hn]
  | some n =>
    obtain ⟨p, u, hu, -⟩ := located_of_get? hn
    rw [children_ofTree ht hu]
    exact nodup_siblingIds _ _

/-! ## Properties in short form -/

section Short

variable {k key value : NodeId} {role : PropertyRole} {traits : PropertyTraits}

theorem form?_of_located {start stop : Nat} {u v : Tree} (hname : u.IsName)
    (h : Located 0 none t k q (.node start stop (.property 0 1 role traits) [u, v])) :
    (ofTree t).form? k = some (.property (k + 1) (k + 2) role traits) := by
  have hsize : k + 1 + u.size = k + 2 := by rw [hname.size_eq]
  rw [form?_ofTree h]
  exact congrArg (fun i => some (Form.property (k + 1) i role traits)) hsize

/-- A property in short form has a name for a key, and the name again at the front of its value. -/
theorem located_of_shorthand (ht : t.WellFormed)
    (hf : (ofTree t).form? k = some (.property key value role traits))
    (hshort : traits.shorthand = true) : ∃ q start stop u v,
      Located 0 none t k q (.node start stop (.property 0 1 role traits) [u, v]) ∧ u.IsName ∧
        u.IsShort v ∧ traits.computed = false ∧ key = k + 1 ∧ value = k + 2 := by
  obtain ⟨n, hn, hform⟩ := Option.map_eq_some_iff.1 hf
  obtain ⟨q, w, hw, rfl⟩ := located_of_get? hn
  have hwf := hw.wellFormed ht
  cases w with
  | node start stop form ts =>
    obtain ⟨key', value', rfl, -⟩ := Form.map_eq_property hform
    cases hwf.placed with
    | spread hlong _ => exact absurd hshort (Bool.eq_false_iff.1 hlong)
    | short _ hcomputed hname _ _ hs =>
      have hform' := form?_of_located hname hw
      rw [hf, Option.some.injEq] at hform'
      obtain ⟨rfl, rfl, -, -⟩ := Form.property.inj hform'
      exact ⟨q, start, stop, _, _, hw, hname, hs, hcomputed, rfl, rfl⟩

/-- The name at the front of the value is the key again. -/
theorem fronts_frontOf {start stop : Nat} {u v : Tree} (hname : u.IsName) (hshort : u.IsShort v)
    (h : Located 0 none t k q (.node start stop (.property 0 1 role traits) [u, v])) :
    (ofTree t).Fronts (k + 2) (frontOf k v) ∧ ∃ p, Located 0 none t (frontOf k v) p u := by
  have hsize : k + 1 + u.size = k + 2 := by rw [hname.size_eq]
  have hv : Located 0 none t (k + 2) (some k) v := hsize ▸ h.second
  cases hshort with
  | name =>
    cases u with
    | node start stop form ts =>
      cases form with
      | identifier name =>
        obtain ⟨-, rfl⟩ := hname
        have hfront : frontOf k (.node start stop (.identifier name) []) = k + 2 := if_pos rfl
        rw [hfront]
        exact ⟨.name (form?_ofTree hv), _, hv⟩
      | _ => exact hname.elim
  | default => exact ⟨.default (form?_ofTree hv), _, hv.first⟩
  | assigned => exact ⟨.assigned (form?_ofTree hv), _, hv.first⟩

theorem twins_ofTree (ht : t.WellFormed) {s : NodeId} (h : (ofTree t).Twins key s) :
    ∃ m n name, (ofTree t).get? key = some m ∧ (ofTree t).get? s = some n ∧ m.start = n.start ∧
      m.stop = n.stop ∧ m.form = .identifier name := by
  obtain ⟨k, value, role, traits, hf, hshort, hfront⟩ := h
  obtain ⟨q, start, stop, u, v, hk, hname, hs, -, rfl, rfl⟩ := located_of_shorthand ht hf hshort
  obtain ⟨hfront', p, hu⟩ := fronts_frontOf hname hs hk
  obtain rfl := hfront.unique hfront'
  have hkey : Located 0 none t (k + 1) (some k) u := hk.first
  obtain ⟨name, hform⟩ := (hkey.wellFormed ht).isName_iff.1 hname
  exact ⟨_, _, name, get?_ofTree hkey, get?_ofTree hu, rfl, rfl, Form.map_eq_identifier_iff.2 hform⟩

theorem children_of_leaf (ht : t.WellFormed) (hu : Located 0 none t i p u)
    (hleaf : (ofTree t).children i = []) : u.children = [] := by
  rw [children_ofTree ht hu] at hleaf
  exact List.length_eq_zero_iff.1 (by rw [← length_siblingIds, hleaf]; rfl)

/-- A leaf does not begin in front of a node with a lower number. -/
theorem start_le_ofTree (ht : t.WellFormed) {x s : NodeId} {m n : Node}
    (hn : (ofTree t).get? x = some n) (hm : (ofTree t).get? s = some m)
    (hleaf : (ofTree t).children s = []) (hle : x ≤ s) : n.start ≤ m.start := by
  obtain ⟨p, u, hu, rfl⟩ := located_of_get? hn
  obtain ⟨q, v, hv, rfl⟩ := located_of_get? hm
  exact leaf_start_le ht hu hv (children_of_leaf ht hv hleaf) hle

theorem leaf_ofTree (ht : t.WellFormed) {s x : NodeId} {m n : Node}
    (hm : (ofTree t).get? s = some m) (hleaf : (ofTree t).children s = [])
    (hn : (ofTree t).get? x = some n) : (ofTree t).Inside x s ∨ m.stop ≤ n.start ∨
      n.stop ≤ m.start ∨ (∃ s', (ofTree t).Twins s s') ∨ (ofTree t).Twins x s := by
  obtain ⟨p, u, hu, rfl⟩ := located_of_get? hm
  obtain ⟨q, v, hv, rfl⟩ := located_of_get? hn
  rcases leaf_apart ht hu hv (children_of_leaf ht hu hleaf) with
    h | h | h | ⟨k, key, value, ⟨r, _, _, role, traits, hs, hk⟩, hi⟩
  · exact .inl (inside_of_located hv h)
  · exact .inr (.inl h)
  · exact .inr (.inr (.inl h))
  · obtain ⟨hname, hshort⟩ : key.IsName ∧ key.IsShort value := by
      cases (hk.wellFormed ht).placed with
      | spread hlong _ => exact absurd hs (Bool.eq_false_iff.1 hlong)
      | short _ _ hname _ _ hshort => exact ⟨hname, hshort⟩
    have htwins : (ofTree t).Twins (k + 1) (frontOf k value) :=
      ⟨k, k + 2, role, traits, form?_of_located hname hk, hs, (fronts_frontOf hname hshort hk).1⟩
    rcases hi with rfl | ⟨rfl, rfl⟩
    · exact .inr (.inr (.inr (.inl ⟨_, htwins⟩)))
    · exact .inr (.inr (.inr (.inr htwins)))

end Short

/-- The tree of a part of a node. -/
theorem located_of_part (ht : t.WellFormed) {loop c : NodeId} {form : Form NodeId}
    (part : {α : Type} → Form α → List α)
    (hpart : ∀ {α β : Type} (f : Form α) (g : α → β), part (f.map g) = (part f).map g)
    (hsub : ∀ {α : Type} (f : Form α) a, a ∈ part f → a ∈ f.children)
    (hf : (ofTree t).form? loop = some form) (hc : c ∈ part form) :
    ∃ q start stop f ts k u, Located 0 none t loop q (.node start stop f ts) ∧ k ∈ part f ∧
      ts[k]? = some u ∧ Located 0 none t c (some loop) u := by
  obtain ⟨n, hn, rfl⟩ := Option.map_eq_some_iff.1 hf
  obtain ⟨q, v, hv, rfl⟩ := located_of_get? hn
  cases v with
  | node start stop f ts =>
    have hwf := hv.wellFormed ht
    obtain ⟨k, hk, rfl⟩ := List.mem_map.1 (hpart f _ ▸ hc)
    have hlt : k < ts.length := by
      have hmem := hsub f k hk
      cases hwf with
      | node children _ _ _ _ _ _ _ _ _ => exact List.mem_range.1 (children ▸ hmem)
    have hu := List.getElem?_eq_getElem hlt
    exact ⟨q, start, stop, f, ts, k, ts[k], hv, hk, hu, hv.nth hu⟩

/-- The node of a tree that is a block. -/
theorem exists_block_of_located (h : Located 0 none t c p u) (hu : u.form.isBlock = true) :
    ∃ statements, (ofTree t).form? c = some (.block statements) := by
  rw [form?_ofTree h]
  generalize hform : (nodeAt c p u).form = form
  have hblock : form.isBlock = true := by
    rwa [← hform, nodeAt, Form.isBlock_map]
  cases form with
  | block statements => exact ⟨statements, rfl⟩
  | _ => cases hblock

theorem isDepth_depthOf (ht : t.WellFormed) : IsDepth (ofTree t) (depthOf t) := by
  refine ⟨depthOf_le ht, fun {s form} hs hstatement => ?_, fun {c p form} hp hf hfun hpos => ?_,
    fun {loop c form} hf hc => ?_, fun {loop c form} hf hc => ?_,
    fun {c f form} hp hf hfun hpos => ?_⟩
  · obtain ⟨n, hn, rfl⟩ := Option.map_eq_some_iff.1 hs
    obtain ⟨q, v, hv, rfl⟩ := located_of_get? hn
    rw [nodeAt, Form.isStatement_map] at hstatement
    rw [depthOf_eq hv]
    cases v with
    | node start stop form ts => exact statementDepth_pos hstatement
  · obtain ⟨u, q, start, stop, f, pre, post, hc, hv, -⟩ := located_of_parent? hp
    rw [form?_ofTree hv, Option.some.injEq] at hf
    rw [depthOf_eq hc] at hpos ⊢
    rw [← hf, nodeAt, Form.isFunction_map] at hfun
    rw [depthOf_eq hv, ← hf, nodeAt, Form.isSealed_map]
    refine ⟨Bool.eq_false_iff.2 fun hsealed => ?_, statementDepth_lt (by simp) hfun hpos⟩
    have hle : u.statementDepth ≤ statementDepths (pre ++ u :: post) := statementDepth_le_of_mem (by simp)
    rw [(hv.wellFormed ht).statementDepths_of_isSealed hsealed] at hle
    omega
  · obtain ⟨q, start, stop, f, ts, k, u, hv, hk, hu, hcu⟩ :=
      located_of_part ht (fun f => f.loopStart?.toList)
        (fun f g => by rw [Form.loopStart?_map]; cases f.loopStart? <;> rfl)
        (fun f a ha => Form.mem_children_of_loopStart? (by simpa using ha)) hf (by simpa using hc)
    have hstart : u.IsStart := (hv.wellFormed ht).isStart (by simpa using hk) hu
    rw [depthOf_eq hcu]
    cases u with
    | node start stop f us =>
      refine hstart.imp_right fun ⟨hbindings, hdepth⟩ => ⟨⟨_, form?_ofTree hcu, ?_⟩, fun d hd => ?_⟩
      · rw [nodeAt, Form.isBindings_map]
        exact hbindings
      · obtain ⟨w, r, start', stop', f', pre, post, hw, hu', -⟩ := located_of_parent? hd
        obtain ⟨-, heq⟩ := hu'.unique hcu
        obtain ⟨-, -, -, rfl⟩ := Tree.node.inj heq
        rw [depthOf_eq hw]
        exact Nat.le_zero.1 (hdepth ▸ statementDepth_le_of_mem (by simp))
  · obtain ⟨q, start, stop, f, ts, k, u, hv, hk, hu, hcu⟩ :=
      located_of_part ht Form.loopExpressions (fun f g => Form.loopExpressions_map)
        (fun f a ha => Form.mem_children_of_loopExpressions ha) hf hc
    rw [depthOf_eq hcu]
    exact (hv.wellFormed ht).depth_of_loopExpressions hk hu
  · obtain ⟨u, q, start, stop, f', pre, post, hc, hv, hid⟩ := located_of_parent? hp
    rw [form?_ofTree hv, Option.some.injEq] at hf
    rw [depthOf_eq hc] at hpos
    rw [← hf, nodeAt, Form.isFunction_map] at hfun
    have hu : (pre ++ u :: post)[pre.length]? = some u := by simp
    have hbody := ((hv.wellFormed ht).parts.inner hfun _ u hu).resolve_right (Nat.ne_of_gt hpos)
    rw [← hf, nodeAt, Form.blockBody?_map, Tree.form, hbody, Option.map_some, Tree.children,
      getD_siblingIds, hid]

theorem wellFormed_ofTree (ht : t.WellFormed) : (ofTree t).WellFormed where
  parent_iff := parent?_ofTree_iff ht
  parent_lt h := by
    obtain ⟨u, q, start, stop, form, pre, post, -, -, rfl⟩ := located_of_parent? h
    rw [Nat.add_assoc]
    exact Nat.lt_add_of_pos_right (by omega)
  within h hm hn := by
    obtain ⟨u, q, start, stop, form, pre, post, hc, hp, -⟩ := located_of_parent? h
    rw [get?_ofTree hc, Option.some.injEq] at hm
    rw [get?_ofTree hp, Option.some.injEq] at hn
    subst hm hn
    exact (hp.wellFormed ht).placed.of_mem (by simp)
  keyword h hm hn hk := by
    obtain ⟨u, q, start, stop, form, pre, post, hc, hp, -⟩ := located_of_parent? h
    rw [get?_ofTree hc, Option.some.injEq] at hm
    rw [get?_ofTree hp, Option.some.injEq] at hn
    subst hm hn
    have hform : form.hasKeyword = true := by
      rwa [nodeAt, Form.hasKeyword_map] at hk
    exact (hp.wellFormed ht).placed.lt_of_hasKeyword hform (by simp)
  margins h hm hn := by
    obtain ⟨u, q, start, stop, form, pre, post, hc, hp, -⟩ := located_of_parent? h
    rw [get?_ofTree hc, Option.some.injEq] at hm
    rw [get?_ofTree hp, Option.some.injEq] at hn
    subst hm hn
    rw [nodeAt, Form.lead_map, Form.trail_map]
    have := (hp.wellFormed ht).placed.margins (t := u) (by simp)
    exact ⟨this.1, this.2.2⟩
  room hn := by
    obtain ⟨q, v, hv, rfl⟩ := located_of_get? hn
    rw [nodeAt, Form.lead_map, Form.trail_map]
    cases v with
    | node start stop form ts => exact (hv.wellFormed ht).placed.room
  nonempty hn hk := by
    obtain ⟨q, v, hv, rfl⟩ := located_of_get? hn
    rw [nodeAt, Form.hasKeyword_map] at hk
    cases v with
    | node start stop form ts => exact (hv.wellFormed ht).placed.lt_of_keyword hk
  name_apart {x id name m n} hm hform hn hk := by
    obtain ⟨p, u, hu, rfl⟩ := located_of_get? hm
    obtain ⟨q, v, hv, rfl⟩ := located_of_get? hn
    rw [nodeAt, Form.hasKeyword_map] at hk
    refine Tree.name_apart_keyword ht hu hv ?_ hk
    exact (hu.wellFormed ht).isName_iff.2 ⟨name, Form.map_eq_identifier_iff.1 hform⟩
  label := start_lt_of_form_labeled ht
  laminar {a b m n} hm hn ha hb := by
    obtain ⟨p, u, hu, rfl⟩ := located_of_get? hm
    obtain ⟨q, v, hv, rfl⟩ := located_of_get? hn
    rcases Tree.laminar ht hu hv (not_isName_of_identifier? ht hu ha)
      (not_isName_of_identifier? ht hv hb) with h | h | h
    · exact .inl (inside_of_located hu h)
    · exact .inr (.inl (inside_of_located hv h))
    · exact .inr (.inr h)
  leaf := leaf_ofTree ht
  twins := twins_ofTree ht
  short hf hshort := by
    obtain ⟨-, -, -, -, -, -, -, -, hcomputed, -⟩ := located_of_shorthand ht hf hshort
    exact hcomputed
  jump {c j kind label} hp hf := by
    obtain ⟨u, q, start, stop, form, pre, post, hc, hj, -⟩ := located_of_parent? hp
    rw [form?_ofTree hj, Option.some.injEq] at hf
    obtain ⟨label', rfl, -⟩ := Form.map_eq_jump hf
    have hname := (hj.wellFormed ht).isName_of_jump rfl u (by simp)
    obtain ⟨name, hform⟩ := (hc.wellFormed ht).isName_iff.1 hname
    exact ⟨name, (identifier?_ofTree hc).2 hform⟩
  nodup := nodup_children ht
  name_ne {c name} h := by
    obtain ⟨n, hn, -⟩ := Option.map_eq_some_iff.1 (identifier?_eq_some_iff.1 h)
    obtain ⟨p, u, hu, -⟩ := located_of_get? hn
    have hname := (identifier?_ofTree hu).1 h
    have hwf := hu.wellFormed ht
    cases hwf with
    | node _ _ named _ _ _ _ _ _ _ => exact named name hname
  block {f body form} hf hbody := by
    obtain ⟨q, start, stop, f', ts, k, u, hv, hk, hu, hc⟩ :=
      located_of_part ht (fun f => f.blockBody?.toList)
        (fun f g => by rw [Form.blockBody?_map]; cases f.blockBody? <;> rfl)
        (fun f a ha => Form.mem_children_of_blockBody? (by simpa using ha)) hf (by simpa using hbody)
    exact exists_block_of_located hc ((hv.wellFormed ht).parts.block k u (by simpa using hk) hu)
  declarator {d p keyword ds} hp hf := by
    obtain ⟨u, q, start, stop, form, pre, post, hd, hv, -⟩ := located_of_parent? hp
    rw [form?_ofTree hv, Option.some.injEq] at hf
    have hbindings : form.isBindings = true := by
      have hmap : (nodeAt p q (.node start stop form (pre ++ u :: post))).form.isBindings = true := by
        rw [hf]
        rfl
      rwa [nodeAt, Form.isBindings_map] at hmap
    have hdeclarator := (hv.wellFormed ht).parts.declarators hbindings u (by simp)
    rw [form?_ofTree hd]
    generalize hform : (nodeAt d (some p) u).form = form'
    have hform' : form'.isDeclarator = true := by
      rwa [← hform, nodeAt, Form.isDeclarator_map]
    cases form' with
    | declarator target init => exact ⟨target, init, rfl⟩
    | _ => cases hform'
  shallow := ⟨depthOf t, isDepth_depthOf ht⟩

end Nodes

end LoopClosure.Syntax
