import LoopClosure.Syntax.Pattern
import LoopClosure.Proofs.Syntax.Spelling
import Mathlib.Data.List.Forall2

/-!
# Patterns read from literals

The pattern that a well-formed literal stands for is well formed, in the same place, and statements
lie in it as deep (`Recast`).
-/

namespace LoopClosure.Syntax.Tree

variable {s e a b : Nat} {t u : Tree} {ts us : List Tree} {form form' : Form Nat}

/-- The second tree is the first one read again. -/
structure Recast (t u : Tree) : Prop where
  start : u.start = t.start
  stop : u.stop = t.stop
  depth : u.statementDepth = t.statementDepth
  wellFormed : t.WellFormed → u.WellFormed
  read : ∀ {source : List Char} {ks : List Token.Lexeme}, t.Read source ks → u.Read source ks
  name : t.IsName → u = t

theorem Recast.refl (t : Tree) : Recast t t := ⟨rfl, rfl, rfl, id, id, fun _ => rfl⟩

theorem Recast.spread (h : List.Forall₂ Recast ts us) (hs : Spread a b ts) : Spread a b us := by
  induction h generalizing a with
  | nil => exact hs
  | cons ht _ ih =>
    obtain ⟨hstart, hlt, hs⟩ := hs
    exact ⟨ht.start ▸ hstart, ht.start ▸ ht.stop ▸ hlt, ht.stop ▸ ih hs⟩

theorem Recast.statementDepths (h : List.Forall₂ Recast ts us) : statementDepths us = statementDepths ts := by
  induction h with
  | nil => rfl
  | cons ht _ ih => rw [Tree.statementDepths, Tree.statementDepths, ht.depth, ih]

theorem Recast.kids (h : List.Forall₂ Recast ts us) (hts : ∀ t ∈ ts, t.WellFormed) :
    ∀ u ∈ us, u.WellFormed := by
  induction h with
  | nil => exact hts
  | cons ht _ ih =>
    rw [List.forall_mem_cons] at hts ⊢
    exact ⟨ht.wellFormed hts.1, ih hts.2⟩

theorem Recast.reads {source : List Char} {ks : List Token.Lexeme} (h : List.Forall₂ Recast ts us)
    (hts : ∀ t ∈ ts, t.Read source ks) : ∀ u ∈ us, u.Read source ks := by
  induction h with
  | nil => exact hts
  | cons ht _ ih =>
    rw [List.forall_mem_cons] at hts ⊢
    exact ⟨ht.read hts.1, ih hts.2⟩

theorem Recast.names (h : List.Forall₂ Recast ts us) (hts : ∀ t ∈ ts, t.IsName) :
    ∀ u ∈ us, u.IsName := by
  induction h with
  | nil => exact hts
  | cons ht _ ih =>
    rw [List.forall_mem_cons] at hts ⊢
    exact ⟨ht.name hts.1 ▸ hts.1, ih hts.2⟩

/-- A form that may stand for another over the same children. -/
structure Alike (form form' : Form Nat) : Prop where
  children : form'.children = form.children
  lead : form'.lead = form.lead
  trail : form'.trail = form.trail
  opening : form'.opening = form.opening
  spelling : form'.spelling? = form.spelling?
  isShort : form'.isShort = form.isShort
  isProgram : form'.isProgram = form.isProgram
  isFunction : form'.isFunction = form.isFunction
  isJump : form'.isJump = form.isJump
  isStatement : form'.isStatement = form.isStatement
  notLoop : form'.isLoop = false
  isSealed : form'.isSealed = form.isSealed
  notBinder : form'.isBinder = false
  notName : ∀ name, form ≠ .identifier name ∧ form' ≠ .identifier name
  notProperty : ∀ key value role traits, form ≠ .property key value role traits
  notBlock : form'.isBlock = false

/-- A node over children read again. -/
theorem Recast.node (h : List.Forall₂ Recast ts us) (hform : Alike form form') :
    Recast (.node s e form ts) (.node s e form' us) where
  start := rfl
  stop := rfl
  depth := by
    rw [statementDepth, statementDepth, hform.isFunction, hform.isStatement, Recast.statementDepths h]
  wellFormed ht := by
    cases ht with
    | node children placed named shallow closed labels first expressions parts kids =>
      refine .node ?_ ?_ ?_ ?_ ?_ ?_ (fun k t hk _ => ?_) (fun k t hk _ => ?_)
        (.of_not_isBinder hform.notBinder) (Recast.kids h kids)
      · rw [hform.children, children, h.length_eq]
      · cases placed with
        | spread hlong hs =>
          rw [← hform.lead, ← hform.trail] at hs
          exact .spread (hform.isShort.trans hlong) (Recast.spread h hs)
        | short => exact absurd rfl (hform.notProperty _ _ _ _)
      · exact fun name hname => absurd hname (hform.notName name).2
      · rwa [statementDepth, hform.isFunction, hform.isStatement, Recast.statementDepths h, ← statementDepth]
      · rwa [hform.isSealed, Recast.statementDepths h]
      · rw [hform.isJump]
        exact fun hjump => Recast.names h (labels hjump)
      · rw [Form.loopStart?_of_not_isLoop hform.notLoop] at hk
        cases hk
      · rw [Form.loopExpressions_of_not_isLoop hform.notLoop] at hk
        cases hk
  read ht := by
    cases ht with
    | node read kids _ =>
      refine .node ⟨⟨read.front, read.back, ?_, ?_⟩, read.begins, read.ends, ?_,
        hform.isProgram.trans read.inner⟩ (Recast.reads h kids)
        fun hblock => absurd hblock (Bool.eq_false_iff.1 hform.notBlock)
      · exact hform.opening ▸ read.opening
      · exact hform.trail ▸ read.closing
      · exact hform.spelling ▸ read.spelled
  name ht := by
    cases form with
    | identifier name => exact absurd rfl (hform.notName name).1
    | _ => exact ht.elim

/-- A property whose value is read again. -/
theorem Recast.property {key value value' : Tree} {i j : Nat} {role : PropertyRole}
    {traits : PropertyTraits} (h : Recast value value')
    (hshort : key.IsName → key.IsShort value → key.IsShort value') :
    Recast (.node s e (.property i j role traits) [key, value])
      (.node s e (.property i j role traits) [key, value']) where
  start := rfl
  stop := rfl
  depth := by
    rw [statementDepth, statementDepth, Recast.statementDepths (.cons (.refl key) (.cons h .nil))]
  wellFormed ht := by
    have hall : List.Forall₂ Recast [key, value] [key, value'] := .cons (.refl key) (.cons h .nil)
    cases ht with
    | node children placed named shallow closed labels first expressions parts kids =>
      refine .node children ?_ named ?_ (fun hsealed => by cases hsealed) (fun hjump => by cases hjump)
        (fun k t hk => by cases hk) (fun k t hk => by cases hk) (.of_not_isBinder rfl)
        (Recast.kids hall kids)
      · cases placed with
        | spread hlong hs => exact .spread hlong (Recast.spread hall hs)
        | short hform hcomputed hname hkey hvalue hs =>
          exact .short hform hcomputed hname hkey (Recast.spread (.cons h .nil) hvalue)
            (hshort hname hs)
      · rwa [statementDepth, Recast.statementDepths hall, ← statementDepth]
  read ht := by
    cases ht with
    | node read kids _ =>
      exact .node read (Recast.reads (.cons (.refl key) (.cons h .nil)) kids)
        fun hblock => by cases hblock
  name ht := ht.elim

theorem toPattern_of_isName {element : Bool} (ht : t.IsName) : toPattern element t = .ok t := by
  cases t with
  | node s e form ts =>
    cases form with
    | identifier name => rw [toPattern]
    | _ => exact ht.elim

/-- The pattern of a property in short form is in short form. -/
theorem IsShort.toPattern {key value value' : Tree} (hs : key.IsShort value) (hname : key.IsName)
    (h : value.toPattern true = .ok value') : key.IsShort value' := by
  cases hs with
  | name =>
    rw [toPattern_of_isName hname] at h
    cases h
    exact .name
  | default hle => simp [Tree.toPattern, badTarget] at h
  | assigned hle =>
    rw [Tree.toPattern, toPattern_of_isName hname] at h
    split at h
    · cases h
      exact .default hle
    · cases h

mutual

theorem recast_toPattern {element : Bool} {t u : Tree} (h : toPattern element t = .ok u) :
    Recast t u := by
  match t with
  | .node s e form kids =>
    unfold toPattern at h
    split at h
    · next op l r target value =>
      split at h
      · cases htarget : toPattern false target with
        | error d => simp [htarget] at h
        | ok target' =>
          simp only [htarget, Except.ok.injEq] at h
          subst h
          exact .node (.cons (recast_toPattern htarget) (.cons (.refl _) .nil))
            ⟨rfl, rfl, rfl, rfl, rfl, rfl, rfl, rfl, rfl, rfl, rfl, rfl, rfl, by simp, by simp, rfl⟩
      · cases h
    · next i argument =>
      split at h
      · cases hargument : toPattern false argument with
        | error d => simp [hargument] at h
        | ok argument' =>
          simp only [hargument, Except.ok.injEq] at h
          subst h
          exact .node (.cons (recast_toPattern hargument) .nil)
            ⟨rfl, rfl, rfl, rfl, rfl, rfl, rfl, rfl, rfl, rfl, rfl, rfl, rfl, by simp, by simp, rfl⟩
      · cases h
    · cases h
      exact .refl _
    · cases h
      exact .refl _
    · cases h
      exact .refl _
    · split at h
      · cases h
      · cases h
        exact .refl _
    · split at h
      · cases h
        exact .refl _
      · cases h
    · next elements =>
      cases hkids : toElements kids with
      | error d => simp [hkids] at h
      | ok us =>
        simp only [hkids, Except.ok.injEq] at h
        subst h
        exact .node (recast_toElements hkids)
          ⟨rfl, rfl, rfl, rfl, rfl, rfl, rfl, rfl, rfl, rfl, rfl, rfl, rfl, by simp, by simp, rfl⟩
    · next properties =>
      cases hkids : toProperties kids with
      | error d => simp [hkids] at h
      | ok us =>
        simp only [hkids, Except.ok.injEq] at h
        subst h
        exact .node (recast_toProperties hkids)
          ⟨rfl, rfl, rfl, rfl, rfl, rfl, rfl, rfl, rfl, rfl, rfl, rfl, rfl, by simp, by simp, rfl⟩
    · cases h

theorem recast_toElements {ts us : List Tree} (h : toElements ts = .ok us) :
    List.Forall₂ Recast ts us := by
  match ts with
  | [] =>
    unfold toElements at h
    cases h
    exact .nil
  | t :: ts =>
    unfold toElements at h
    split at h
    · cases h
    · next t' ht =>
      split at h
      · cases h
      · next ts' hts =>
        cases h
        exact .cons (recast_toPattern ht) (recast_toElements hts)

theorem recast_toProperty {t u : Tree} (h : toProperty t = .ok u) : Recast t u := by
  match t with
  | .node s e form kids =>
    unfold toProperty at h
    split at h
    · next key value =>
      split at h
      · cases h
      · split at h
        · next value' hvalue =>
          cases h
          exact .property (recast_toPattern hvalue) fun hname hs => hs.toPattern hname hvalue
        · cases h
    · next i argument =>
      split at h
      · next argument' hargument =>
        cases h
        exact .node (.cons (recast_toPattern hargument) .nil)
          ⟨rfl, rfl, rfl, rfl, rfl, rfl, rfl, rfl, rfl, rfl, rfl, rfl, rfl, by simp, by simp, rfl⟩
      · cases h
    · cases h
      exact .refl _

theorem recast_toProperties {ts us : List Tree} (h : toProperties ts = .ok us) :
    List.Forall₂ Recast ts us := by
  match ts with
  | [] =>
    unfold toProperties at h
    cases h
    exact .nil
  | t :: ts =>
    unfold toProperties at h
    split at h
    · cases h
    · next t' ht =>
      split at h
      · cases h
      · next ts' hts =>
        cases h
        exact .cons (recast_toProperty ht) (recast_toProperties hts)

end

end LoopClosure.Syntax.Tree
