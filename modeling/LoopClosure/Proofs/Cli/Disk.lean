import LoopClosure.Cli.Disk
import LoopClosure.Proofs.Success
import LoopClosure.Proofs.Text.Split

/-!
# Laws of disks

What a program that writes files into one directory relies on.

- `Layout`: where paths lead, and the texts that lie there.
- `Disk.Lawful L dir`: reading changes nothing; a file that is written in `dir` has its place, has
  then the text, and no other text changes; no path comes to lead elsewhere; two names in `dir` are
  two places.
- `Files.disk_lawful`: the file system in memory keeps the laws for each directory that a relative
  path without `..` leads to.
-/

namespace LoopClosure

namespace Path

/-- What the last part of a path is, if it is a name. -/
structure IsName (name : String) : Prop where
  noSlash : '/' ∉ name.toList
  ne_empty : name ≠ ""
  ne_dot : name ≠ "."
  ne_dots : name ≠ ".."

theorem isName_of_fileName? {path name : String} (h : fileName? path = some name) :
    IsName name := by
  rw [fileName?] at h
  split at h
  · cases h
  · next part parts hparts =>
    obtain ⟨hdots, h⟩ := Option.ite_none_left_eq_some.1 h
    obtain rfl : String.ofList part = name := Option.some.inj h
    have hmem : part ∈ partsFromEnd path.toList := hparts ▸ List.mem_cons_self
    have hslash : '/' ∉ part :=
      Text.not_mem_of_mem_splitOn
        (List.mem_reverse.1 ((List.dropWhile_suffix isVoid).subset hmem))
    have hvoid : isVoid part = false := by
      have hhead := List.head?_dropWhile_not isVoid (Text.splitOn '/'
        (path.toList.drop (front path.toList).length)).reverse
      rw [← partsFromEnd, hparts] at hhead
      simpa using hhead
    obtain ⟨hempty, hdot⟩ : part ≠ [] ∧ part ≠ ['.'] := by simpa [isVoid] using hvoid
    have hne {text : List Char} (hp : part ≠ text) : String.ofList part ≠ String.ofList text :=
      fun e => hp (String.ofList_injective e)
    exact ⟨by rwa [String.toList_ofList], hne hempty, hne hdot, hne hdots⟩

end Path

namespace Cli

open LoopClosure.Path (IsName join isAbsolute)

/-- Where paths lead in a state, and the texts of the files there. -/
structure Layout (σ P : Type) where
  place? : σ → String → Option P
  text? : σ → P → Option String

/-- No path comes to lead elsewhere. -/
def Layout.Keeps {σ P : Type} (L : Layout σ P) (s t : σ) : Prop :=
  ∀ path x, L.place? s path = some x → L.place? t path = some x

/-- What a program relies on that writes files into the directory `dir`. -/
structure Disk.Lawful {σ P : Type} (disk : Disk (StateM σ)) (L : Layout σ P) (dir : String) :
    Prop where
  read : ∀ path s, disk.read? path s = ((L.place? s path).bind (L.text? s), s)
  createDirs : ∀ {path s t done}, disk.createDirs path s = (done, t) →
    L.text? t = L.text? s ∧ L.Keeps s t
  write : ∀ {name text s t}, IsName name → disk.write (join dir name) text s = (true, t) →
    L.Keeps s t ∧ ∃ x, L.place? s (join dir name) = some x ∧ L.text? t x = some text ∧
      ∀ y, y ≠ x → L.text? t y = L.text? s y
  apart : ∀ {a b s x}, IsName a → IsName b → L.place? s (join dir a) = some x →
    L.place? s (join dir b) = some x → a = b

namespace Layout

variable {σ P : Type} {L : Layout σ P} {s t u : σ}

theorem Keeps.refl (s : σ) : L.Keeps s s := fun _ _ h => h

end Layout

namespace Files

variable {t t' : Files} {path name text : String}

def layout : Layout Files Place where
  place? t path :=
    match t.locate path with
    | .ok (.inside p) => some p
    | _ => none
  text? := file?

theorem place?_eq_some {p : Place} :
    layout.place? t path = some p ↔ t.locate path = .ok (.inside p) := by
  simp only [layout]
  split <;> simp_all

theorem read?_eq (t : Files) (path : String) :
    t.read? path = (layout.place? t path).bind (layout.text? t) := by
  simp only [read?, layout]
  cases t.locate path with
  | error e => rfl
  | ok l => cases l <;> rfl

/-! ## Ways stay open -/

/-- A step that could be taken still can, if directories stay and no file lies on one. -/
theorem step_keeps (hdirs : ∀ p, t.isDir p → t'.isDir p)
    (hfiles : ∀ p, t.isDir p → t.file? p = none → t'.file? p = none) {l l' : Location}
    {part : String} (h : t.step l part = .ok l') : t'.step l part = .ok l' := by
  cases l with
  | outside => exact h
  | inside p =>
    simp only [step, Option.isSome_iff_ne_none, Bool.not_eq_eq_eq_not] at h ⊢
    split at h
    · cases h
    · next hfile =>
      split at h
      · cases h
      · next hdir =>
        have hdir : t.isDir p := by simpa using hdir
        rw [if_neg (by simpa using hfiles p hdir (by simpa using hfile)),
          if_neg (by simpa using hdirs p hdir)]
        exact h

theorem foldlM_step_keeps (hdirs : ∀ p, t.isDir p → t'.isDir p)
    (hfiles : ∀ p, t.isDir p → t.file? p = none → t'.file? p = none) {names : List String}
    {l l' : Location} (h : names.foldlM t.step l = .ok l') : names.foldlM t'.step l = .ok l' := by
  induction names generalizing l with
  | nil => exact h
  | cons part names ih =>
    obtain ⟨k, hk, h⟩ := foldlM_cons_eq_ok.1 h
    exact foldlM_cons_eq_ok.2 ⟨k, step_keeps hdirs hfiles hk, ih h⟩

theorem layout_keeps (hdirs : ∀ p, t.isDir p → t'.isDir p)
    (hfiles : ∀ p, t.isDir p → t.file? p = none → t'.file? p = none) : layout.Keeps t t' := by
  intro path x h
  rw [place?_eq_some, locate] at h ⊢
  split at h
  · cases h
  · next hpath =>
    rw [if_neg hpath]
    split at h
    · cases h
    · next habs =>
      rw [if_neg habs]
      exact foldlM_step_keeps hdirs hfiles h

/-! ## Directories that are created -/

/-- The same files, and more directories. -/
def Grows (t t' : Files) : Prop := t'.files = t.files ∧ t.dirs ⊆ t'.dirs

theorem Grows.refl (t : Files) : t.Grows t := ⟨rfl, fun _ h => h⟩

theorem Grows.trans {u : Files} (h₁ : t.Grows t') (h₂ : t'.Grows u) : t.Grows u :=
  ⟨h₂.1.trans h₁.1, fun _ h => h₂.2 (h₁.2 h)⟩

theorem Grows.text?_eq (h : t.Grows t') : layout.text? t' = layout.text? t := by
  funext p
  simp only [layout, file?, h.1]

theorem Grows.keeps (h : t.Grows t') : layout.Keeps t t' := by
  refine layout_keeps (fun p hp => ?_) fun p _ hp => ?_
  · simp only [isDir, Bool.or_eq_true, List.contains_iff_mem] at hp ⊢
    exact hp.imp_right (@h.2 p)
  · rwa [file?, h.1]

theorem createDir_grows (h : t.createDir path = .ok (some t')) : t.Grows t' := by
  simp only [createDir] at h
  obtain ⟨l, -, h⟩ := bind_eq_ok.1 h
  split at h
  · obtain ⟨l', -, h⟩ := bind_eq_ok.1 h
    split at h
    · cases h
    · split at h
      · cases h
      · cases h
        exact ⟨rfl, List.subset_append_left _ _⟩
  · cases h

theorem createDirsWithin_grows {depth : Nat} (h : createDirsWithin depth t path = some t') :
    t.Grows t' := by
  induction depth generalizing t path t' with
  | zero => cases h
  | succ depth ih =>
    have settled {u v : Files} (hu : (if u.leadsToDir path then some u else none) = some v) :
        u.Grows v := by
      obtain ⟨-, hv⟩ := Option.ite_none_right_eq_some.1 hu
      exact Option.some.inj hv ▸ .refl u
    rw [createDirsWithin] at h
    split at h
    · cases h
      exact .refl _
    · split at h
      · next hdir =>
        cases h
        exact createDir_grows hdir
      · exact settled h
      · exact settled h
      · split at h
        · cases h
        · next u hparent =>
          obtain ⟨parent, -, hu⟩ := Option.bind_eq_some_iff.1 hparent
          have hu : t.Grows u := ih hu
          split at h
          · next hdir =>
            cases h
            exact hu.trans (createDir_grows hdir)
          · exact hu.trans (settled h)

/-! ## Files that are written -/

theorem lookup_map_update {es : List (Place × String)} {p : Place} (q : Place) :
    (es.map fun e => if e.1 = p then (p, text) else e).lookup q =
      if q = p then (es.lookup q).map fun _ => text else es.lookup q := by
  induction es with
  | nil => simp
  | cons e es ih =>
    obtain ⟨r, old⟩ := e
    by_cases hr : r = p
    · subst hr
      by_cases hq : q = r
      · subst hq
        simp
      · simp [hq, List.lookup_cons, ih, beq_false_of_ne hq]
    · by_cases hq : q = r
      · subst hq
        simp [hr]
      · simp [hr, List.lookup_cons, beq_false_of_ne hq, ih]

theorem write_inside {p : Place} (hp : layout.place? t path = some p)
    (h : t.write path text = some t') :
    t.isDir p = false ∧ t'.dirs = t.dirs ∧
      ∀ q, t'.file? q = if q = p then some text else t.file? q := by
  simp only [write, place?_eq_some.1 hp] at h
  split at h
  · cases h
  · next hdir =>
    have hdir : t.isDir p = false := by simp_all
    split at h
    · next hfile =>
      obtain ⟨old, hold⟩ := Option.isSome_iff_exists.1 hfile
      cases h
      refine ⟨hdir, rfl, fun q => ?_⟩
      rw [file?, lookup_map_update]
      split
      · next hq =>
        subst hq
        rw [← file?, hold, Option.map_some]
      · rfl
    · next hfile =>
      have hfile : t.files.lookup p = none := Option.not_isSome_iff_eq_none.1 hfile
      cases h
      refine ⟨hdir, rfl, fun q => ?_⟩
      rw [file?, List.lookup_append]
      split
      · next hq =>
        subst hq
        simp [hfile]
      · next hq => simp [file?, List.lookup_cons, beq_false_of_ne hq]

/-- A way never passes a place where a file can be written. -/
theorem write_keeps {p : Place} (hp : layout.place? t path = some p)
    (h : t.write path text = some t') : layout.Keeps t t' := by
  obtain ⟨hdir, hdirs, hfile⟩ := write_inside hp h
  refine layout_keeps (fun q hq => by rwa [isDir, hdirs]) fun q hq hnone => ?_
  have hne : q ≠ p := by
    rintro rfl
    rw [hq] at hdir
    cases hdir
  rw [hfile, if_neg hne, hnone]

/-! ## Names in a directory -/

theorem foldlM_step_stays {names : List String} (hup : ".." ∉ names) {p : Place} {l : Location}
    (h : names.foldlM t.step (.inside p) = .ok l) : ∃ q, l = .inside q := by
  induction names generalizing p with
  | nil => exact ⟨p, (Except.ok.inj h).symm⟩
  | cons part names ih =>
    obtain ⟨hpart, hup⟩ : ".." ≠ part ∧ ".." ∉ names := by simpa using hup
    obtain ⟨k, hk, h⟩ := foldlM_cons_eq_ok.1 h
    have hinside : ∃ q, k = .inside q := by
      simp only [step, if_neg (Ne.symm hpart)] at hk
      split at hk
      · cases hk
      · split at hk
        · cases hk
        · split at hk <;> exact ⟨_, (Except.ok.inj hk).symm⟩
    obtain ⟨q, rfl⟩ := hinside
    exact ih hup h

theorem isAbsolute_append {dir : String} (hdir : dir ≠ "") (rest : String) :
    isAbsolute (dir ++ rest) = isAbsolute dir := by
  obtain ⟨c, cs, hcs⟩ :=
    List.exists_cons_of_ne_nil fun e => hdir (String.toList_eq_nil_iff.1 e)
  rw [isAbsolute, isAbsolute, String.toList_append, hcs, List.cons_append, List.head?_cons,
    List.head?_cons]

theorem isAbsolute_name (h : IsName name) : isAbsolute name = false := by
  refine decide_eq_false fun e => h.noSlash (List.mem_of_mem_head? e)

/-- The way to a name in a directory is the way to the directory, and the name. -/
theorem exists_parts_join {dir : String} (hdir : isAbsolute dir = false) :
    ∃ names, (∀ part ∈ names, part ∈ parts dir) ∧ ∀ name, IsName name →
      isAbsolute (join dir name) = false ∧ join dir name ≠ "" ∧
        parts (join dir name) = names ++ [name] := by
  have hname {name : String} (h : IsName name) :
      (Text.splitOn '/' name.toList).map String.ofList = [name] := by
    rw [Text.splitOn_eq_singleton h.noSlash, List.map_singleton, String.ofList_toList]
  by_cases hempty : dir = ""
  · refine ⟨[], by simp, fun name h => ?_⟩
    have hjoin : join dir name = name := by simp [join, hempty]
    rw [hjoin]
    exact ⟨isAbsolute_name h, h.ne_empty, hname h⟩
  · by_cases hlast : dir.toList.getLast? = some '/'
    · obtain ⟨d, hd⟩ := List.getLast?_eq_some_iff.1 hlast
      refine ⟨(Text.splitOn '/' d).map String.ofList, fun part hpart => ?_, fun name h => ?_⟩
      · rw [parts, hd, Text.splitOn_append_sep, List.map_append]
        exact List.mem_append_left _ hpart
      · have hjoin : join dir name = dir ++ name := by
          simp [join, isAbsolute_name h, hempty, hlast]
        rw [hjoin]
        refine ⟨by rwa [isAbsolute_append hempty], by simp [hempty], ?_⟩
        rw [parts, String.toList_append, hd, List.append_assoc, List.singleton_append,
          Text.splitOn_append_sep, List.map_append, hname h]
    · refine ⟨parts dir, fun _ => id, fun name h => ?_⟩
      have hjoin : join dir name = dir ++ ("/" ++ name) := by
        simp [join, isAbsolute_name h, hempty, hlast, String.append_assoc]
      rw [hjoin]
      refine ⟨by rwa [isAbsolute_append hempty], by simp [hempty], ?_⟩
      have hslash : ("/" : String).toList = ['/'] := rfl
      rw [parts, String.toList_append, String.toList_append, hslash, List.singleton_append,
        Text.splitOn_append_sep, List.map_append, hname h, parts]

/-- Where a name in a directory lies: in the place that the directory leads to. -/
theorem exists_locate_join {dir : String} (hdir : isAbsolute dir = false)
    (hup : ".." ∉ parts dir) (t : Files) :
    ∃ d : Place, ∀ {name l}, IsName name → t.locate (join dir name) = .ok l →
      l = .inside (d ++ [name]) := by
  obtain ⟨names, hsub, hjoin⟩ := exists_parts_join hdir
  have hstep {name : String} {l : Location} (h : IsName name)
      (hl : t.locate (join dir name) = .ok l) :
      ∃ d, names.foldlM t.step (.inside []) = .ok (.inside d) ∧ l = .inside (d ++ [name]) := by
    obtain ⟨habs, hne, hparts⟩ := hjoin name h
    rw [locate, if_neg hne, habs, if_neg Bool.false_ne_true, hparts, List.foldlM_append] at hl
    obtain ⟨k, hk, hl⟩ := bind_eq_ok.1 hl
    obtain ⟨d, rfl⟩ := foldlM_step_stays (fun hmem => hup (hsub _ hmem)) hk
    obtain ⟨k', hk', hl⟩ := foldlM_cons_eq_ok.1 hl
    obtain rfl : k' = l := Except.ok.inj hl
    simp only [step, h.ne_empty, h.ne_dot, h.ne_dots] at hk'
    split at hk'
    · cases hk'
    · split at hk'
      · cases hk'
      · exact ⟨d, hk, (Except.ok.inj hk').symm⟩
  cases hd : names.foldlM t.step (.inside []) with
  | error e =>
    refine ⟨[], fun h hl => ?_⟩
    obtain ⟨d, hd', -⟩ := hstep h hl
    cases hd.symm.trans hd'
  | ok k =>
    obtain ⟨d, rfl⟩ : ∃ d, k = .inside d := foldlM_step_stays (fun hmem => hup (hsub _ hmem)) hd
    refine ⟨d, fun h hl => ?_⟩
    obtain ⟨d', hd', hl'⟩ := hstep h hl
    cases hd.symm.trans hd'
    exact hl'

/-- The file system in memory keeps the laws, for a directory that no way upwards leads to. -/
theorem disk_lawful {dir : String} (hdir : isAbsolute dir = false) (hup : ".." ∉ parts dir) :
    disk.Lawful layout dir where
  read path t := by
    rw [← read?_eq]
    rfl
  createDirs {path t t' done} h := by
    simp only [disk, attempt] at h
    split at h
    · next hu =>
      cases h
      have hgrows : t.Grows t' := createDirsWithin_grows hu
      exact ⟨hgrows.text?_eq, hgrows.keeps⟩
    · cases h
      exact ⟨rfl, .refl t⟩
  write {name text t t'} hname h := by
    simp only [disk, attempt] at h
    split at h
    · next hu =>
      cases h
      obtain ⟨d, hd⟩ := exists_locate_join hdir hup t
      have hplace : layout.place? t (join dir name) = some (d ++ [name]) := by
        rw [place?_eq_some]
        cases hl : t.locate (join dir name) with
        | error e =>
          rw [write, hl] at hu
          cases hu
        | ok l => rw [hd hname hl]
      obtain ⟨-, -, hfile⟩ := write_inside hplace hu
      refine ⟨write_keeps hplace hu, d ++ [name], hplace, ?_, fun y hy => ?_⟩
      · exact (hfile _).trans (if_pos rfl)
      · exact (hfile y).trans (if_neg hy)
    · cases h
  apart {a b t x} ha hb hxa hxb := by
    obtain ⟨d, hd⟩ := exists_locate_join hdir hup t
    have hxa := hd ha (place?_eq_some.1 hxa)
    have hxb := hd hb (place?_eq_some.1 hxb)
    simpa using hxa.symm.trans hxb

end Files

end Cli

end LoopClosure
