import LoopClosure.Cli.Run
import LoopClosure.Proofs.Cli.Disk
import Mathlib.Data.List.Forall2
import Mathlib.Data.List.Nodup

/-!
# The files that a run writes

A run with an output directory writes the code of each file that compiled under the last part of
its path, one after the other. So a file keeps its output unless a later one of the same name
writes other code there.

- `Ends E c s Q`: from `s` the computation gives a result in `Q`, or it is given up with a reason
  in `E`.
- `Written L dir s files t`: the state `t` is `s` with the outputs of `files` written; for each name
  the last file of that name has its code there. Each turn of a run adds one file
  (`emit_ends`).
- `outputs_kept_iff`: no output is lost exactly if the files that compile and share a name have the
  same code.
-/

namespace LoopClosure.Cli

open LoopClosure.Path (IsName join)

/-! ## Computations that can be given up -/

section Ends

variable {σ ε α β : Type} {E : ε → σ → Prop} {s : σ}

/-- What a computation ends with. -/
def Ends (E : ε → σ → Prop) (c : ExceptT ε (StateM σ) α) (s : σ) (Q : α → σ → Prop) : Prop :=
  match c.run.run s with
  | (.ok a, t) => Q a t
  | (.error e, t) => E e t

namespace Ends

variable {c : ExceptT ε (StateM σ) α} {f : α → ExceptT ε (StateM σ) β} {Q : α → σ → Prop}
  {R : β → σ → Prop}

theorem pure {a : α} (h : Q a s) : Ends E (Pure.pure a) s Q := h

theorem throw {e : ε} (h : E e s) : Ends E (throw e : ExceptT ε (StateM σ) α) s Q := h

/-- An operation that is always carried out. -/
theorem lift {x : StateM σ α} (h : Q (x s).1 (x s).2) : Ends E (liftM x) s Q := h

theorem run_bind (c : ExceptT ε (StateM σ) α) (f : α → ExceptT ε (StateM σ) β) (s : σ) :
    (c >>= f).run.run s =
      match c.run.run s with
      | (.ok a, t) => (f a).run.run t
      | (.error e, t) => (.error e, t) := by
  change (match c s with
    | (a, t) => ExceptT.bindCont f a t) = _
  change _ = match c s with
    | (.ok a, t) => (f a).run.run t
    | (.error e, t) => (.error e, t)
  rcases c s with ⟨a | a, t⟩ <;> rfl

theorem bind (hc : Ends E c s fun a t => Ends E (f a) t R) : Ends E (c >>= f) s R := by
  rw [Ends] at hc ⊢
  rw [run_bind]
  split at hc <;> exact hc

theorem mono {Q' : α → σ → Prop} (hc : Ends E c s Q) (h : ∀ a t, Q a t → Q' a t) :
    Ends E c s Q' := by
  rw [Ends] at hc ⊢
  split at hc
  · exact h _ _ hc
  · exact hc

/-- The reasons for giving up under other names. -/
theorem adapt {ε' : Type} {g : ε → ε'} {E' : ε' → σ → Prop} (hc : Ends E c s Q)
    (h : ∀ e t, E e t → E' (g e) t) : Ends E' (c.adapt g) s Q := by
  have hrun : (c.adapt g).run.run s = ((c.run.run s).1.mapError g, (c.run.run s).2) := rfl
  rw [Ends] at hc ⊢
  rw [hrun]
  generalize c.run.run s = r at hc
  rcases r with ⟨e | a, t⟩
  · exact h e t hc
  · exact hc

/-- A fold, with an invariant on what it went over. -/
theorem foldlM {f : β → α → ExceptT ε (StateM σ) β} {I : List α → β → σ → Prop}
    (step : ∀ done a b s, I done b s → Ends E (f b a) s (I (done ++ [a]))) {as : List α} {b : β}
    (h : I [] b s) : Ends E (as.foldlM f b) s (I as) := by
  suffices hdone : ∀ done b s, I done b s → Ends E (as.foldlM f b) s (I (done ++ as)) from
    hdone [] b s h
  clear h
  induction as with
  | nil =>
    intro done b s h
    rw [List.append_nil]
    exact .pure h
  | cons a as ih =>
    intro done b s h
    rw [List.foldlM_cons]
    refine bind ((step done a b s h).mono fun b' t hb' => ?_)
    have hrest := ih (done ++ [a]) b' t hb'
    rwa [List.append_assoc, List.singleton_append] at hrest

/-- A sequence of computations that leave the state as it is. -/
theorem mapM {f : α → ExceptT ε (StateM σ) β} {R : α → β → Prop} {as : List α}
    (h : ∀ a ∈ as, Ends E (f a) s fun b t => t = s ∧ R a b) :
    Ends E (as.mapM f) s fun bs t => t = s ∧ List.Forall₂ R as bs := by
  induction as with
  | nil => exact .pure ⟨rfl, .nil⟩
  | cons a as ih =>
    obtain ⟨ha, has⟩ := List.forall_mem_cons.1 h
    rw [List.mapM_cons]
    refine bind (ha.mono ?_)
    rintro b _ ⟨rfl, hb⟩
    refine bind ((ih has).mono ?_)
    rintro bs _ ⟨rfl, hbs⟩
    exact .pure ⟨rfl, .cons hb hbs⟩

end Ends

end Ends

/-! ## Files and their outputs -/

namespace CompiledFile

/-- The code of a file that compiled. -/
def code? (f : CompiledFile) : Option (List Char) := f.result.toOption.map (·.code)

variable {σ P : Type}

/-- The file at a path, as it was read in `s`, compiled. -/
structure IsRead (disk : Disk (StateM σ)) (options : Options) (s : σ) (path : String)
    (f : CompiledFile) : Prop where
  path_eq : f.path = path
  source : disk.read? path s = (some (String.ofList f.source), s)
  result : compile path f.source options = f.result.mapError .fault

theorem map_path {disk : Disk (StateM σ)} {options : Options} {s : σ} {paths : List String}
    {files : List CompiledFile} (h : List.Forall₂ (IsRead disk options s) paths files) :
    files.map (·.path) = paths := by
  induction h with
  | nil => rfl
  | cons hf _ ih => rw [List.map_cons, hf.path_eq, ih]

/-- At the output path of the file lies `code`. -/
def Holds (f : CompiledFile) (L : Layout σ P) (dir : String) (code : List Char) (t : σ) : Prop :=
  ∃ path x, outputPath dir f.path = .ok path ∧ L.place? t path = some x ∧
    L.text? t x = some (String.ofList code)

end CompiledFile

/-- Why a run is given up: the disk did not do what it was asked last, an input has no name, or the
reading of one aborts. -/
def Disk.Refused {σ : Type} (disk : Disk (StateM σ)) : Halt CliError → σ → Prop
  | .fault (.readFile path), t => disk.read? path t = (none, t)
  | .fault (.createDir dir), t => ∃ s, disk.createDirs dir s = (false, t)
  | .fault (.writeFile path), t => ∃ s text, disk.write path text s = (false, t)
  | .fault (.noFileName path), _ => Path.fileName? path = none
  | .fault _, _ => False
  | .abort, t =>
    ∃ path text, disk.read? path t = (some text, t) ∧ Grammar.parse text.toList = .error .abort

/-- Compiling aborts where reading does. -/
theorem parse_of_compile_abort {file : String} {source : List Char} {options : Options}
    (h : compile file source options = .error .abort) : Grammar.parse source = .error .abort := by
  unfold compile at h
  split at h
  · next hparse => exact hparse
  · cases h
  · next t _ =>
    -- Binding and lowering have faults only.
    obtain ⟨e, -, he⟩ := mapError_eq_error.1 h
    cases he

/-- The codes of the files of one name that compiled. -/
def codesOf (files : List CompiledFile) (name : String) : List (List Char) :=
  files.filterMap fun f => if Path.fileName? f.path = some name then f.code? else none

variable {files : List CompiledFile} {f g : CompiledFile} {name : String} {code : List Char}

theorem mem_codesOf :
    code ∈ codesOf files name ↔
      ∃ f ∈ files, Path.fileName? f.path = some name ∧ f.code? = some code := by
  simp [codesOf, Option.ite_none_right_eq_some]

theorem codesOf_concat (files : List CompiledFile) (f : CompiledFile) (name : String) :
    codesOf (files ++ [f]) name = codesOf files name ++
      (if Path.fileName? f.path = some name then f.code? else none).toList := by
  rw [codesOf, List.filterMap_append, ← codesOf]
  rfl

theorem outputPath_eq_ok {dir input path : String} :
    outputPath dir input = .ok path ↔
      ∃ name, Path.fileName? input = some name ∧ join dir name = path := by
  rw [outputPath]
  cases Path.fileName? input <;> simp

section Run

variable {σ P : Type} {disk : Disk (StateM σ)} {L : Layout σ P} {dir : String} {s t : σ}
  {args : Args} {color : Bool}

/-- The state `t` is `s` with the outputs of `files` written. -/
structure Written (L : Layout σ P) (dir : String) (s : σ) (files : List CompiledFile) (t : σ) :
    Prop where
  named : ∀ f ∈ files, ∀ code, f.code? = some code → ∃ name, Path.fileName? f.path = some name
  last : ∀ name code, (codesOf files name).getLast? = some code →
    ∃ x, L.place? t (join dir name) = some x ∧ L.text? t x = some (String.ofList code)
  only : ∀ x, L.text? t x ≠ L.text? s x → ∃ f ∈ files, ∃ code, f.code? = some code ∧
    ∃ path, outputPath dir f.path = .ok path ∧ L.place? t path = some x

namespace Written

theorem nil (s : σ) : Written L dir s [] s where
  named _ hf := absurd hf List.not_mem_nil
  last _ _ h := by cases h
  only _ h := absurd rfl h

/-- A file that did not compile adds nothing. -/
theorem failed (h : Written L dir s files t) (hf : f.code? = none) :
    Written L dir s (files ++ [f]) t where
  named g hg code hcode := by
    rcases List.mem_append.1 hg with hg | hg
    · exact h.named g hg code hcode
    · cases List.mem_singleton.1 hg
      cases hf.symm.trans hcode
  last name code hcode := by
    rw [codesOf_concat, hf, ite_self, Option.toList_none, List.append_nil] at hcode
    exact h.last name code hcode
  only x hx := by
    obtain ⟨g, hg, hrest⟩ := h.only x hx
    exact ⟨g, List.mem_append_left _ hg, hrest⟩

/-- A new directory changes nothing that was written. -/
theorem createDirs {u : σ} (h : Written L dir s files t) (htext : L.text? u = L.text? t)
    (hkeeps : L.Keeps t u) : Written L dir s files u where
  named := h.named
  last name code hcode := by
    obtain ⟨x, hx, hcode⟩ := h.last name code hcode
    exact ⟨x, hkeeps _ _ hx, by rwa [htext]⟩
  only x hx := by
    rw [htext] at hx
    obtain ⟨g, hg, code, hcode, path, hpath, hplace⟩ := h.only x hx
    exact ⟨g, hg, code, hcode, path, hpath, hkeeps _ _ hplace⟩

/-- The code of a file takes the place of what was written under its name; what was written under
other names stays. -/
theorem write (hdisk : disk.Lawful L dir) (h : Written L dir s files t) {u : σ}
    (hname : Path.fileName? f.path = some name) (hcode : f.code? = some code)
    (hwrite : disk.write (join dir name) (String.ofList code) t = (true, u)) :
    Written L dir s (files ++ [f]) u := by
  have hn : IsName name := Path.isName_of_fileName? hname
  obtain ⟨hkeeps, x, hx, htext, hothers⟩ := hdisk.write hn hwrite
  constructor
  case named =>
    intro g hg code' hcode'
    rcases List.mem_append.1 hg with hg | hg
    · exact h.named g hg code' hcode'
    · cases List.mem_singleton.1 hg
      exact ⟨name, hname⟩
  case last =>
    intro name' code' hlast
    rw [codesOf_concat, hname, hcode] at hlast
    by_cases hsame : name = name'
    · -- The file is the last of its name now.
      subst hsame
      obtain rfl : code = code' := by simpa using hlast
      exact ⟨x, hkeeps _ _ hx, htext⟩
    · -- Another name is another place, which the write left alone.
      rw [if_neg fun e => hsame (Option.some.inj e), Option.toList_none, List.append_nil] at hlast
      obtain ⟨y, hy, hytext⟩ := h.last name' code' hlast
      have hn' : IsName name' := by
        obtain ⟨g, -, hg, -⟩ := mem_codesOf.1 (List.mem_of_getLast? hlast)
        exact Path.isName_of_fileName? hg
      have hne : y ≠ x := fun e => hsame (hdisk.apart hn hn' hx (e ▸ hy))
      exact ⟨y, hkeeps _ _ hy, by rwa [hothers y hne]⟩
  case only =>
    intro y hy
    by_cases hyx : y = x
    · subst hyx
      exact ⟨f, List.mem_append_right _ (List.mem_singleton_self f), code, hcode, join dir name,
        outputPath_eq_ok.2 ⟨name, hname, rfl⟩, hkeeps _ _ hx⟩
    · rw [hothers y hyx] at hy
      obtain ⟨g, hg, code', hcode', path, hpath, hplace⟩ := h.only y hy
      exact ⟨g, List.mem_append_left _ hg, code', hcode', path, hpath, hkeeps _ _ hplace⟩

/-- No output is lost exactly if the files of one name have one code. -/
theorem kept_iff (h : Written L dir s files t) :
    (∀ f ∈ files, ∀ code, f.code? = some code → f.Holds L dir code t) ↔
      ∀ f ∈ files, ∀ g ∈ files, Path.fileName? f.path = Path.fileName? g.path →
        ∀ code code', f.code? = some code → g.code? = some code' → code = code' := by
  constructor
  · intro hkept f hf g hg hname code code' hcode hcode'
    obtain ⟨path, x, hpath, hx, htext⟩ := hkept f hf code hcode
    obtain ⟨path', x', hpath', hx', htext'⟩ := hkept g hg code' hcode'
    rw [outputPath_eq_ok, hname, ← outputPath_eq_ok, hpath'] at hpath
    cases hpath
    cases hx.symm.trans hx'
    exact String.ofList_injective (Option.some.inj (htext.symm.trans htext'))
  · intro hcodes f hf code hcode
    obtain ⟨name, hname⟩ := h.named f hf code hcode
    have hmem : code ∈ codesOf files name := mem_codesOf.2 ⟨f, hf, hname, hcode⟩
    have hne : codesOf files name ≠ [] := List.ne_nil_of_mem hmem
    obtain ⟨g, hg, hgname, hgcode⟩ := mem_codesOf.1 (List.getLast_mem hne)
    have hlast : (codesOf files name).getLast? = some code := by
      rw [List.getLast?_eq_some_getLast hne,
        hcodes f hf g hg (hname.trans hgname.symm) code _ hcode hgcode]
    obtain ⟨x, hx, htext⟩ := h.last name code hlast
    exact ⟨join dir name, x, outputPath_eq_ok.2 ⟨name, hname, rfl⟩, hx, htext⟩

end Written

/-! ## Runs -/

theorem compileFile_ends (hdisk : disk.Lawful L dir) (options : Options) (path : String) :
    Ends disk.Refused (compileFile disk options path) s fun f t =>
      t = s ∧ f.IsRead disk options s path := by
  have hstate : (disk.read? path s).2 = s := by rw [hdisk.read]
  refine .bind (.lift ?_)
  rw [hstate]
  split
  · next hread => exact .throw (Prod.ext hread hstate)
  · next text hread =>
    have hread : disk.read? path s = (some text, s) := Prod.ext hread hstate
    split
    · next hcompile => exact .throw ⟨path, text, hread, parse_of_compile_abort hcompile⟩
    · next e hcompile => exact .pure ⟨rfl, rfl, by rwa [String.ofList_toList], hcompile⟩
    · next l hcompile => exact .pure ⟨rfl, rfl, by rwa [String.ofList_toList], hcompile⟩

theorem writeCode_ends (hdisk : disk.Lawful L dir) (h : Written L dir s files t)
    (hcode : f.code? = some code) :
    Ends disk.Refused (writeCode disk dir f.path code) t fun _ u =>
      Written L dir s (files ++ [f]) u := by
  refine .bind (.lift ?_)
  generalize hdirs : disk.createDirs dir t = made
  obtain ⟨made, u⟩ := made
  cases made with
  | false => exact .throw ⟨t, hdirs⟩
  | true =>
    obtain ⟨htext, hkeeps⟩ := hdisk.createDirs hdirs
    have h := h.createDirs htext hkeeps
    refine .bind (.pure ?_)
    cases hpath : outputPath dir f.path with
    | error e =>
      refine .throw ?_
      rw [outputPath] at hpath
      split at hpath
      · cases hpath
      · next hname =>
        cases hpath
        exact hname
    | ok path =>
      obtain ⟨name, hname, rfl⟩ := outputPath_eq_ok.1 hpath
      refine .bind (.lift ?_)
      generalize hwrite : disk.write (join dir name) (String.ofList code) u = wrote
      obtain ⟨wrote, v⟩ := wrote
      cases wrote with
      | false => exact .throw ⟨u, _, hwrite⟩
      | true => exact .pure (h.write hdisk hname hcode hwrite)

theorem emit_ends (hdisk : disk.Lawful L dir) (h : Written L dir s files t) (o : Outcome)
    (f : CompiledFile) :
    Ends disk.Refused (emit disk args color (some dir) o f) t fun _ u =>
      Written L dir s (files ++ [f]) u := by
  rw [emit]
  split
  · next e he => exact .pure (h.failed (by simp [CompiledFile.code?, he, Except.toOption]))
  · next l hl =>
    have hcode : f.code? = some l.code := by simp [CompiledFile.code?, hl, Except.toOption]
    exact .bind ((writeCode_ends hdisk h hcode).mono fun _ _ hu => .pure hu)

theorem emits_ends (hdisk : disk.Lawful L dir) (files : List CompiledFile) :
    Ends disk.Refused (files.foldlM (emit disk args color (some dir)) {}) s fun _ u =>
      Written L dir s files u :=
  Ends.foldlM (I := fun done _ u => Written L dir s done u)
    (fun _ f o _ h => emit_ends hdisk h o f) (.nil s)

/-- Planning only reads. -/
theorem plan_ends (hdisk : disk.Lawful L dir) :
    Ends (fun _ t => t = s) (plan disk args) s fun _ t => t = s := by
  have hofArgs (config : Option PlacedConfig) :
      Ends (fun _ t => t = s) (plan.liftExcept (Plan.ofArgs args config)) s fun _ t => t = s := by
    cases Plan.ofArgs args config <;> exact rfl
  rw [plan]
  split
  · exact hofArgs none
  · next path _ =>
    refine .bind (.mono ?_ fun config u (hu : u = s) => hu ▸ hofArgs (some config))
    refine .bind (.lift ?_)
    rw [show (disk.read? path s).2 = s by rw [hdisk.read]]
    split
    · exact .throw rfl
    · split
      · exact .throw rfl
      · exact .pure rfl

/-- In a run with an output directory, unless it is given up, no output is lost exactly if the files
that compile and share a name have the same code; and each text that has changed is at the output
path of a file that compiled. -/
theorem outputs_kept_iff (hdisk : disk.Lawful L dir) {p : Plan}
    (hplan : (plan disk args).run.run s = (.ok p, t)) (hdir : p.outDir = some dir) :
    Ends disk.Refused (run disk args color) s fun _ u =>
      ∃ files, List.Forall₂ (CompiledFile.IsRead disk p.options s) p.files files ∧
        ((∀ f ∈ files, ∀ code, f.code? = some code → f.Holds L dir code u) ↔
          ∀ f ∈ files, ∀ g ∈ files, Path.fileName? f.path = Path.fileName? g.path →
            ∀ code code', f.code? = some code → g.code? = some code' → code = code') ∧
        ∀ x, L.text? u x ≠ L.text? s x → ∃ f ∈ files, ∃ code, f.code? = some code ∧
          ∃ path, outputPath dir f.path = .ok path ∧ L.place? u path = some x := by
  obtain rfl : t = s := by
    have hstate : Ends (fun _ t => t = s) (plan disk args) s fun _ t => t = s := plan_ends hdisk
    rw [Ends, hplan] at hstate
    exact hstate
  have hp : Ends (fun _ _ => False) (plan disk args) t fun q u => q = p ∧ u = t := by
    rw [Ends, hplan]
    exact ⟨rfl, rfl⟩
  refine .bind ((hp.adapt fun _ _ => False.elim).mono ?_)
  rintro _ _ ⟨rfl, rfl⟩
  refine .bind ((Ends.mapM fun path _ => compileFile_ends hdisk _ path).mono ?_)
  rintro files u ⟨rfl, hfiles⟩
  rw [hdir]
  refine .bind ((emits_ends hdisk files).mono fun o v hv => ?_)
  split
  · exact .pure ⟨files, hfiles, hv.kept_iff, hv.only⟩
  · exact .pure ⟨files, hfiles, hv.kept_iff, hv.only⟩

end Run

/-- Three inputs with three names, one of which does not compile. -/
theorem outputs_kept_iff_threeNames :
    let args : Args := { files := ["a/x.js", "b/y.js", "c/z.js"], outDir := some "o" }
    let s := Files.ofList [("a/x.js", "1;"), ("b/y.js", "(;"), ("c/z.js", "2;")]
    let p : Plan := { files := args.files, options := {}, outDir := some "o" }
    Files.disk.Lawful Files.layout "o" ∧ (plan Files.disk args).run.run s = (.ok p, s) ∧
      p.outDir = some "o" ∧ ∃ o u, (run Files.disk args false).run.run s = (.ok o, u) ∧
        o.compiled = 2 ∧ o.failed = 1 ∧
        ∃ files, List.Forall₂ (CompiledFile.IsRead Files.disk p.options s) p.files files ∧
          ∀ f ∈ files, ∀ code, f.code? = some code → f.Holds Files.layout "o" code u := by
  intro args s p
  have hdisk : Files.disk.Lawful Files.layout "o" :=
    Files.disk_lawful (by decide +kernel) (by decide +kernel)
  have hplan : (plan Files.disk args).run.run s = (.ok p, s) := rfl
  have hrun : ((run Files.disk args false).run.run s).1 =
      .ok { compiled := 2, failed := 1,
            stderr := "b/y.js:1:2 - error LS1001: Unexpected token ';'\n" } := by decide +kernel
  refine ⟨hdisk, hplan, rfl, _, _, Prod.ext hrun rfl, rfl, rfl, ?_⟩
  have h := @outputs_kept_iff _ _ _ _ _ _ _ _ false hdisk _ hplan rfl
  rw [Ends, show (run Files.disk args false).run.run s = (_, _) from Prod.ext hrun rfl] at h
  obtain ⟨files, hfiles, hkept, -⟩ := h
  refine ⟨files, hfiles, hkept.2 fun f hf g hg hname code code' hcode hcode' => ?_⟩
  have hnames : (files.map fun f => Path.fileName? f.path).Nodup := by
    have hnodup : (p.files.map Path.fileName?).Nodup := by decide +kernel
    rwa [← CompiledFile.map_path hfiles, List.map_map] at hnodup
  obtain rfl : f = g := List.inj_on_of_nodup_map hnames hf hg hname
  exact Option.some.inj (hcode.symm.trans hcode')

/-- Of two inputs with one name, the output of the first is lost. -/
theorem output_lost_sameName :
    let args : Args := { files := ["a/x.js", "b/x.js"], outDir := some "o" }
    let s := Files.ofList [("a/x.js", "1;"), ("b/x.js", "2;")]
    ∃ (f : CompiledFile) (u : Files), (run Files.disk args false).run.run s = (.ok { compiled := 2 }, u) ∧
      f.IsRead Files.disk {} s "a/x.js" ∧ f.code? = some "1;".toList ∧
      ¬ f.Holds Files.layout "o" "1;".toList u := by
  intro args s
  have hcompile : (compile "a/x.js" "1;".toList {}).toOption.map (·.code) = some "1;".toList := by
    decide +kernel
  obtain ⟨out, hout, hcode⟩ := Option.map_eq_some_iff.1 hcompile
  have hrun : ((run Files.disk args false).run.run s).1 = .ok { compiled := 2 } := by
    decide +kernel
  have hread : (((run Files.disk args false).run.run s).2).read? "o/x.js" = some "2;" := by
    decide +kernel
  obtain ⟨u, hu⟩ : ∃ u, ((run Files.disk args false).run.run s).2 = u := ⟨_, rfl⟩
  rw [hu] at hread
  refine ⟨⟨"a/x.js", "1;".toList, .ok out⟩, u, Prod.ext hrun hu,
    ⟨rfl, rfl, toOption_eq_some.1 hout⟩, congrArg some hcode, ?_⟩
  rintro ⟨path, x, hpath, hx, htext⟩
  have houtput : outputPath "o" "a/x.js" = .ok "o/x.js" := by decide +kernel
  cases houtput.symm.trans hpath
  rw [Files.read?_eq, hx, Option.bind_some, htext] at hread
  exact absurd hread (by decide)

end LoopClosure.Cli
