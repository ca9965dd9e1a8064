import LoopClosure.Cli.Path
import LoopClosure.Distinct

/-!
# Disks

What a run needs of a file system, and a file system in memory that has it. A place in memory is
the list of names that leads to it. What lies above the root is out of reach: nothing can be read
there, and what is written there is not kept.
-/

namespace LoopClosure.Cli

/-- The operations on files that a run needs. Each answers whether it succeeded. -/
structure Disk (m : Type → Type) where
  /-- The text of a file. -/
  read? : String → m (Option String)
  /-- Creates a directory and those around it, where they are missing. -/
  createDirs : String → m Bool
  write : String → String → m Bool

abbrev Place := List String

/-- Files and directories in memory. -/
structure Files where
  files : List (Place × String) := []
  /-- The root is not listed. -/
  dirs : List Place := []
deriving DecidableEq, Repr

/-- Where a path leads. -/
inductive Location where
  | inside (place : Place)
  | outside
deriving DecidableEq, Repr

/-- What keeps a path from leading somewhere: something on the way is missing or is no directory. -/
inductive Obstacle where
  | missing | blocked
deriving DecidableEq, Repr

namespace Files

def isDir (t : Files) (p : Place) : Bool := p = [] || t.dirs.contains p

def file? (t : Files) (p : Place) : Option String := t.files.lookup p

/-- One step from a location along a path. -/
def step (t : Files) (l : Location) (part : String) : Except Obstacle Location :=
  match l with
  | .outside => .ok .outside
  | .inside p =>
    if (t.file? p).isSome then .error .blocked
    else if !t.isDir p then .error .missing
    else if part = "" || part = "." then .ok l
    else if part = ".." then .ok (if p = [] then .outside else .inside p.dropLast)
    else .ok (.inside (p ++ [part]))

def parts (path : String) : List String := (Text.splitOn '/' path.toList).map String.ofList

/-- Where a path leads; there need not be anything. -/
def locate (t : Files) (path : String) : Except Obstacle Location :=
  if path = "" then .error .missing
  else if Path.isAbsolute path then .ok .outside
  else (parts path).foldlM t.step (.inside [])

def read? (t : Files) (path : String) : Option String :=
  match t.locate path with
  | .ok (.inside p) => t.file? p
  | _ => none

/-- Whether a path leads to a directory. -/
def leadsToDir (t : Files) (path : String) : Bool :=
  match t.locate path with
  | .ok (.inside p) => t.isDir p
  | .ok .outside => true
  | .error _ => false

/-- Creates one directory, in a directory that is there; `none` if its place is taken. -/
def createDir (t : Files) (path : String) : Except Obstacle (Option Files) := do
  let names := (parts path).filter (· ≠ "")
  match ← names.dropLast.foldlM t.step (.inside []), names.getLast? with
  | .inside p, some name =>
    match ← t.step (.inside p) name with
    | .outside => return none
    | .inside q =>
      if (t.file? q).isSome || t.isDir q then return none
      else return some { t with dirs := t.dirs ++ [q] }
  | _, _ => return none

/-- Creates a directory and those around it; `depth` bounds how many are missing. -/
def createDirsWithin : Nat → Files → String → Option Files
  | 0, _, _ => none
  | depth + 1, t, path =>
    if path = "" || Path.isAbsolute path then some t
    else
      let settled (t : Files) : Option Files := if t.leadsToDir path then some t else none
      match t.createDir path with
      | .ok (some t) => some t
      | .ok none | .error .blocked => settled t
      | .error .missing =>
        match (Path.parent? path).bind (createDirsWithin depth t) with
        | none => none
        | some t =>
          match t.createDir path with
          | .ok (some t) => some t
          | _ => settled t

def createDirs (t : Files) (path : String) : Option Files :=
  createDirsWithin (path.length + 1) t path

/-- Writes a file, in a directory that is there. -/
def write (t : Files) (path text : String) : Option Files :=
  match t.locate path with
  | .ok (.inside p) =>
    if t.isDir p || !t.isDir p.dropLast then none
    else if (t.file? p).isSome then
      some { t with files := t.files.map fun e => if e.1 = p then (p, text) else e }
    else some { t with files := t.files ++ [(p, text)] }
  | .ok .outside => some t
  | .error _ => none

/-- The directories that lead to a place, the root left out. -/
def ancestors (p : Place) : List Place := ((List.range p.length).drop 1).map p.take

/-- The files at the given paths, and the directories around them. -/
def ofList (entries : List (String × String)) : Files :=
  entries.foldl
    (fun t (path, text) =>
      let p := (parts path).filter fun part => part ≠ "" && part ≠ "."
      { files := t.files ++ [(p, text)], dirs := (ancestors p).foldl appendNew t.dirs })
    {}

/-- The files that are not in `old` with the same text, each with its path. -/
def changedSince (t old : Files) : List (String × String) :=
  (t.files.filter fun e => old.file? e.1 ≠ some e.2).map fun e => ("/".intercalate e.1, e.2)

/-- An operation that leaves the files as they are if it fails. -/
def attempt (f : Files → Option Files) : StateM Files Bool := fun t =>
  match f t with
  | some t => (true, t)
  | none => (false, t)

/-- The file system in memory as a disk. -/
def disk : Disk (StateM Files) where
  read? path := fun t => (t.read? path, t)
  createDirs path := attempt (·.createDirs path)
  write path text := attempt (·.write path text)

end Files

end LoopClosure.Cli
