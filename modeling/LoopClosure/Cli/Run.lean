import LoopClosure.Cli.Plan
import LoopClosure.Compile
import LoopClosure.Json.Print
import LoopClosure.Report

/-!
# Runs

A run reads all files, compiles each, and then writes the code and reports the failures in the order
of the files. A file that fails does not keep the others from being written; if the reading of one
aborts, so does the run, and nothing is written.
-/

namespace LoopClosure

def EditKind.name : EditKind → String
  | .insertAfter => "insertAfter"
  | .insert => "insert"
  | .insertBefore => "insertBefore"
  | .replace => "replace"

def Edit.toJson (e : Edit) : Json :=
  .object [("kind", .string e.kind.name), ("start", .nat e.start), ("end", .nat e.stop),
    ("text", .string e.text), ("active", .bool e.active)]

def WrappedLoop.toJson (w : WrappedLoop) : Json :=
  .object [("start", .nat w.start), ("end", .nat w.stop),
    ("params", .array (w.params.map .string)), ("flags", .array (w.flags.map .string))]

namespace Cli

/-- What a run did and printed. -/
structure Outcome where
  compiled : Nat := 0
  failed : Nat := 0
  stdout : String := ""
  stderr : String := ""
deriving DecidableEq, Repr

def Outcome.exitCode (o : Outcome) : Nat := if o.failed = 0 then 0 else 1

/-- A file after compilation. -/
structure CompiledFile where
  path : String
  source : List Char
  result : Except Failure Lowered

/-- Where the code of an input goes: into the directory, under the name of the input. -/
def outputPath (dir input : String) : Except CliError String :=
  match Path.fileName? input with
  | some name => .ok (Path.join dir name)
  | none => .error (.noFileName input)

/-- Edits and wrapped loops of the files that compiled. -/
def editsJson (files : List CompiledFile) : Json :=
  .array (files.filterMap fun f =>
    match f.result with
    | .error _ => none
    | .ok l => some (.object [("file", .string f.path), ("edits", .array (l.edits.map (·.toJson))),
        ("wrappedLoops", .array (l.wrappedLoops.map (·.toJson)))]))

variable {m : Type → Type} [Monad m]

def compileFile (disk : Disk m) (options : Options) (path : String) :
    ExceptT (Halt CliError) m CompiledFile := do
  match ← disk.read? path with
  | none => throw (.fault (.readFile path))
  | some text =>
    match compile path text.toList options with
    | .error .abort => throw .abort
    | .error (.fault e) => return { path, source := text.toList, result := .error e }
    | .ok l => return { path, source := text.toList, result := .ok l }

def writeCode (disk : Disk m) (dir input : String) (code : List Char) :
    ExceptT (Halt CliError) m Unit := do
  if !(← disk.createDirs dir) then throw (.fault (.createDir dir))
  match outputPath dir input with
  | .error e => throw (.fault e)
  | .ok path =>
    if !(← disk.write path (String.ofList code)) then throw (.fault (.writeFile path))

/-- Writes or prints the code of a file, or reports its failure. -/
def emit (disk : Disk m) (args : Args) (color : Bool) (outDir : Option String) (o : Outcome)
    (f : CompiledFile) : ExceptT (Halt CliError) m Outcome := do
  match f.result with
  | .error e =>
    let reporter : Reporter := { pretty := args.pretty, color, sources := [(f.path, f.source)] }
    return { o with failed := o.failed + 1, stderr := o.stderr ++ reporter.failure f.path e ++ "\n" }
  | .ok l =>
    let o := { o with compiled := o.compiled + 1 }
    match outDir with
    | some dir => do
      writeCode disk dir f.path l.code
      return o
    | none =>
      if args.edits then return o else return { o with stdout := o.stdout ++ String.ofList l.code }

/-- Runs the program. -/
def run (disk : Disk m) (args : Args) (color : Bool) : ExceptT (Halt CliError) m Outcome := do
  let p ← (plan disk args).adapt .fault
  let files ← p.files.mapM (compileFile disk p.options)
  let o ← files.foldlM (emit disk args color p.outDir) {}
  if args.edits then return { o with stdout := o.stdout ++ (editsJson files).pretty ++ "\n" }
  else return o

end Cli

end LoopClosure
