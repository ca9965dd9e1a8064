import LoopClosure.Cli.Args
import LoopClosure.Cli.Disk
import LoopClosure.Json.Config

/-!
# Plans

The files, options and output directory of a run, from the arguments and the configuration that
they name. Paths in a configuration are relative to it.
-/

namespace LoopClosure.Cli

/-- Why a run is given up. -/
inductive CliError where
  | readConfig (path : String)
  | parseConfig (path : String)
  | noFiles
  | manyFiles (count : Nat)
  | readFile (path : String)
  | createDir (path : String)
  | noFileName (path : String)
  | writeFile (path : String)
deriving DecidableEq, Repr

def CliError.message : CliError → String
  | .readConfig path => "failed to read config: " ++ path
  | .parseConfig path => "failed to parse config: " ++ path
  | .noFiles => "no input files"
  | .manyFiles count =>
    toString count ++ " input files given; use --out-dir to write more than one"
  | .readFile path => "failed to read " ++ path
  | .createDir path => "failed to create output directory " ++ path
  | .noFileName path => "input path has no file name: " ++ path
  | .writeFile path => "failed to write " ++ path

/-- A configuration and the directory that it lies in. -/
structure PlacedConfig where
  config : Config
  dir : String
deriving DecidableEq, Repr

namespace PlacedConfig

def files (c : PlacedConfig) : List String := (c.config.files.getD []).map (Path.join c.dir)

def outDir (c : PlacedConfig) : Option String := c.config.outDir.map (Path.join c.dir)

end PlacedConfig

/-- Options from a configuration and arguments. Arguments win over single values; environments and
globals are put together. -/
def mergeOptions (config : Option Config) (args : Args) : Options :=
  let c := config.getD {}
  { disallowVars := c.disallowVars.getD false || args.disallowVars
    disallowUnknownReferences :=
      c.disallowUnknownReferences.getD false || args.disallowUnknownReferences
    environments := args.environments.foldl appendNew (c.environments.getD [])
    globals := args.globals.foldl (fun gs g => insertEntry gs g.1 g.2) (c.globals.getD [])
    loopClosures := args.loopClosures.getD (c.loopClosures.getD .iife) }

structure Plan where
  files : List String
  options : Options
  outDir : Option String
deriving DecidableEq, Repr

/-- The plan for arguments, given their configuration. -/
def Plan.ofArgs (args : Args) (config : Option PlacedConfig) : Except CliError Plan :=
  let files := if args.files = [] then (config.map (·.files)).getD [] else args.files
  let outDir := args.outDir.or (config.bind (·.outDir))
  if files = [] then .error .noFiles
  else if outDir.isNone && !args.edits && 1 < files.length then .error (.manyFiles files.length)
  else .ok { files, options := mergeOptions (config.map (·.config)) args, outDir }

variable {m : Type → Type} [Monad m]

def loadConfig (disk : Disk m) (path : String) : ExceptT CliError m PlacedConfig := do
  match ← disk.read? path with
  | none => throw (.readConfig path)
  | some text =>
    match Config.read? text.toList with
    | none => throw (.parseConfig path)
    | some config => return { config, dir := (Path.parent? path).getD "" }

/-- The plan for arguments. -/
def plan (disk : Disk m) (args : Args) : ExceptT CliError m Plan := do
  match args.config with
  | none => liftExcept (Plan.ofArgs args none)
  | some path =>
    let config ← loadConfig disk path
    liftExcept (Plan.ofArgs args (some config))
where
  liftExcept {α : Type} (r : Except CliError α) : ExceptT CliError m α := ExceptT.mk (pure r)

end LoopClosure.Cli
