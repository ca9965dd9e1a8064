import LoopClosure.Options
import LoopClosure.Text.Split

/-!
# Command line arguments

An option may take a value, in the next argument or attached to it. A value in an argument of its
own is looked at when the next option or file comes, so an unknown option right behind it is
reported first.
-/

namespace LoopClosure.Cli

structure Args where
  config : Option String := none
  disallowVars : Bool := false
  disallowUnknownReferences : Bool := false
  environments : List String := []
  globals : List (String × Bool) := []
  loopClosures : Option ClosureMode := none
  outDir : Option String := none
  edits : Bool := false
  pretty : Bool := false
  files : List String := []
deriving DecidableEq, Repr

/-- Why arguments are not taken; a request for help or for the version counts as one. -/
inductive UsageError where
  | unknownArgument
  | invalidValue
  | valueValidation
  | argumentConflict
  | tooManyValues
  | displayHelp
  | displayVersion
deriving DecidableEq, Repr

inductive Flag where
  | config | disallowVars | disallowUnknownReferences | env | global | loopClosures | outDir
  | edits | pretty | help | version
deriving DecidableEq, Repr

namespace Flag

def takesValue : Flag → Bool
  | .config | .env | .global | .loopClosures | .outDir => true
  | _ => false

def isRepeatable : Flag → Bool
  | .env | .global => true
  | _ => false

def longNames : List (String × Flag) :=
  [("config", .config), ("disallow-vars", .disallowVars), ("disallowVars", .disallowVars),
   ("disallow-unknown-references", .disallowUnknownReferences),
   ("disallowUnknownReferences", .disallowUnknownReferences), ("env", .env), ("global", .global),
   ("loop-closures", .loopClosures), ("loopClosures", .loopClosures), ("out-dir", .outDir),
   ("outDir", .outDir), ("edits", .edits), ("pretty", .pretty), ("help", .help),
   ("version", .version)]

def ofLong? (name : List Char) : Option Flag := longNames.lookup (String.ofList name)

def ofShort? : Char → Option Flag
  | 'c' => some .config
  | 'h' => some .help
  | 'V' => some .version
  | _ => none

end Flag

/-! ## Values -/

def path? (value : List Char) : Except UsageError String :=
  if value = [] then .error .invalidValue else .ok (String.ofList value)

/-- A global, read-only unless `:true` follows its name. -/
def global? (value : List Char) : Except UsageError (String × Bool) :=
  let parts :=
    match Text.splitOnce? ':' value with
    | none => some (value, false)
    | some (name, flag) =>
      if flag = "true".toList then some (name, true)
      else if flag = "false".toList then some (name, false)
      else none
  match parts with
  | none => .error .valueValidation
  | some (name, writable) =>
    if Text.trim name = [] then .error .valueValidation
    else .ok (String.ofList (Text.trim name), writable)

def mode? (value : List Char) : Except UsageError ClosureMode :=
  let word := (String.ofList value).toLower
  if word = "iife" then .ok .iife
  else if word = "error" then .ok .error
  else .error .invalidValue

/-! ## Reading -/

/-- What is not settled yet. -/
inductive Pending where
  | nothing
  /-- An option that takes a value, and the value if it has come. -/
  | option (flag : Flag) (value : Option (List Char))
  | files (names : List (List Char))
deriving DecidableEq, Repr

structure Reading where
  args : Args := {}
  /-- Options that were given. -/
  given : List Flag := []
  pending : Pending := .nothing
  /-- Nothing but files follows. -/
  trailing : Bool := false
deriving DecidableEq, Repr

namespace Reading

private def modify (r : Reading) (f : Args → Args) : Reading := { r with args := f r.args }

/-- Stores the value of an option. -/
def store (r : Reading) (flag : Flag) (value : List Char) : Except UsageError Reading :=
  match flag with
  | .config => (path? value).map fun v => r.modify fun a => { a with config := some v }
  | .outDir => (path? value).map fun v => r.modify fun a => { a with outDir := some v }
  | .env => .ok (r.modify fun a => { a with environments := a.environments ++ [String.ofList value] })
  | .global => (global? value).map fun v => r.modify fun a => { a with globals := a.globals ++ [v] }
  | .loopClosures =>
    (mode? value).map fun v => r.modify fun a => { a with loopClosures := some v }
  | .disallowVars => .ok (r.modify fun a => { a with disallowVars := true })
  | .disallowUnknownReferences =>
    .ok (r.modify fun a => { a with disallowUnknownReferences := true })
  | .edits => .ok (r.modify fun a => { a with edits := true })
  | .pretty => .ok (r.modify fun a => { a with pretty := true })
  | .help => .error .displayHelp
  | .version => .error .displayVersion

/-- Takes an option with its value. -/
def take (r : Reading) (flag : Flag) (value : Option (List Char)) : Except UsageError Reading :=
  if flag.takesValue && value.isNone then .error .invalidValue
  else if !flag.isRepeatable && r.given.contains flag then .error .argumentConflict
  else ({ r with given := flag :: r.given }).store flag (value.getD [])

/-- Settles what is pending. -/
def settle (r : Reading) : Except UsageError Reading :=
  let settled := { r with pending := .nothing }
  match r.pending with
  | .nothing => .ok settled
  | .option flag value => settled.take flag value
  | .files names => do
    let names ← names.mapM path?
    return settled.modify fun a => { a with files := a.files ++ names }

/-- Takes an option that takes no value, or one with a value attached. -/
def settleAndTake (r : Reading) (flag : Flag) (value : Option (List Char)) :
    Except UsageError Reading := do (← r.settle).take flag value

/-- Waits for the value of an option. -/
def await (r : Reading) (flag : Flag) : Except UsageError Reading := do
  return { (← r.settle) with pending := .option flag none }

/-- Reads what follows two dashes. -/
def long (r : Reading) (text : List Char) : Except UsageError Reading :=
  let (name, value) :=
    match Text.splitOnce? '=' text with
    | some (name, value) => (name, some value)
    | none => (text, none)
  match Flag.ofLong? name, value with
  | none, _ => .error .unknownArgument
  | some flag, some value =>
    if flag.takesValue then r.settleAndTake flag (some value) else .error .tooManyValues
  | some flag, none => if flag.takesValue then r.await flag else r.settleAndTake flag none

/-- Reads what follows one dash. -/
def short (r : Reading) : List Char → Except UsageError Reading
  | [] => .ok r
  | c :: cs =>
    match Flag.ofShort? c with
    | none => .error .unknownArgument
    | some flag =>
      if flag.takesValue then
        match cs with
        | [] => r.await flag
        | '=' :: value => r.settleAndTake flag (some value)
        | value => r.settleAndTake flag (some value)
      else do
        let r ← r.settleAndTake flag none
        r.short cs

def file (r : Reading) (name : List Char) : Except UsageError Reading :=
  match r.pending with
  | .files names => .ok { r with pending := .files (names ++ [name]) }
  | _ => do return { (← r.settle) with pending := .files [name] }

/-- An argument that is no option: the value that is waited for, or a file. -/
def value (r : Reading) (text : List Char) : Except UsageError Reading :=
  match r.pending with
  | .option flag none => .ok { r with pending := .option flag (some text) }
  | _ => r.file text

/-- Reads one argument. -/
def next (r : Reading) (arg : List Char) : Except UsageError Reading :=
  if r.trailing then r.file arg
  else
    match arg with
    | ['-', '-'] => .ok { r with trailing := true }
    | '-' :: '-' :: text => r.long text
    | '-' :: c :: cs => r.short (c :: cs)
    | text => r.value text

end Reading

/-- Reads the arguments of a command line. -/
def Args.read (argv : List String) : Except UsageError Args := do
  let r ← argv.foldlM (fun (r : Reading) arg => r.next arg.toList) {}
  return (← r.settle).args

end LoopClosure.Cli
