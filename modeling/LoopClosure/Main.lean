import LoopClosure.Cli.Run

/-!
# The program
-/

namespace LoopClosure.Cli

/-- The file system of the machine. -/
def machineDisk : Disk IO where
  read? path := do
    try return some (← IO.FS.readFile path) catch _ => return none
  createDirs path := do
    if path = "" then return true
    try
      IO.FS.createDirAll path
      return true
    catch _ => return false
  write path text := do
    try
      IO.FS.writeFile path text
      return true
    catch _ => return false

def usage : String :=
  "Give closures created in loops a fresh binding per iteration\n\n" ++
  "Usage: loopscope [OPTIONS] [FILES]...\n\n" ++
  "Options:\n" ++
  "  -c, --config <CONFIG>                Path to a JSON (or JSONC) config file\n" ++
  "      --disallow-vars                  Reject `var` declarations\n" ++
  "      --disallow-unknown-references    Reject references to unknown globals\n" ++
  "      --env <NAME>                     Predefine the globals of an environment\n" ++
  "      --global <NAME[:true]>           Declare an extra global; `:true` makes it writable\n" ++
  "      --loop-closures <MODE>           What to do with loop closures: iife, error\n" ++
  "      --out-dir <DIR>                  Write one output file per input into this directory\n" ++
  "      --edits                          Print the text edits of every file as JSON\n" ++
  "      --pretty                         Colored diagnostics with source snippets\n" ++
  "  -h, --help                           Print help\n" ++
  "  -V, --version                        Print version\n"

def UsageError.message : UsageError → String
  | .unknownArgument => "unexpected argument"
  | .invalidValue => "missing or invalid value"
  | .valueValidation => "malformed value"
  | .argumentConflict => "the argument cannot be used multiple times"
  | .tooManyValues => "unexpected value"
  | .displayHelp => usage
  | .displayVersion => "loopscope 0.1.0\n"

/-- Styles are used on a terminal, unless the environment forbids them. -/
def wantsColor : IO Bool := do
  if (← IO.getEnv "NO_COLOR").isSome then return false
  (← IO.getStdout).isTty

/-- Runs the program on its arguments and answers the exit code. -/
def runMachine (argv : List String) : IO UInt32 := do
  match Args.read argv with
  | .error .displayHelp =>
    IO.print UsageError.displayHelp.message
    return 0
  | .error .displayVersion =>
    IO.print UsageError.displayVersion.message
    return 0
  | .error e =>
    IO.eprintln ("error: " ++ e.message)
    return 2
  | .ok args =>
    match ← (run machineDisk args (← wantsColor)).run with
    | .error (.fault e) =>
      IO.eprintln ("Error: " ++ e.message)
      return 1
    | .error .abort => return 101
    | .ok o =>
      IO.eprint o.stderr
      IO.print o.stdout
      return o.exitCode.toUInt32

end LoopClosure.Cli

def main (argv : List String) : IO UInt32 := LoopClosure.Cli.runMachine argv
