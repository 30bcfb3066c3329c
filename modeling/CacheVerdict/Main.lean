import CacheVerdict.CommandLine.Plan

/-!
# The command

Reads the listing, carries out the plan on the disk, and reports faults on the error output.
-/

namespace CacheVerdict.CommandLine

/-- The part of a path before its last separator. -/
def directoryOf (path : String) : String :=
  String.ofList (path.toList.reverse.dropWhile (· ≠ '/')).reverse

/-- Carries out one action. -/
def Action.perform : Action → IO Unit
  | .print text => do
    let out ← IO.getStdout
    out.putStr text
    out.flush
  | .write path text => IO.FS.writeFile path text
  | .makeDirectory path => if path.isEmpty then pure () else IO.FS.createDirAll path
  | .openLog path => do
    let directory := directoryOf path
    try
      if !directory.isEmpty then IO.FS.createDirAll directory
      IO.FS.writeFile path ""
    catch _ => pure ()

/-- The text of a file that can be read. -/
def readText? (path : String) : IO (Option String) := do
  try return some (← IO.FS.readFile path) catch _ => return none

/-- Runs the command with the given arguments. -/
def execute (arguments : List String) : IO UInt32 := do
  match Options.ofArguments arguments with
  | .error fault =>
    IO.eprintln fault.message
    return 2
  | .ok options =>
    let plan := options.plan (← readText? options.listing)
    try
      plan.actions.forM Action.perform
    catch fault =>
      IO.eprintln (toString fault)
      return 1
    match plan.fault with
    | some fault =>
      IO.eprintln fault.message
      return 1
    | none => return 0

end CacheVerdict.CommandLine

/-- The exit code is 2 where the arguments are refused, and 1 where the run fails. -/
def main (arguments : List String) : IO UInt32 :=
  CacheVerdict.CommandLine.execute arguments
