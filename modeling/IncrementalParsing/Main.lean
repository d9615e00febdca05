import IncrementalParsing.CommandLine.Directory

/-!
# The program

`main` reads the files that a command line names, runs it, and writes what comes out.
-/

namespace IncrementalParsing.Program

/-- The fault of a path that the system reports by a number, which may have been negated. -/
def fault? (code : UInt32) : Option PathFault :=
  match (if code < 0x80000000 then code else 0 - code).toNat with
  | 20 => some .notDirectory
  | 21 => some .isDirectory
  | 36 => some .tooLong
  | _ => none

/-- The fault of a path that a failure comes from. -/
def faultOf? : IO.Error → Option PathFault
  | .noFileOrDirectory .. => some .notFound
  | .inappropriateType _ code _ => fault? code
  | .invalidArgument _ code _ => fault? code
  | _ => none

/-- What the system says about a failure. -/
def reason (e : IO.Error) : String :=
  match faultOf? e, e with
  | some fault, _ => fault.message
  | none, .permissionDenied .. => "Permission denied (os error 13)"
  | none, e => toString e

/-- What a path leads to. -/
def look (path : String) : IO FileState := do
  try
    return .content (← IO.FS.readBinFile path)
  catch e =>
    match faultOf? e with
    | some .isDirectory | none => return .unreadable (reason e)
    | some _ => return .absent (reason e)

/-- The files of a command line, and standard input if one of them is a hyphen. -/
def inputs (paths : List String) : IO Inputs := do
  let states ← paths.mapM fun path => return (path, ← look path)
  let standardInput ← if paths.contains "-" then (← IO.getStdin).readBinToEnd else pure .empty
  return ⟨fun path => (states.lookup path).getD (.absent ""), standardInput⟩

/-- Writes the file of an outcome; gives the reason if that fails. -/
def write (o : Outcome) : IO (Option String) := do
  match o.written with
  | none => return none
  | some (path, bytes) =>
    try
      IO.FS.writeBinFile path bytes
      return none
    catch e => return some (reason e)

end IncrementalParsing.Program

open IncrementalParsing in
/-- The program. -/
def main (arguments : List String) : IO UInt32 := do
  let terminal := (← (← IO.getStdout).isTty) && (← (← IO.getStderr).isTty)
  let paths := match Invocation.ofArguments arguments with
    | .ok invocation => invocation.command.reads
    | .error _ => []
  let outcome := runArguments (← Program.inputs paths) terminal arguments
  let outcome := outcome.finished (← Program.write outcome)
  IO.print outcome.output
  IO.eprint outcome.errors
  return outcome.status.toUInt32
