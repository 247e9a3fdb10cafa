import MiniScheme.CommandLine.Batch

/-!
# The program

Reads the command line, the settings and the files, and writes what the batch comes to.
-/

namespace MiniScheme.CommandLine

/-- How the program is used. -/
def usage : String := "usage: minischeme [-h] [-q] FILE...\n"

/-- Reads a file of the file system. -/
def readFile (path : Path) : IO Contents := do
  try
    return .ok (← IO.FS.readBinFile path.toString)
  catch
    | .noFileOrDirectory .. => return .error .notFound
    | .inappropriateType _ code _ => return .error (if code = 21 then .isDirectory else .notDirectory)
    | e => return .error (.other (toString e))

/-- Writes what one part of a batch came to. -/
def emit (progress : Progress) : IO Unit := do
  IO.print progress.output
  IO.eprint progress.errors

/-- The exit code of an ending. -/
def Ending.report : Ending → IO UInt32
  | .exit code => return code.toUInt32
  | .undecodable => do
    IO.eprintln "a file is not UTF-8 text"
    return 1
  | .nestingTooDeep => do
    IO.eprintln "a result is nested too deep to be printed"
    return 1
  | .outOfFuel => do
    IO.eprintln "out of fuel"
    return 1

/-- Runs the files and gives the exit code. -/
def runIO (limits : Limits) (preludes : List Path) (quiet : Bool) (files : List String) : IO UInt32 := do
  let mut store := Store.initial
  for path in preludes do
    let progress := runPrelude limits (← readFile path) store
    emit progress
    if let some ending := progress.ended then return ← ending.report
    store := progress.store
  for name in files do
    let progress := runFile limits quiet name (← readFile (Path.ofString name)) store
    emit progress
    if let some ending := progress.ended then return ← ending.report
    store := progress.store
  return 0

end MiniScheme.CommandLine

section

open MiniScheme MiniScheme.CommandLine

/-- Runs source files in one session. -/
def main (args : List String) : IO UInt32 := do
  match request args with
  | .help =>
    IO.print usage
    return 0
  | .misuse =>
    IO.eprint usage
    return 2
  | .run quiet files =>
    let limits := Limits.standard.capped (Settings.recursionLimit (← IO.getEnv Settings.recursionLimitVariable))
    let preludes := Settings.preludeFiles (← IO.getEnv Settings.preludeVariable)
    runIO limits preludes quiet files

end
