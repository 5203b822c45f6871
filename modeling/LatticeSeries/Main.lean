import LatticeSeries.Command

/-!
# The program

Reads the files that the arguments may name, runs the command and writes what it
leaves behind.
-/

open LatticeSeries

/-- The content of the file at a path, if it can be read. -/
def readFile? (path : String) : IO (Option Bytes) :=
  try return some (← IO.FS.readBinFile path).toList
  catch _ => return none

def main (args : List String) : IO UInt32 := do
  let contents ← args.mapM fun path => return (path, ← readFile? path)
  let outcome :=
    Command.run (fun path => (contents.lookup path).join) args Toml.Document.parse?
  IO.print outcome.output
  IO.eprint outcome.errors
  return outcome.exitCode
