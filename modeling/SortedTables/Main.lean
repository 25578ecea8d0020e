import SortedTables.CommandLine

/-!
# The dump command as a program

The program reads the one file that its arguments name, lets the command work on a directory that
holds it, and writes what the command writes.
-/

namespace SortedTables

/-- The directory with the file at a path, if there is one. -/
def readDisk (path : String) : IO Disk := do
  try
    let bytes ← IO.FS.readBinFile path
    return .ofFile path bytes.toList
  catch _ =>
    return .empty

/-- The directory that the arguments need. -/
def diskFor (arguments : List String) : IO Disk :=
  match CommandRequest.parse? arguments with
  | some (.dump path _) => readDisk path
  | _ => return .empty

end SortedTables

/-- Runs the command on the arguments of the program. -/
def main (arguments : List String) : IO UInt32 := do
  let disk ← SortedTables.diskFor arguments
  let run := SortedTables.CommandRun.ofArguments disk arguments
  (← IO.getStdout).write run.output.toByteArray
  match run.ending with
  | .success notes => IO.eprint notes
  | .failure message => IO.eprintln s!"Error: {message}"
  | .usage => IO.eprintln "usage: [--from HEX] [--to HEX] [--show-properties] PATH"
  return UInt32.ofNat run.ending.status
