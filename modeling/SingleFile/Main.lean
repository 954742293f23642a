import SingleFile.CommandLine.Run

/-!
# The program

Reads the files that the command line and the component lead to, and carries the command line out.
-/

open SingleFile

def addFile (files : Files) (path : String) : IO Files := do
  match ← (IO.FS.readBinFile path).toBaseIO with
  | .ok content => return files.add path content true
  | .error _ => return files

def main (args : List String) : IO UInt32 := do
  let empty : Files := { directory := (← IO.currentDir).toString }
  let named ← (CommandLine.paths empty args).foldlM addFile empty
  let files ← (CommandLine.paths named args).foldlM addFile empty
  let exit := CommandLine.run files args
  IO.print exit.output
  return UInt32.ofNat exit.status
