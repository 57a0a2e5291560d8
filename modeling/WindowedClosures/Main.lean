import WindowedClosures.CommandLine.Perform

/-!
# The program

Reads the input file of a command line, carries the command out and writes what it asks for.
-/

namespace WindowedClosures.CommandLine

/-- The contents of a file, if it can be read. -/
def readFile? (path : String) : IO (Option (List UInt8)) := do
  try
    return some (← IO.FS.readBinFile path).toList
  catch _ => return none

/-- Write a file; the answer says whether that succeeded. -/
def writeFile (path : String) (contents : List UInt8) : IO Bool := do
  try
    IO.FS.writeBinFile path (ByteArray.mk contents.toArray)
    return true
  catch _ => return false

end WindowedClosures.CommandLine

open WindowedClosures.CommandLine

def main (args : List String) : IO UInt32 := do
  let contents ← match request? WindowedClosures.defaultTickLimit args with
    | some (.perform _ command) => readFile? command.input
    | _ => pure none
  let reply := respond args fun _ => contents
  let written ← match reply.file with
    | some (path, bytes) => writeFile path bytes
    | none => pure true
  let reply := if written then reply else reply.unwritten
  IO.print reply.stdout
  IO.eprint reply.stderr
  return UInt32.ofNat reply.exit
