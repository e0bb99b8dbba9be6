import TestImpact.CommandLine.Program
import TestImpact.CommandLine.Snapshot

/-!
# The executable

Reads the lines of a snapshot from standard input, runs the program on its arguments, and passes on
what it writes and its exit code.
-/

namespace TestImpact.CommandLine

/-- The lines of a stream up to its end, without their line feeds. -/
partial def readAll (input : IO.FS.Stream) (read : List String) : IO (List String) := do
  let line ← input.getLine
  if line.isEmpty then return read.reverse
  else readAll input (((dropEnd? "\n" line).getD line) :: read)

end TestImpact.CommandLine

open TestImpact.CommandLine in
/-- The entry point. -/
def main (args : List String) : IO UInt32 := do
  let snapshot := Snapshot.ofLines (← readAll (← IO.getStdin) [])
  let outcome := execute args snapshot.tree { replies := snapshot.replies }
  (← IO.getStdout).putStr outcome.out
  (← IO.getStderr).putStr outcome.err
  return outcome.code.toUInt32
