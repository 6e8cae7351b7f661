import DocDigest.Command.Session

/-!
# The program

Reads a session from the standard input, runs the command line in it, and prints the answer.
-/

set_option autoImplicit false

namespace DocDigest

/-- All that is left of a stream, behind the lines that were read already, the last one first. -/
partial def readRest (input : IO.FS.Stream) (lines : List String) : IO Text := do
  let line ← input.getLine
  if line.isEmpty then return lines.reverse.flatMap String.toList
  else readRest input (line :: lines)

end DocDigest

/-- Runs the command line that the program was started with. -/
def main (words : List String) : IO UInt32 := do
  let input ← DocDigest.readRest (← IO.getStdin) []
  let (exitCode, printed) := DocDigest.Command.answer (words.map String.toList) input
  (← IO.getStdout).putStr (String.ofList printed)
  return UInt32.ofNat exitCode
