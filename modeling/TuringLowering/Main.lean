import TuringLowering.CommandLine.Run

/-!
This module contains the command line program.
-/

namespace TuringLowering.CommandLine

partial def readAll (stream : IO.FS.Stream) (text : String) : IO String := do
  let line ← stream.getLine
  if line.isEmpty then
    return text
  else
    readAll stream (text ++ line)

/-- What is piped in, unless the standard input is a terminal or is not asked for. -/
def pipedInput (args : List String) : IO (Option String) := do
  let stdin ← IO.getStdin
  if !readsInput args || (← stdin.isTty) then
    return none
  else
    return some (← readAll stdin "")

end TuringLowering.CommandLine

open TuringLowering.CommandLine in
def main (args : List String) : IO UInt32 := do
  let reply := answer args (← pipedInput args)
  (← IO.getStdout).putStr reply.stdout
  (← IO.getStderr).putStr reply.stderr
  return reply.exit.toUInt32
