import JsonWalk.CommandLine

/-!
# The program

Hands the arguments and the standard input to the command line and writes what it leaves behind.
-/

open JsonWalk

partial def readAll (stream : IO.FS.Stream) (bytes : ByteArray) : IO ByteArray := do
  let chunk ← stream.read 65536
  if chunk.isEmpty then return bytes else readAll stream (bytes ++ chunk)

def main (args : List String) : IO UInt32 := do
  let input ← readAll (← IO.getStdin) .empty
  let outcome := CommandLine.run args input.toList
  (← IO.getStdout).putStr outcome.output
  (← IO.getStderr).putStr outcome.errors
  return outcome.code.toUInt32
