/-
  LegacyGradient.Main

  The command as a program: it reads the option file and the input where they are needed, asks for
  the response, and prints it.
-/
import LegacyGradient.Command.Response

open LegacyGradient

/-- All bytes that are sent to a stream. -/
partial def readAll (stream : IO.FS.Stream) (sofar : ByteArray) : IO ByteArray := do
  let bytes ← stream.read 65536
  if bytes.isEmpty then return sofar else readAll stream (sofar ++ bytes)

/-- The contents of a file, if it can be read. -/
def readFile? (path : Text) : IO (Option ByteArray) := do
  try
    return some (← IO.FS.readBinFile (String.ofList path))
  catch _ =>
    return none

/-- Answers a call of the command. -/
def main (arguments : List String) : IO UInt32 := do
  let arguments := arguments.map String.toList
  let mut contents : Option ByteArray := none
  let mut input : ByteArray := .empty
  -- nothing is read for a call that does not lead to a run
  if let .ok a := Command.Arguments.ofList arguments then
    if let some path := a.config then contents ← readFile? path
    if a.values.isEmpty then input ← readAll (← IO.getStdin) .empty
  let response := Command.respond arguments (fun _ => contents) input
  IO.print (String.ofList response.output)
  (← IO.getStdout).flush
  IO.eprint (String.ofList response.errors)
  return UInt32.ofNat response.code
