import LineShell.CommandLine
import Std.Time.Zoned
/-!
# The program

The outer layer reads the arguments, the input and the clock, runs the command line and writes what
it leaves behind. The file tree lives in memory: it is empty when the program starts, and its root
is the working directory.
-/

namespace LineShell

namespace CommandLine

def presentMoment : IO Moment := do
  let now ← Std.Time.DateTime.now
  return ⟨now.toTimestamp.toSecondsSinceUnixEpoch.val, now.timezone.offset.second.val / 60⟩

def readAll (stream : IO.FS.Stream) : IO Bytes := do
  let mut bytes := ByteArray.empty
  repeat
    let chunk ← stream.read 65536
    if chunk.isEmpty then break
    bytes := bytes ++ chunk
  return bytes.toList

end CommandLine

end LineShell

/-- Run the command line on an empty file tree. -/
def main (args : List String) : IO UInt32 := do
  let now ← LineShell.CommandLine.presentMoment
  let stdin ← LineShell.CommandLine.readAll (← IO.getStdin)
  let outcome := LineShell.CommandLine.run now [] (args.map String.toList) stdin .empty
  (← IO.getStdout).write ⟨outcome.stdout.toArray⟩
  (← IO.getStderr).putStr (String.ofList outcome.stderr)
  return outcome.code.toUInt32
