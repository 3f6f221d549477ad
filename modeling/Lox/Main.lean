import Lox.Command.Shell
import Std.Time.DateTime.Timestamp

/-!
# The executable

Connects the command to the files, the standard streams and the clock of the system it runs on.
When a person is typing, the input is passed on line by line: with each new line the command starts
anew on all the lines so far, and what it writes beyond the last time is shown.  Any other input is
read in full first.
-/

namespace Lox.Main

open Command

/-- Enough fuel for anything that ends in a lifetime. -/
def fuel : Nat := Nat.pow 2 60

/-- Why something could not be read or written. -/
def reason : IO.Error → String
  | .noFileOrDirectory _ _ _ => "No such file or directory (os error 2)"
  | .permissionDenied _ _ _ => "Permission denied (os error 13)"
  | .inappropriateType _ _ _ => "Is a directory (os error 21)"
  | .resourceExhausted _ _ _ => "No space left on device (os error 28)"
  | error => toString error

/-- The file that the arguments name, if they do. -/
def readScript (arguments : List String) : IO (Except String ByteArray) := do
  match Request.ofArguments arguments with
  | .run { script := some path, .. } =>
    try return .ok (← IO.FS.readBinFile path)
    catch error => return .error (reason error)
  | _ => return .error ""

/-- The rest of a stream. -/
partial def readAll (stream : IO.FS.Stream) (sofar : ByteArray) : IO ByteArray := do
  let bytes ← stream.read 65536
  if bytes.isEmpty then return sofar else readAll stream (sofar ++ bytes)

/-- What a text has beyond another one that it starts with. -/
def beyond (shown text : String) : String := String.ofList (text.toList.drop shown.length)

/-- Writes a text to a stream at once. -/
def put (stream : IO.FS.Stream) (text : String) : IO Unit := do
  stream.putStr text
  stream.flush

/-- Writes the reports that were not shown before, and ends the command if they cannot be
written. -/
def report (shown transcript : Transcript) (exit? : Option Exit) : IO (Option Exit) := do
  try
    put (← IO.getStderr) (beyond shown.errors transcript.errors)
    return exit?
  catch _ => return some .io

/-- Runs the command on the input so far, shows what it writes beyond what was shown before, and
asks for another line if it needs one.  If its output cannot be written, the command is told so. -/
partial def converse (surroundings : Surroundings) (arguments : List String) (shown : Transcript) :
    IO Exit := do
  let transcript := run fuel surroundings arguments
  try put (← IO.getStdout) (beyond shown.output transcript.output)
  catch error =>
    let limit : Limit := ⟨shown.output.toList.count '\n', reason error⟩
    let refused := run fuel { surroundings with sink := { limit := some limit } } arguments
    return (← report shown refused refused.exit?).getD .io
  match ← report shown transcript transcript.exit? with
  | some exit => return exit
  | none =>
    let line ← (← IO.getStdin).getLine
    let source : Source :=
      if line.isEmpty then { surroundings.source with ending := .closed }
      else { surroundings.source with lines := surroundings.source.lines ++ [.text line] }
    converse { surroundings with source } arguments transcript

/-- The clock of a run that starts at the given time, in nanoseconds since the epoch.  It goes on by
a microsecond with each reading. -/
def clockFrom (start : Int) : Clock where
  time n := Float.ofInt start / 1000000000 + n.toFloat / 1000000
  early _ := if start < 0 then some "second time provided was later than self" else none

end Lox.Main

open Lox Lox.Command Lox.Main in
/-- The command line. -/
def main (arguments : List String) : IO UInt32 := do
  let script ← readScript arguments
  let now ← Std.Time.Timestamp.now
  let stdin ← IO.getStdin
  let typed ← stdin.isTty
  let source : Source ←
    if typed then pure { ending := .pending } else Source.ofBytes <$> readAll stdin .empty
  let clock := clockFrom now.toNanosecondsSinceUnixEpoch.val
  let surroundings : Surroundings := { read := fun _ => script, source, sink := {}, clock }
  let exit ← converse surroundings arguments { output := "", errors := "", exit? := none }
  return exit.status.toUInt32
