/-!
# Input, output and time

What a program is connected to.  A source delivers its input line by line, a sink takes its output,
and a clock tells it the time.
-/

namespace Lox

/-- A line of input with its line end, if it has one. -/
inductive Line where
  | text (text : String)
  /-- The bytes of the line are not the encoding of a text. -/
  | malformed
deriving DecidableEq, Repr

/-- What comes after the lines of a source. -/
inductive Ending where
  /-- There is no more input. -/
  | closed
  /-- Reading fails. -/
  | failing (error : String)
  /-- There may be more input, which is not known yet. -/
  | pending
deriving DecidableEq, Repr

/-- The input that is left. -/
structure Source where
  lines : List Line := []
  ending : Ending := .closed
deriving DecidableEq, Repr

/-- What reading a line gives. -/
inductive Reading where
  | line (text : String)
  | ended
  | failed (error : String)
  | pending
deriving DecidableEq, Repr

namespace Source

/-- Cuts a list after each separator, into at most `budget` pieces. -/
def piecesUpTo {α : Type} [BEq α] (separator : α) : Nat → List α → List (List α)
  | 0, _ => []
  | _, [] => []
  | budget + 1, list =>
    let piece := list.takeWhile (· != separator)
    match list.dropWhile (· != separator) with
    | [] => [piece]
    | last :: rest => (piece ++ [last]) :: piecesUpTo separator budget rest

/-- The pieces of a list, each of which ends in the separator, except perhaps the last. -/
def pieces {α : Type} [BEq α] (separator : α) (list : List α) : List (List α) :=
  piecesUpTo separator list.length list

/-- The lines of a text, each with its line end. -/
def linesOf (text : String) : List Line :=
  (pieces '\n' text.toList).map fun line => .text (String.ofList line)

/-- The line that some bytes encode. -/
def lineOfBytes (bytes : List UInt8) : Line :=
  match String.fromUTF8? ⟨bytes.toArray⟩ with
  | some text => .text text
  | none => .malformed

/-- The source of a text. -/
def ofText (text : String) : Source := { lines := linesOf text }

/-- The source of any bytes. -/
def ofBytes (bytes : ByteArray) : Source :=
  { lines := (pieces 10 bytes.data.toList).map lineOfBytes }

/-- The source of some bytes after which reading fails.  A last line without its end is lost to the
failure. -/
def failingAfter (bytes : ByteArray) (error : String) : Source :=
  { lines :=
    ((pieces 10 bytes.data.toList).filter fun line => line.getLast? == some 10).map lineOfBytes
    ending := .failing error }

/-- Reads a line. -/
def read (source : Source) : Reading × Source :=
  match source.lines, source.ending with
  | .text text :: rest, _ => (.line text, { source with lines := rest })
  | .malformed :: rest, _ =>
    (.failed "stream did not contain valid UTF-8", { source with lines := rest })
  | [], .closed => (.ended, source)
  | [], .failing error => (.failed error, source)
  | [], .pending => (.pending, source)

end Source

/-- How much output a sink has room for, and the error that writing fails with after that.  A sink
that has failed once never takes anything again. -/
structure Limit where
  lines : Nat
  error : String
deriving DecidableEq, Repr

/-- The output so far.  A sink takes everything, or it fails for good after a number of line
ends. -/
structure Sink where
  text : String := ""
  limit : Option Limit := none
deriving DecidableEq, Repr

namespace Sink

/-- The limit after a text is written. -/
def remaining (text : String) (limit : Limit) : Limit :=
  { limit with lines := limit.lines - text.toList.count '\n' }

/-- Writes a text.  Nothing can be written once as many lines have ended as there is room for,
except no text at all. -/
def write (sink : Sink) (text : String) : Except String Sink :=
  match sink.limit with
  | none => .ok { sink with text := sink.text ++ text }
  | some limit =>
    if limit.lines = 0 && !text.isEmpty then .error limit.error
    else .ok { text := sink.text ++ text, limit := some (remaining text limit) }

/-- Writes a text and a line end, one after the other.  A text stays written when its line end
cannot be. -/
def writeLine (sink : Sink) (text : String) : EStateM.Result String Sink Unit :=
  match sink.write text with
  | .error error => .error error sink
  | .ok written =>
    match written.write "\n" with
    | .error error => .error error written
    | .ok ended => .ok () ended

end Sink

/-- A clock: the time at each reading, in seconds since the epoch, and the number of readings so
far. -/
structure Clock where
  time : Nat → Float
  readings : Nat := 0
  /-- Why there is no time at a reading, if the clock is before the epoch then. -/
  early : Nat → Option String := fun _ => none

namespace Clock

/-- Reads the time. -/
def read (clock : Clock) : Except String Float × Clock :=
  let time :=
    match clock.early clock.readings with
    | some error => .error error
    | none => .ok (clock.time clock.readings)
  (time, { clock with readings := clock.readings + 1 })

end Clock

end Lox
