import Lox.Token.Segment

/-!
# Scanning

Scanning numbers the lines of the segments of a source and keeps its tokens and its faults.  A token
is on the line on which its text ends, and so is a string that is never closed; a comment that is
never closed is on the line on which it starts.
-/

namespace Lox

/-- A token of a source, or a fault in its place with the line that it is reported on. -/
inductive Item where
  | token (token : Token)
  | fault (line : Nat) (fault : LexicalFault)
deriving DecidableEq, Repr

namespace Item

/-- The item of a segment that starts on line `first` and ends on line `last`, if it has one. -/
def ofSegment? (first last : Nat) (segment : Segment) : Option Item :=
  match segment.content with
  | .token kind => some (.token ⟨⟨String.ofList segment.text, last⟩, kind⟩)
  | .fault .openComment => some (.fault first .openComment)
  | .fault cause => some (.fault last cause)
  | _ => none

/-- The items of consecutive segments, the first of which starts on the given line, and the ending
token. -/
def ofSegments (line : Nat) : List Segment → List Item
  | [] => [.token (.ending line)]
  | segment :: rest =>
    let last := line + Segment.newlines segment.text
    match ofSegment? line last segment with
    | some item => item :: ofSegments last rest
    | none => ofSegments last rest

/-- The token that an item is. -/
def token? : Item → Option Token
  | .token t => some t
  | .fault _ _ => none

/-- The fault that an item is, with its line. -/
def fault? : Item → Option (Nat × LexicalFault)
  | .token _ => none
  | .fault line cause => some (line, cause)

end Item

/-- The items of a source text in order, the last of which is its ending token. -/
def scan (source : String) : List Item := Item.ofSegments 1 (Segment.all source.toList)

end Lox
