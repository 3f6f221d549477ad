import Lox.Number.Numeral
import Lox.Token.Basic

/-!
# Segments of a source text

A source text falls into consecutive segments: single blank characters, comments, tokens, and pieces
that are none of these.  `Segment.first` cuts the first segment off a nonempty text, `Segment.all`
cuts up the whole of it.  Each segment keeps its characters, so the text is the concatenation of its
segments, and line numbers can be counted afterwards.
-/

namespace Lox

/-- What is wrong with a piece of source text that is no token. -/
inductive LexicalFault where
  /-- No token starts with the character. -/
  | unexpected (c : Char)
  /-- A string without its closing quote. -/
  | openString
  /-- A block comment without its end. -/
  | openComment
deriving DecidableEq, Repr

/-- What a segment of source text is. -/
inductive Content where
  | blank
  | lineComment
  | blockComment
  | token (kind : Kind)
  | fault (fault : LexicalFault)
deriving DecidableEq, Repr

/-- A piece of source text and what it is. -/
structure Segment where
  text : List Char
  content : Content
deriving DecidableEq, Repr

namespace LexicalFault

/-- The wording of a fault. -/
def message : LexicalFault → String
  | .unexpected c => "Unexpected character '" ++ c.toString ++ "'."
  | .openString => "Unterminated string."
  | .openComment => "Unterminated block comment."

end LexicalFault

namespace Segment

/-- The characters that separate tokens. -/
def isBlank (c : Char) : Bool := c == ' ' || c == '\r' || c == '\t' || c == '\n'

/-- The characters that a word starts with. -/
def startsWord (c : Char) : Bool := c.isAlpha || c == '_'

/-- The characters that a word goes on with. -/
def continuesWord (c : Char) : Bool := startsWord c || c.isDigit

/-- The tokens of one character that no second character can extend. -/
def symbol? : Char → Option Kind
  | '(' => some .leftParen
  | ')' => some .rightParen
  | '{' => some .leftBrace
  | '}' => some .rightBrace
  | ',' => some .comma
  | '.' => some .dot
  | '-' => some .minus
  | '+' => some .plus
  | ';' => some .semicolon
  | '*' => some .star
  | _ => none

/-- The tokens of one character that a following `=` extends, with the kind they have alone and the
kind they have with it. -/
def comparison? : Char → Option (Kind × Kind)
  | '!' => some (.bang, .bangEqual)
  | '=' => some (.equal, .equalEqual)
  | '<' => some (.less, .lessEqual)
  | '>' => some (.greater, .greaterEqual)
  | _ => none

/-- The number of characters up to and including the first `*/`, added to `count`. -/
def commentLength? (count : Nat) : List Char → Option Nat
  | '*' :: '/' :: _ => some (count + 2)
  | _ :: cs => commentLength? (count + 1) cs
  | [] => none

/-- A segment of the first `length` characters, and the rest. -/
def cut (length : Nat) (cs : List Char) (content : Content) : Segment × List Char :=
  (⟨cs.take length, content⟩, cs.drop length)

/-- The segment that starts with a slash: a comment, or a token of its own. -/
def slash : List Char → Segment × List Char
  | '/' :: cs => (⟨'/' :: '/' :: cs.takeWhile (· != '\n'), .lineComment⟩, cs.dropWhile (· != '\n'))
  | '*' :: cs =>
    match commentLength? 2 cs with
    | some length => cut length ('/' :: '*' :: cs) .blockComment
    | none => (⟨'/' :: '*' :: cs, .fault .openComment⟩, [])
  | cs => (⟨['/'], .token .slash⟩, cs)

/-- The segment that starts with a quote, given what follows the quote. -/
def quoted (cs : List Char) : Segment × List Char :=
  let body := cs.takeWhile (· != '"')
  match cs.dropWhile (· != '"') with
  | quote :: rest => (⟨'"' :: body ++ [quote], .token (.string (String.ofList body))⟩, rest)
  | [] => (⟨'"' :: body, .fault .openString⟩, [])

/-- The segment that starts with a digit: digits, and a point with digits after it. -/
def numeral (cs : List Char) : Segment × List Char :=
  let whole := cs.takeWhile Char.isDigit
  let integer : Segment × List Char :=
    (⟨whole, .token (.number (Numeral.decimal whole [] 0).toFloat)⟩, cs.dropWhile Char.isDigit)
  match cs.dropWhile Char.isDigit with
  | '.' :: after =>
    let fraction := after.takeWhile Char.isDigit
    if fraction.isEmpty then integer
    else
      (⟨whole ++ '.' :: fraction, .token (.number (Numeral.decimal whole fraction 0).toFloat)⟩,
        after.dropWhile Char.isDigit)
  | _ => integer

/-- The segment that starts with a letter: the longest word. -/
def word (cs : List Char) : Segment × List Char :=
  let letters := cs.takeWhile continuesWord
  (⟨letters, .token (Kind.ofWord (String.ofList letters))⟩, cs.dropWhile continuesWord)

/-- The first segment of the text `c :: cs`, and the rest of the text. -/
def first (c : Char) (cs : List Char) : Segment × List Char :=
  if isBlank c then (⟨[c], .blank⟩, cs)
  else if let some kind := symbol? c then (⟨[c], .token kind⟩, cs)
  else if let some (alone, extended) := comparison? c then
    match cs with
    | '=' :: rest => (⟨[c, '='], .token extended⟩, rest)
    | _ => (⟨[c], .token alone⟩, cs)
  else if c == '/' then slash cs
  else if c == '"' then quoted cs
  else if c.isDigit then numeral (c :: cs)
  else if startsWord c then word (c :: cs)
  else (⟨[c], .fault (.unexpected c)⟩, cs)

/-- The segments of a text, at most `budget` of them. -/
def upTo : Nat → List Char → List Segment
  | 0, _ => []
  | _, [] => []
  | budget + 1, c :: cs =>
    let (segment, rest) := first c cs
    segment :: upTo budget rest

/-- The segments of a text.  No segment is empty, so there are no more of them than characters. -/
def all (cs : List Char) : List Segment := upTo cs.length cs

/-- The number of line ends in a text. -/
def newlines (cs : List Char) : Nat := cs.count '\n'

end Segment

end Lox
