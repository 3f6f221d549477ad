/-!
# Tokens

A token is a piece of source text with the line on which it ends and the kind of word it is.
-/

namespace Lox

/-- A piece of source text and the line on which it ends. -/
structure Lexeme where
  text : String
  line : Nat
deriving DecidableEq, Repr, Inhabited

/-- The kinds of tokens.  A string carries its text without the quotes, a number its value. -/
inductive Kind where
  | leftParen | rightParen | leftBrace | rightBrace
  | comma | dot | minus | plus | semicolon | slash | star
  | bang | bangEqual | equal | equalEqual
  | greater | greaterEqual | less | lessEqual
  | identifier | string (value : String) | number (value : Float)
  | and | break | klass | else | false | fun | for | if | nil | or
  | print | return | super | this | true | var | while
  | endOfFile
deriving DecidableEq, Repr, Inhabited

/-- A lexeme with its kind.  The kind need not be the one that the text would be scanned as. -/
structure Token extends Lexeme where
  kind : Kind
deriving DecidableEq, Repr, Inhabited

namespace Kind

/-- The words that are not identifiers, with their kinds. -/
def keywords : List (String × Kind) := [
  ("and", .and), ("break", .break), ("class", .klass), ("else", .else), ("false", .false),
  ("for", .for), ("fun", .fun), ("if", .if), ("nil", .nil), ("or", .or), ("print", .print),
  ("return", .return), ("super", .super), ("this", .this), ("true", .true), ("var", .var),
  ("while", .while)]

/-- The kind of a word: a keyword, or else an identifier. -/
def ofWord (word : String) : Kind := (keywords.lookup word).getD .identifier

/-- The keywords that open a declaration or a statement. -/
def startsDeclaration : Kind → Bool
  | .klass | .fun | .var | .for | .if | .while | .print | .return => Bool.true
  | _ => Bool.false

end Kind

namespace Token

/-- The token that closes a source, on its last line. -/
def ending (line : Nat) : Token := ⟨⟨"", line⟩, .endOfFile⟩

/-- The token closes a source. -/
def isEnding (t : Token) : Bool := t.kind == .endOfFile

end Token

end Lox
