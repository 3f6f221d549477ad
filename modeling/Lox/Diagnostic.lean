import Lox.Token.Basic

/-!
# Diagnostics

What can be reported about a source and its run, how a report reads, and the list of reports that
are held.
-/

namespace Lox

/-- A report of something that went wrong. -/
inductive Diagnostic where
  /-- A piece of source text is no token. -/
  | lexical (line : Nat) (message : String)
  /-- A token does not fit where it stands. -/
  | syntactic (token : Token) (message : String)
  /-- A program did something that has no meaning. -/
  | runtime (line : Nat) (message : String)
  /-- The output could not be written. -/
  | io (message : String)
deriving DecidableEq, Repr

namespace Diagnostic

/-- The line that a report is about, if it is about one. -/
def line? : Diagnostic → Option Nat
  | .lexical line _ => some line
  | .syntactic token _ => some token.line
  | .runtime line _ => some line
  | .io _ => none

/-- What went wrong, without the place. -/
def message : Diagnostic → String
  | .lexical _ message => message
  | .syntactic _ message => message
  | .runtime _ message => message
  | .io message => message

/-- How a syntax error names the token that it is at. -/
def place (token : Token) : String :=
  if token.isEnding then " at end" else " at '" ++ token.text ++ "'"

/-- The report as it is shown. -/
def render : Diagnostic → String
  | .lexical line message => s!"[line {line}] Error: " ++ message
  | .syntactic token message => s!"[line {token.line}] Error" ++ place token ++ ": " ++ message
  | .runtime line message => message ++ s!"\n[line {line}]"
  | .io message => "IO error: " ++ message

example : (syntactic ⟨⟨";", 3⟩, .semicolon⟩ "Expect expression.").render =
    "[line 3] Error at ';': Expect expression." := by decide +kernel

example : (syntactic (.ending 2) "Expect expression.").render =
    "[line 2] Error at end: Expect expression." := by decide +kernel

example : (io "stdout closed").render = "IO error: stdout closed" := by decide +kernel

/-- The report is about the source itself and not about its run. -/
def isStatic : Diagnostic → Bool
  | .lexical _ _ | .syntactic _ _ => true
  | _ => false

/-- The report is about what a program did. -/
def isRuntime : Diagnostic → Bool
  | .runtime _ _ => true
  | _ => false

/-- The report is about output that could not be written. -/
def isIo : Diagnostic → Bool
  | .io _ => true
  | _ => false

end Diagnostic

/-- The reports that are held, in the order in which they were made, and which kinds of reports are
among them. -/
structure Diagnostics where
  held : List Diagnostic := []
  /-- A source was reported to be wrong. -/
  hadStatic : Bool := false
  /-- A program was reported to have gone wrong. -/
  hadRuntime : Bool := false
  /-- A failure to write was reported. -/
  hadIo : Bool := false
deriving DecidableEq, Repr

namespace Diagnostics

/-- Adds a report, and notes its kind. -/
def report (ds : Diagnostics) (d : Diagnostic) : Diagnostics where
  held := ds.held ++ [d]
  hadStatic := ds.hadStatic || d.isStatic
  hadRuntime := ds.hadRuntime || d.isRuntime
  hadIo := ds.hadIo || d.isIo

/-- Adds reports in order. -/
def extend (ds : Diagnostics) (more : List Diagnostic) : Diagnostics := more.foldl report ds

@[simp] theorem extend_nil (ds : Diagnostics) : ds.extend [] = ds := rfl

theorem extend_cons (ds : Diagnostics) (d : Diagnostic) (more : List Diagnostic) :
    ds.extend (d :: more) = (ds.report d).extend more := rfl

theorem extend_append (ds : Diagnostics) (more others : List Diagnostic) :
    ds.extend (more ++ others) = (ds.extend more).extend others :=
  List.foldl_append

@[simp] theorem held_extend (ds : Diagnostics) (more : List Diagnostic) :
    (ds.extend more).held = ds.held ++ more := by
  induction more generalizing ds with
  | nil => exact (List.append_nil ds.held).symm
  | cons d more ih =>
    rw [extend_cons, ih]
    exact List.append_assoc ds.held [d] more

/-- Drops all reports. -/
def clear (_ : Diagnostics) : Diagnostics := {}

/-- The number of reports. -/
def size (ds : Diagnostics) : Nat := ds.held.length

/-- No report is held. -/
def isEmpty (ds : Diagnostics) : Bool := ds.held.isEmpty

end Diagnostics

end Lox
