import Lox.Grammar.Program
import Lox.Machine.Evaluation
import Lox.Token.Scan

/-!
# Sessions

A session is a machine and the diagnostics that are held.  Sources are run in it one after the
other: what one of them declares is there for the next.
-/

namespace Lox

/-- A source, scanned: the tokens and the reports of what is none. -/
def scanned (source : String) : List Token × List Diagnostic :=
  let items := scan source
  (items.filterMap Item.token?,
    (items.filterMap Item.fault?).map fun (line, fault) => .lexical line fault.message)

/-- How far a run came: to its end, or only as far as the fuel and the input lasted. -/
inductive Progress (α : Type) where
  | finished (value : α)
  | suspended (value : α)

/-- A machine and the diagnostics that are held. -/
structure Session where
  machine : Machine
  diagnostics : Diagnostics := {}

namespace Session

/-- The session before anything has run. -/
def initial (source : Source) (sink : Sink) (clock : Clock) : Session :=
  { machine := .initial source sink clock }

/-- Runs statements.  A failure is reported. -/
def interpret (fuel : Nat) (statements : List Stmt) (session : Session) : Progress Session :=
  let ⟨machine, diagnostics⟩ := session
  match Lox.interpret fuel statements machine with
  | .ok () machine => .finished ⟨machine, diagnostics⟩
  | .error (.failure failure) machine => .finished ⟨machine, diagnostics.report failure.diagnostic⟩
  | .error .suspended machine => .suspended ⟨machine, diagnostics⟩

/-- Parses tokens and reports what is wrong with them. -/
def parse (tokens : List Token) (session : Session) : List Stmt × Session :=
  let (statements, errors) := Lox.parse tokens
  (statements, { session with diagnostics := session.diagnostics.extend errors })

/-- Scans and parses a source and reports what is wrong with it. -/
def load (source : String) (session : Session) : List Stmt × Session :=
  let (tokens, errors) := scanned source
  parse tokens { session with diagnostics := session.diagnostics.extend errors }

/-- Runs a source, unless anything is or was reported to be wrong with a source. -/
def run (fuel : Nat) (source : String) (session : Session) : Progress Session :=
  let (statements, session) := session.load source
  if session.diagnostics.hadStatic then .finished session else session.interpret fuel statements

/-- Runs what could be parsed of some tokens, whatever is wrong with the rest. -/
def forceTokens (fuel : Nat) (tokens : List Token) (session : Session) : Progress Session :=
  let (statements, session) := session.parse tokens
  session.interpret fuel statements

/-- Runs what could be parsed of a source, whatever is wrong with the rest. -/
def force (fuel : Nat) (source : String) (session : Session) : Progress Session :=
  let (statements, session) := session.load source
  session.interpret fuel statements

/-- The output since the last time it was taken. -/
def takeOutput (session : Session) : String × Session :=
  let ⟨machine, diagnostics⟩ := session
  (machine.sink.text, ⟨{ machine with sink := { machine.sink with text := "" } }, diagnostics⟩)

/-- Drops the diagnostics. -/
def clear (session : Session) : Session := { session with diagnostics := session.diagnostics.clear }

end Session

end Lox
