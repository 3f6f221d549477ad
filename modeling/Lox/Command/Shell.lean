import Lox.Command.Arguments
import Lox.Session

/-!
# The command

What the command does, as a function of its arguments and of what it is connected to.  It runs a
script, or it prompts for lines and runs each of them in one session, or it shows the tree of an
expression.
-/

namespace Lox.Command

/-- How the command ends. -/
inductive Exit where
  | success
  /-- The arguments are wrong. -/
  | usage
  /-- The source is wrong. -/
  | source
  /-- The program stopped with a fault. -/
  | program
  /-- Something could not be read or written. -/
  | io
deriving DecidableEq, Repr

/-- The status that is left to the caller of the command. -/
def Exit.status : Exit → Nat
  | .success => 0
  | .usage => 64
  | .source => 65
  | .program => 70
  | .io => 74

/-- What the command is connected to. -/
structure Surroundings where
  /-- The contents of a file, or why they cannot be read. -/
  read : String → Except String ByteArray
  source : Source
  sink : Sink
  clock : Clock

/-- What the command wrote, and how it ended, if it did.  Reports can always be written here: that a
report cannot be, which ends the command with `Exit.io` at once, is left to the executable. -/
structure Transcript where
  output : String
  errors : String
  exit? : Option Exit
deriving DecidableEq, Repr

/-- How a source went. -/
inductive Turn where
  /-- It was dealt with, and these are the reports on it. -/
  | taken (session : Session) (reports : List Diagnostic)
  /-- The tree could not be written. -/
  | unwritable (session : Session) (error : String)
  | suspended (session : Session)

/-- A text on a line of its own. -/
def asLine (text : String) : String := text ++ "\n"

/-- Reports as they are shown. -/
def rendered (reports : List Diagnostic) : String :=
  String.join (reports.map fun report => asLine report.render)

/-- Writes the tree of the expression that a source is, or reports what is wrong with it. -/
def showTree (source : String) (session : Session) : Turn :=
  let (tokens, faults) := scanned source
  let session := { session with diagnostics := session.diagnostics.extend faults }
  if session.diagnostics.hadStatic then .taken session faults
  else
    match parseExpression tokens with
    | .error report =>
      .taken { session with diagnostics := session.diagnostics.report report } [report]
    | .ok expression =>
      match session.machine.sink.writeLine expression.render with
      | .ok _ sink => .taken { session with machine := { session.machine with sink } } []
      | .error error sink =>
        .unwritable { session with machine := { session.machine with sink } } error

/-- Deals with a source as the options say. -/
def takeTurn (fuel : Nat) (options : Options) (source : String) (session : Session) : Turn :=
  if options.printTree then showTree source session
  else
    let held := session.diagnostics.size
    match session.run fuel source with
    | .finished session => .taken session (session.diagnostics.held.drop held)
    | .suspended session => .suspended session

/-- The end of a session, after the given errors have been written. -/
def Transcript.ofSession (session : Session) (errors : String) (exit? : Option Exit) : Transcript :=
  { output := session.machine.sink.text, errors, exit? }

/-- How the run of a script ends, by what was reported. -/
def Exit.ofDiagnostics (diagnostics : Diagnostics) : Exit :=
  if diagnostics.hadIo then .io
  else if diagnostics.hadStatic then .source
  else if diagnostics.hadRuntime then .program
  else .success

/-- Runs a script.  A report that cannot be written has no counterpart here: see `Transcript`. -/
def runScript (fuel : Nat) (options : Options) (text : String) (session : Session) : Transcript :=
  match takeTurn fuel options text session with
  | .taken session reports =>
    .ofSession session (rendered reports) (some (.ofDiagnostics session.diagnostics))
  | .unwritable session error => .ofSession session (asLine error) (some .io)
  | .suspended session => .ofSession session "" none

/-- Prompts for a line and runs it, at most `turns` times, until the input ends.  A line that goes
wrong does not stop the lines after it.  As in `runScript`, its reports can always be written. -/
def prompt (fuel : Nat) (options : Options) : Nat → Session → String → Transcript
  | 0, session, errors => .ofSession session errors none
  | turns + 1, session, errors =>
    let ⟨machine, diagnostics⟩ := session
    match machine.sink.write "> " with
    | .error error => .ofSession ⟨machine, diagnostics⟩ (errors ++ asLine error) (some .io)
    | .ok sink =>
      let (reading, source) := machine.source.read
      let session : Session := ⟨{ machine with sink, source }, diagnostics⟩
      match reading with
      | .ended => .ofSession session errors (some .success)
      | .failed error => .ofSession session (errors ++ asLine error) (some .io)
      | .pending => .ofSession session errors none
      | .line text =>
        match takeTurn fuel options text session with
        | .taken session reports =>
          prompt fuel options turns session.clear (errors ++ rendered reports)
        | .unwritable session error => .ofSession session (errors ++ asLine error) (some .io)
        | .suspended session => .ofSession session errors none

/-- The text of a script, or why it cannot be read. -/
def scriptText (surroundings : Surroundings) (path : String) : Except String String := do
  match String.fromUTF8? (← surroundings.read path) with
  | some text => .ok text
  | none => .error "stream did not contain valid UTF-8"

/-- What is shown to who asks for help. -/
def helpText : String :=
  String.join <| List.map asLine [
    "Tree-walking interpreter for Lox",
    "",
    "Usage: loxwalk [OPTIONS] [SCRIPT]",
    "",
    "Arguments:",
    "  [SCRIPT]  Script to run. Starts an interactive prompt when omitted",
    "",
    "Options:",
    "      --print-ast  Parse the input as a single expression and print its syntax tree " ++
      "instead of running it",
    "  -v, --verbose    ",
    "  -h, --help       Print help",
    "  -V, --version    Print version"]

/-- The version of the command. -/
def versionText : String := "loxwalk 0.1.0\n"

/-- What is shown to who misuses the command. -/
def misuseText (misuse : Misuse) : String :=
  "error: " ++ misuse.message ++
    "\n\nUsage: loxwalk [OPTIONS] [SCRIPT]\n\nFor more information, try '--help'.\n"

/-- Writes a text and succeeds, whether or not the text can be written. -/
def tell (text : String) (sink : Sink) : Transcript :=
  let output := match sink.write text with
    | .ok after => after.text
    | .error _ => sink.text
  { output, errors := "", exit? := some .success }

/-- The command with the options that it was given.  The fuel bounds the number of prompts and what
each source may use. -/
def runWith (fuel : Nat) (surroundings : Surroundings) (options : Options) : Transcript :=
  let session := Session.initial surroundings.source surroundings.sink surroundings.clock
  match options.script with
  | none => prompt fuel options fuel session ""
  | some path =>
    match scriptText surroundings path with
    | .ok text => runScript fuel options text session
    | .error error => { output := "", errors := asLine error, exit? := some .io }

/-- The command. -/
def run (fuel : Nat) (surroundings : Surroundings) (arguments : List String) : Transcript :=
  match Request.ofArguments arguments with
  | .help => tell helpText surroundings.sink
  | .version => tell versionText surroundings.sink
  | .misuse misuse => { output := "", errors := misuseText misuse, exit? := some .usage }
  | .run options => runWith fuel surroundings options

end Lox.Command
