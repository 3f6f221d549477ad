/-!
# Command-line arguments

Arguments are taken from left to right, and the first that settles what to do, a misuse included,
settles it.
-/

namespace Lox.Command

/-- What can be switched on. -/
inductive Flag where
  | printTree
  | verbose
  | help
  | version
deriving DecidableEq, Repr

/-- What to run, and how. -/
structure Options where
  /-- The script to run.  Without one, lines are read from the input and run. -/
  script : Option String := none
  /-- Show the tree of an expression in place of running a program. -/
  printTree : Bool := false
  verbose : Bool := false
deriving DecidableEq, Repr

/-- What is wrong with an argument. -/
inductive Misuse where
  | unknown (argument : String)
  | repeated (argument : String)
  | unwantedValue (argument : String)
  | secondScript (argument : String)
  | emptyScript
deriving DecidableEq, Repr

/-- What an invocation asks for. -/
inductive Request where
  | run (options : Options)
  | help
  | version
  | misuse (misuse : Misuse)
deriving DecidableEq, Repr

namespace Flag

/-- The flag with a name of several letters. -/
def ofName? : String → Option Flag
  | "print-ast" => some .printTree
  | "verbose" => some .verbose
  | "help" => some .help
  | "version" => some .version
  | _ => none

/-- The flag with a name of one letter. -/
def ofLetter? : Char → Option Flag
  | 'v' => some .verbose
  | 'h' => some .help
  | 'V' => some .version
  | _ => none

/-- Switches a flag on.  Some flags settle what to do, and no flag can be given twice. -/
def apply (options : Options) (argument : String) : Flag → Except Request Options
  | .printTree =>
    if options.printTree then .error (.misuse (.repeated argument))
      else .ok { options with printTree := true }
  | .verbose =>
    if options.verbose then .error (.misuse (.repeated argument))
      else .ok { options with verbose := true }
  | .help => .error .help
  | .version => .error .version

end Flag

namespace Options

/-- Takes an argument that is no option. -/
def takeScript (options : Options) (argument : String) : Except Request Options :=
  if options.script.isSome then .error (.misuse (.secondScript argument))
  else if argument.isEmpty then .error (.misuse .emptyScript)
  else .ok { options with script := some argument }

/-- Takes an option with a name of several letters, given what follows the dashes. -/
def takeName (options : Options) (argument : String) (cs : List Char) : Except Request Options :=
  match Flag.ofName? (String.ofList (cs.takeWhile (· != '='))) with
  | none => .error (.misuse (.unknown argument))
  | some flag =>
    if cs.contains '=' then .error (.misuse (.unwantedValue argument))
      else flag.apply options argument

/-- Takes options with names of one letter each. -/
def takeLetters (options : Options) (argument : String) : List Char → Except Request Options
  | [] => .ok options
  | c :: cs =>
    match Flag.ofLetter? c with
    | none => .error (.misuse (.unknown argument))
    | some flag => do takeLetters (← flag.apply options argument) argument cs

/-- Takes an argument.  A dash alone is no option. -/
def take (options : Options) (argument : String) : Except Request Options :=
  match argument.toList with
  | '-' :: '-' :: cs => options.takeName argument cs
  | '-' :: c :: cs => options.takeLetters argument (c :: cs)
  | _ => options.takeScript argument

/-- Takes arguments in order.  Two dashes alone say that no options follow. -/
def takeAll (options : Options) : List String → Except Request Options
  | [] => .ok options
  | "--" :: rest => rest.foldlM takeScript options
  | argument :: rest => do takeAll (← options.take argument) rest

end Options

/-- What the arguments ask for. -/
def Request.ofArguments (arguments : List String) : Request :=
  match Options.takeAll {} arguments with
  | .ok options => .run options
  | .error request => request

/-- The wording of a misuse. -/
def Misuse.message : Misuse → String
  | .unknown argument => "unexpected argument '" ++ argument ++ "' found"
  | .repeated argument => "the argument '" ++ argument ++ "' cannot be used multiple times"
  | .unwantedValue argument =>
    "unexpected value in '" ++ argument ++ "' found; no more were expected"
  | .secondScript argument => "unexpected argument '" ++ argument ++ "' found"
  | .emptyScript => "a value is required for '[SCRIPT]' but none was supplied"

end Lox.Command
