import Lox.Proofs.Command.Script

/-!
# Turns at the prompt

At the prompt one line is read and run after the other, and the program that a line is may read
lines of its own.  Each turn is told by its line, by what its program read, wrote and reported, and
by the machine before and after it.  What a line does is settled by the machine and by the lines
that it reads: with other lines behind these, and with other output before its own, it takes the
same turn.

* `promptStep`: one prompt.  `prompt_succ`: the command takes one after the other.
* `promptStep_rewired`: a prompt with other input and output.
* `Prompts`: the turns that lead from one session to another.
-/

namespace Lox

/-! ## What is read and written between two times -/

/-- The lines that were read between the first source and the second. -/
def Source.linesUntil (before after : Source) : List Line :=
  before.lines.take (before.lines.length - after.lines.length)

/-- What was written between the first sink and the second. -/
def Sink.textUntil (before after : Sink) : String :=
  String.ofList (after.text.toList.drop before.text.toList.length)

theorem Source.linesUntil_eq {before after : Source} {taken : List Line}
    (lines : before.lines = taken ++ after.lines) : before.linesUntil after = taken := by
  have length : before.lines.length - after.lines.length = taken.length := by
    rw [lines, List.length_append]
    omega
  rw [linesUntil, length, lines, List.take_left']
  rfl

theorem Sink.textUntil_eq {before after : Sink} {more : String}
    (text : after.text = before.text ++ more) : before.textUntil after = more := by
  rw [textUntil, text, String.toList_append, List.drop_left', String.ofList_toList]
  rfl

namespace Machine.Proceeds

variable {before after : Machine}

theorem lines_eq (proceeds : before.Proceeds after) :
    before.source.lines = before.source.linesUntil after.source ++ after.source.lines := by
  obtain ⟨taken, lines⟩ := proceeds.lines
  rw [Source.linesUntil_eq lines.symm, lines]

theorem text_eq (proceeds : before.Proceeds after) :
    after.sink.text = before.sink.text ++ before.sink.textUntil after.sink := by
  obtain ⟨more, text⟩ := proceeds.output
  rw [Sink.textUntil_eq text, text]

end Machine.Proceeds

/-! ## Sources in a session with other input and output -/

/-- The same progress of something else. -/
def Progress.map {α β : Type} (f : α → β) : Progress α → Progress β
  | .finished value => .finished (f value)
  | .suspended value => .suspended (f value)

namespace Session

/-- The session with other input and output. -/
def rewired (rewiring : Rewiring) (session : Session) : Session :=
  ⟨rewiring.apply session.machine, session.diagnostics⟩

variable {rewiring : Rewiring} {fuel : Nat} {session : Session}

theorem run_proceeds (fuel : Nat) (source : String) (session : Session) :
    session.machine.Proceeds (session.run fuel source).value.machine := by
  have machine := Step.machine_perform fuel session (.run source)
  change (session.run fuel source).value.machine = _ at machine
  rw [machine]
  exact interpret_proceeds fuel _ session.machine

theorem interpret_rewired {statements : List Stmt}
    (safe : rewiring.Safe (session.interpret fuel statements).value.machine.source) :
    (session.rewired rewiring).interpret fuel statements =
      (session.interpret fuel statements).map (rewired rewiring) := by
  rw [Step.machine_interpret] at safe
  have same := Rewiring.unnoticed_interpret fuel statements safe
  obtain ⟨machine, diagnostics⟩ := session
  simp only [Session.interpret, rewired, same]
  rcases Lox.interpret fuel statements machine with ⟨_, after⟩ | ⟨failure | _, after⟩ <;> rfl

theorem run_rewired {source : String}
    (safe : rewiring.Safe (session.run fuel source).value.machine.source) :
    (session.rewired rewiring).run fuel source = (session.run fuel source).map
    (rewired rewiring) := by
  rw [run_eq_runLoaded, load_eq, runLoaded] at safe ⊢
  rw [run_eq_runLoaded, load_eq, runLoaded]
  have same : (session.rewired rewiring).diagnostics = session.diagnostics := rfl
  rw [same]
  split
  · rfl
  · next faultless =>
    rw [if_neg faultless] at safe
    exact interpret_rewired safe

end Session

namespace Command

/-! ## One prompt -/

/-- A line that was read at the prompt, and what came of it. -/
structure PromptTurn where
  line : String
  /-- What the program of the line read. -/
  taken : List Line
  /-- What it wrote. -/
  output : String
  reports : List Diagnostic
  /-- The machine before and after the turn, connected to nothing. -/
  before : Machine
  after : Machine

/-- All the lines that a turn uses up. -/
def PromptTurn.lines (turn : PromptTurn) : List Line := .text turn.line :: turn.taken

/-- The machine, connected to nothing. -/
def unconnected (machine : Machine) : Machine := machine.connectedTo {} {}

/-- What comes of a prompt: a turn, or the end of the command. -/
inductive Prompted where
  | turn (turn : PromptTurn) (session : Session)
  | last (session : Session) (error : String) (exit? : Option Exit)

namespace Prompted

/-- The session that is left. -/
def session : Prompted → Session
  | .turn _ session => session
  | .last session _ _ => session

/-- The same with other input and output. -/
def rewired (rewiring : Rewiring) : Prompted → Prompted
  | .turn taken session => .turn taken (session.rewired rewiring)
  | .last session error exit? => .last (session.rewired rewiring) error exit?

end Prompted

/-- Takes up what was read at the prompt. -/
def answer (fuel : Nat) (options : Options) (ready : Session) : Reading → Prompted
  | .ended => .last ready "" (some .success)
  | .failed error => .last ready (asLine error) (some .io)
  | .pending => .last ready "" none
  | .line text =>
    match takeTurn fuel options text ready with
    | .taken after reports =>
      .turn
        { line := text
          taken := ready.machine.source.linesUntil after.machine.source
          output := ready.machine.sink.textUntil after.machine.sink
          reports
          before := unconnected ready.machine
          after := unconnected after.machine }
        after.clear
    | .unwritable after error => .last after (asLine error) (some .io)
    | .suspended after => .last after "" none

/-- Prompts for a line and runs it. -/
def promptStep (fuel : Nat) (options : Options) (session : Session) : Prompted :=
  match session.machine.sink.write "> " with
  | .error error => .last session (asLine error) (some .io)
  | .ok sink =>
    answer fuel options ⟨session.machine.connectedTo session.machine.source.read.2 sink,
      session.diagnostics⟩
      session.machine.source.read.1

/-- The command prompts until it is at its end. -/
theorem prompt_succ (fuel : Nat) (options : Options) (turns : Nat) (session : Session)
    (errors : String) :
    prompt fuel options (turns + 1) session errors =
      match promptStep fuel options session with
      | .turn turn after => prompt fuel options turns after (errors ++ rendered turn.reports)
      | .last after error exit? => .ofSession after (errors ++ error) exit? := by
  obtain ⟨machine, diagnostics⟩ := session
  rw [prompt, promptStep]
  cases machine.sink.write "> " with
  | error error => rfl
  | ok sink =>
    dsimp only
    rcases machine.source.read with ⟨reading, source⟩
    cases reading with
    | ended => simp only [answer, String.append_empty, Machine.connectedTo]
    | failed error => rfl
    | pending => simp only [answer, String.append_empty, Machine.connectedTo]
    | line text =>
      simp only [answer, Machine.connectedTo]
      cases takeTurn fuel options text ⟨{ machine with sink, source }, diagnostics⟩ with
      | taken after reports => rfl
      | unwritable after error => rfl
      | suspended after => simp only [String.append_empty]

/-! ## Prompts with other input and output -/

section

variable {fuel : Nat} {options : Options} {session : Session} (runs : options.printTree = false)

include runs

/-- What comes of a line that is run. -/
theorem answer_line_eq (session : Session) (line : String) :
    answer fuel options session (.line line) =
      match session.run fuel line with
      | .finished after =>
        .turn
          { line
            taken := session.machine.source.linesUntil after.machine.source
            output := session.machine.sink.textUntil after.machine.sink
            reports := after.diagnostics.held.drop session.diagnostics.size
            before := unconnected session.machine
            after := unconnected after.machine }
          after.clear
      | .suspended after => .last after "" none := by
  rw [answer, takeTurn, runs]
  cases session.run fuel line <;> rfl

theorem answer_proceeds (reading : Reading) :
    session.machine.Proceeds (answer fuel options session reading).session.machine := by
  cases reading with
  | line text =>
    have proceeds := session.run_proceeds fuel text
    rw [answer_line_eq runs]
    cases ran : session.run fuel text <;> rw [ran] at proceeds <;> exact proceeds
  | _ => exact .refl _

theorem promptStep_proceeds (fuel : Nat) (session : Session) :
    session.machine.Proceeds (promptStep fuel options session).session.machine := by
  rw [promptStep]
  split
  · exact .refl _
  · next sink written =>
    refine .trans ⟨session.machine.source.read_lines, session.machine.source.read_ending, ?_, ?_⟩
      (answer_proceeds runs _)
    · exact ⟨"> ", Sink.text_of_write written⟩
    · exact Sink.limit_of_write written

/-- With other input and output, an answer makes the same turn. -/
theorem answer_rewired {rewiring : Rewiring} {reading : Reading}
    (safe : rewiring.Safe (answer fuel options session reading).session.machine.source) :
    answer fuel options (session.rewired rewiring) reading =
      (answer fuel options session reading).rewired rewiring := by
  cases reading with
  | line text =>
    have proceeds := session.run_proceeds fuel text
    rw [answer_line_eq runs] at safe ⊢
    rw [answer_line_eq runs]
    cases ran : session.run fuel text with
    | finished after =>
      rw [ran] at safe proceeds
      have same :
          (session.rewired rewiring).run fuel text = .finished (after.rewired rewiring) := by
        rw [Session.run_rewired (by rw [ran]; exact safe), ran]
        rfl
      -- What was read and written is told by differences, and these are the same for the other
      -- input and output.
      have read : (session.rewired rewiring).machine.source.linesUntil
          (after.rewired rewiring).machine.source =
          session.machine.source.linesUntil after.machine.source :=
        Source.linesUntil_eq (rewiring.lines_eq safe proceeds.lines_eq)
      have written :
          (session.rewired rewiring).machine.sink.textUntil (after.rewired rewiring).machine.sink =
          session.machine.sink.textUntil after.machine.sink :=
        Sink.textUntil_eq (rewiring.text_eq proceeds.text_eq)
      rw [same]
      dsimp only
      rw [read, written]
      rfl
    | suspended after =>
      rw [ran] at safe
      have same :
          (session.rewired rewiring).run fuel text = .suspended (after.rewired rewiring) := by
        rw [Session.run_rewired (by rw [ran]; exact safe), ran]
        rfl
      rw [same]
      rfl
  | _ => rfl

/-- With other input and output, a prompt leads to the same turn. -/
theorem promptStep_rewired {rewiring : Rewiring}
    (safe : rewiring.Safe (promptStep fuel options session).session.machine.source) :
    promptStep fuel options (session.rewired rewiring) =
      (promptStep fuel options session).rewired rewiring := by
  have wrote := rewiring.write_eq session.machine.sink "> "
  change (session.rewired rewiring).machine.sink.write "> " = _ at wrote
  rw [promptStep] at safe ⊢
  rw [promptStep, wrote]
  cases written : session.machine.sink.write "> " with
  | error error => rfl
  | ok sink =>
    rw [written] at safe
    have safeRead : rewiring.Safe session.machine.source.read.2 :=
      rewiring.safe_of_suffix (answer_proceeds runs _).lines safe
    have read := rewiring.read_eq safeRead
    change (session.rewired rewiring).machine.source.read = _ at read
    rw [read]
    exact answer_rewired runs safe

end

/-! ## Turns one after the other -/

/-- The turns lead from the one session to the other. -/
inductive Prompts (fuel : Nat) (options : Options) :
    Session → List PromptTurn → Session → Prop where
  | nil {session : Session} : Prompts fuel options session [] session
  | cons {session middle after : Session} {turn : PromptTurn} {turns : List PromptTurn} :
      promptStep fuel options session = .turn turn middle →
      Prompts fuel options middle turns after → Prompts fuel options session (turn :: turns) after

/-- The turns that the command takes. -/
def promptTurns (fuel : Nat) (options : Options) : Nat → Session → List PromptTurn
  | 0, _ => []
  | turns + 1, session =>
    match promptStep fuel options session with
    | .turn turn after => turn :: promptTurns fuel options turns after
    | .last .. => []

/-- What is shown in turns. -/
def shown (turns : List PromptTurn) : String :=
  String.join (turns.map fun turn => "> " ++ turn.output)

/-- What is reported in turns. -/
def complaints (turns : List PromptTurn) : String := rendered (turns.flatMap PromptTurn.reports)

theorem shown_append (turns others : List PromptTurn) :
    shown (turns ++ others) = shown turns ++ shown others := by
  rw [shown, List.map_append, String.join_append, shown, shown]

theorem shown_cons (turn : PromptTurn) (turns : List PromptTurn) :
    shown (turn :: turns) = "> " ++ turn.output ++ shown turns := by
  rw [← List.singleton_append, shown_append]
  simp [shown]

theorem complaints_append (turns others : List PromptTurn) :
    complaints (turns ++ others) = complaints turns ++ complaints others := by
  rw [complaints, List.flatMap_append, rendered_append, complaints, complaints]

theorem complaints_cons (turn : PromptTurn) (turns : List PromptTurn) :
    complaints (turn :: turns) = rendered turn.reports ++ complaints turns := by
  rw [complaints, List.flatMap_cons, rendered_append, complaints]

namespace Prompts

variable {fuel : Nat} {options : Options} {session middle after : Session}
    {turns others : List PromptTurn}

theorem split (prompts : Prompts fuel options session (turns ++ others) after) :
    ∃ middle, Prompts fuel options session turns middle ∧
      Prompts fuel options middle others after := by
  induction turns generalizing session with
  | nil => exact ⟨session, .nil, prompts⟩
  | cons turn turns ih =>
    cases prompts with
    | cons stepped rest =>
      obtain ⟨middle, first, second⟩ := ih rest
      exact ⟨middle, .cons stepped first, second⟩

theorem append (first : Prompts fuel options session turns middle)
    (second : Prompts fuel options middle others after) :
    Prompts fuel options session (turns ++ others) after := by
  induction first with
  | nil => exact second
  | cons stepped _ ih => exact .cons stepped (ih second)

theorem prompt_eq (prompts : Prompts fuel options session turns after) (more : Nat)
    (errors : String) :
    prompt fuel options (more + turns.length) session errors =
      prompt fuel options more after (errors ++ complaints turns) := by
  induction prompts generalizing errors with
  | nil =>
    have none : complaints [] = "" := rfl
    rw [none, String.append_empty, List.length_nil, Nat.add_zero]
  | cons stepped _ ih =>
    rw [List.length_cons, ← Nat.add_assoc, prompt_succ, stepped]
    dsimp only
    rw [ih, complaints_cons, String.append_assoc]

theorem promptTurns_eq (prompts : Prompts fuel options session turns after) (more : Nat) :
    promptTurns fuel options (more + turns.length) session =
      turns ++ promptTurns fuel options more after := by
  induction prompts with
  | nil => rfl
  | cons stepped _ ih =>
    rw [List.length_cons, ← Nat.add_assoc, promptTurns, stepped]
    dsimp only
    rw [ih]
    rfl

variable (runs : options.printTree = false)

include runs

theorem proceeds (prompts : Prompts fuel options session turns after) :
    session.machine.Proceeds after.machine := by
  induction prompts with
  | nil => exact .refl _
  | @cons session middle after turn turns stepped _ ih =>
    have first := promptStep_proceeds runs fuel session
    rw [stepped] at first
    exact first.trans ih

theorem rewired (prompts : Prompts fuel options session turns after) (rewiring : Rewiring)
    (safe : rewiring.Safe after.machine.source) :
    Prompts fuel options (session.rewired rewiring) turns (after.rewired rewiring) := by
  induction prompts with
  | nil => exact .nil
  | @cons session middle after turn turns stepped rest ih =>
    have safeMiddle : rewiring.Safe middle.machine.source :=
      rewiring.safe_of_suffix (rest.proceeds runs).lines safe
    have same := promptStep_rewired runs (by rw [stepped]; exact safeMiddle)
    rw [stepped] at same
    exact .cons same (ih safe)

end Prompts

end Command

end Lox
