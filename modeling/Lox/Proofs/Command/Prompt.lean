import Lox.Proofs.Command.Turns

/-!
# Lines that do nothing at the prompt

The prompt goes on until its input ends, whatever is wrong with a line.  A line that something is
wrong with leaves the machine as it was, so without it the turns before it and after it are the
same: those before it do not get to see it, and those after it do not look back at the prompt that
was shown for it.

* `Promptable`: the sessions that go on to the end of a text.
* `Prompts.without`: the turns without a line that something is wrong with.
* `wrong_line_leaves_prompt_untouched`: the session without such a line.
-/

namespace Lox.Command

/-! ## Sessions that go on to the end of a text -/

/-- The input is what is left of a text, everything can be written, and nothing is held. -/
structure Promptable (session : Session) : Prop where
  texts : ∀ line ∈ session.machine.source.lines, line ≠ .malformed
  closed : session.machine.source.ending = .closed
  unlimited : session.machine.sink.limit = none
  fresh : session.diagnostics = {}

/-- The session after a prompt, with the lines that are left. -/
def awaiting (session : Session) (rest : List Line) : Session :=
  ⟨session.machine.connectedTo { session.machine.source with lines := rest }
    { session.machine.sink with text := session.machine.sink.text ++ "> " }, session.diagnostics⟩

section

variable {fuel : Nat} {options : Options} {session after : Session} {line : String}
    {rest : List Line}

theorem Promptable.lines (promptable : Promptable session) :
    session.machine.source.lines = [] ∨
    ∃ line rest, session.machine.source.lines = .text line :: rest := by
  have texts := promptable.texts
  cases lines : session.machine.source.lines with
  | nil => exact .inl rfl
  | cons first rest =>
    cases first with
    | text line => exact .inr ⟨line, rest, rfl⟩
    | malformed =>
      rw [lines] at texts
      exact absurd rfl (texts .malformed List.mem_cons_self)

theorem write_of_unlimited {sink : Sink} (unlimited : sink.limit = none) (text : String) :
    sink.write text = .ok { sink with text := sink.text ++ text } := by
  rw [Sink.write, unlimited]

theorem promptStep_of_line (unlimited : session.machine.sink.limit = none)
    (lines : session.machine.source.lines = .text line :: rest) :
    promptStep fuel options session = answer fuel options (awaiting session rest) (.line line) := by
  have read : session.machine.source.read =
      (.line line, { session.machine.source with lines := rest }) := by
    rw [Source.read, lines]
  rw [promptStep, write_of_unlimited unlimited, read]
  rfl

theorem promptStep_of_ended (promptable : Promptable session)
    (lines : session.machine.source.lines = []) :
    promptStep fuel options session = .last (awaiting session session.machine.source.lines) ""
      (some .success) := by
  have read : session.machine.source.read = (.ended, session.machine.source) := by
    rw [Source.read, lines, promptable.closed]
  rw [promptStep, write_of_unlimited promptable.unlimited, read]
  rfl

variable {turn : PromptTurn} {turns : List PromptTurn} (runs : options.printTree = false)

include runs

/-- A turn uses up its lines, shows the prompt and its output, and leaves a session in which the
next can be taken. -/
theorem turn_accounted (promptable : Promptable session)
    (stepped : promptStep fuel options session = .turn turn after) :
    session.machine.source.lines = turn.lines ++ after.machine.source.lines ∧
      after.machine.sink.text = session.machine.sink.text ++ ("> " ++ turn.output) ∧
      Promptable after := by
  have whole := promptStep_proceeds runs fuel session
  rw [stepped] at whole
  rcases promptable.lines with ended | ⟨line, rest, lines⟩
  · rw [promptStep_of_ended promptable ended] at stepped
    cases stepped
  · rw [promptStep_of_line promptable.unlimited lines, answer_line_eq runs] at stepped
    have proceeds := (awaiting session rest).run_proceeds fuel line
    cases ran : (awaiting session rest).run fuel line with
    | suspended middle =>
      rw [ran] at stepped
      cases stepped
    | finished middle =>
      rw [ran] at stepped proceeds
      cases stepped
      refine ⟨?_, ?_, ?_⟩
      · rw [lines]
        exact congrArg (.text line :: ·) proceeds.lines_eq
      · rw [← String.append_assoc]
        exact proceeds.text_eq
      · exact ⟨fun line mem => promptable.texts line (whole.lines.subset mem),
          whole.ending.trans promptable.closed, whole.unlimited promptable.unlimited, rfl⟩

/-- At the last prompt the input has ended, or the program of the last line does not end. -/
theorem last_of_promptable {error : String} {exit? : Option Exit} (promptable : Promptable session)
    (stepped : promptStep fuel options session = .last after error exit?) (ends : exit? ≠ none) :
    session.machine.source.lines = [] := by
  rcases promptable.lines with ended | ⟨line, rest, lines⟩
  · exact ended
  · rw [promptStep_of_line promptable.unlimited lines, answer_line_eq runs] at stepped
    cases ran : (awaiting session rest).run fuel line <;> rw [ran] at stepped <;> cases stepped
    exact absurd rfl ends

/-- A line that something is wrong with does nothing but report it. -/
theorem promptStep_of_wrong (promptable : Promptable session)
    (lines : session.machine.source.lines = .text line :: rest) (wrong : staticReports line ≠ []) :
    promptStep fuel options session =
      .turn
        ⟨line, [], "", staticReports line, unconnected session.machine, unconnected session.machine⟩
        (awaiting session rest) := by
  have read : (awaiting session rest).machine.source.linesUntil
      (awaiting session rest).machine.source = [] :=
    Source.linesUntil_eq rfl
  have written :
      (awaiting session rest).machine.sink.textUntil (awaiting session rest).machine.sink = "" :=
    Sink.textUntil_eq String.append_empty.symm
  have cleared : (⟨(awaiting session rest).machine, {}⟩ : Session) = awaiting session rest := by
    rw [awaiting, promptable.fresh]
  rw [promptStep_of_line promptable.unlimited lines, answer, takeTurn_of_static runs wrong]
  dsimp only
  rw [read, written]
  exact congrArg (Prompted.turn _) cleared

namespace Prompts

theorem accounted (promptable : Promptable session)
    (prompts : Prompts fuel options session turns after) :
    session.machine.source.lines = turns.flatMap PromptTurn.lines ++ after.machine.source.lines ∧
      after.machine.sink.text = session.machine.sink.text ++ shown turns ∧ Promptable after := by
  induction prompts with
  | nil => exact ⟨rfl, String.append_empty.symm, promptable⟩
  | cons stepped _ ih =>
    obtain ⟨lines, text, next⟩ := turn_accounted runs promptable stepped
    obtain ⟨linesAfter, textAfter, last⟩ := ih next
    refine ⟨?_, ?_, last⟩
    · rw [lines, linesAfter, List.flatMap_cons, List.append_assoc]
    · rw [textAfter, text, shown_cons, String.append_assoc]

/-- The transcript of a session that came to the end of its input. -/
theorem transcript_eq (promptable : Promptable session)
    (prompts : Prompts fuel options session turns after) (ended : after.machine.source.lines = [])
    (more : Nat) (errors : String) :
    prompt fuel options (more + 1 + turns.length) session errors =
        ⟨session.machine.sink.text ++ shown turns ++ "> ", errors ++ complaints turns,
          some .success⟩ ∧
      promptTurns fuel options (more + 1 + turns.length) session = turns := by
  obtain ⟨-, text, last⟩ := prompts.accounted runs promptable
  have stepped : promptStep fuel options after = _ := promptStep_of_ended last ended
  constructor
  · rw [prompts.prompt_eq, prompt_succ, stepped, ← text]
    dsimp only
    rw [String.append_empty]
    rfl
  · rw [prompts.promptTurns_eq, promptTurns, stepped]
    exact List.append_nil turns

end Prompts

/-- A session that ends comes to the end of its input. -/
theorem exists_prompts {limit : Nat} {errors : String} (promptable : Promptable session)
    (ends : (prompt fuel options limit session errors).exit? ≠ none) :
    ∃ after more, Prompts fuel options session (promptTurns fuel options limit session) after ∧
      after.machine.source.lines = [] ∧
      limit = more + 1 + (promptTurns fuel options limit session).length := by
  induction limit generalizing session errors with
  | zero => exact absurd rfl ends
  | succ limit ih =>
    rw [prompt_succ] at ends
    rw [promptTurns]
    cases stepped : promptStep fuel options session with
    | turn turn middle =>
      rw [stepped] at ends
      obtain ⟨-, -, next⟩ := turn_accounted runs promptable stepped
      obtain ⟨after, more, prompts, ended, enough⟩ := ih next ends
      exact ⟨after, more, .cons stepped prompts, ended, congrArg (· + 1) enough⟩
    | last middle error exit? =>
      rw [stepped] at ends
      exact ⟨session, limit, .nil, last_of_promptable runs promptable stepped ends, rfl⟩

end

/-! ## A session without one of its lines -/

/-- The session with these lines to read. -/
def reading (session : Session) (lines : List Line) : Session :=
  ⟨session.machine.connectedTo { session.machine.source with lines } session.machine.sink,
    session.diagnostics⟩

/-- The session with this text written. -/
def showing (session : Session) (text : String) : Session :=
  ⟨session.machine.connectedTo session.machine.source { session.machine.sink with text },
    session.diagnostics⟩

theorem rewired_inputBehind {session : Session} {last : List Line} (nonempty : last ≠ [])
    (others front : List Line) (lines : session.machine.source.lines = front ++ last) :
    session.rewired (.inputBehind nonempty others) = reading session (front ++ others) := by
  rw [reading, ← Rewiring.replaceLast_append last others front, ← lines]
  rfl

theorem rewired_outputBefore (session : Session) (earlier : String) :
    (showing session "").rewired (.outputBefore earlier) = showing session earlier := calc
  (showing session "").rewired (.outputBefore earlier) = showing session (earlier ++ "") := rfl
  _ = showing session earlier := by rw [String.append_empty]

namespace Prompts

variable {fuel : Nat} {options : Options} {session after : Session} {turns : List PromptTurn}
  (runs : options.printTree = false)

include runs

theorem of_rewired {rewiring : Rewiring} (always : ∀ source, rewiring.Safe source)
    (prompts : Prompts fuel options (session.rewired rewiring) turns after) :
    ∃ last, Prompts fuel options session turns last ∧ after = last.rewired rewiring := by
  generalize start : session.rewired rewiring = first at prompts
  induction prompts generalizing session with
  | nil => exact ⟨session, .nil, start.symm⟩
  | cons stepped _ ih =>
    subst start
    rw [promptStep_rewired runs (always _)] at stepped
    cases inner : promptStep fuel options session with
    | turn taken next =>
      rw [inner] at stepped
      cases stepped
      obtain ⟨last, prompts, same⟩ := ih rfl
      exact ⟨last, .cons inner prompts, same⟩
    | last next error exit? =>
      rw [inner] at stepped
      cases stepped

/-- What was written before makes no difference to the turns. -/
theorem of_showing {text : String}
    (prompts : Prompts fuel options (showing session text) turns after) (other : String) :
    ∃ last, Prompts fuel options (showing session other) turns last ∧
      last.machine.source.lines = after.machine.source.lines := by
  rw [← rewired_outputBefore] at prompts
  obtain ⟨last, silent, rfl⟩ := of_rewired runs (fun _ => trivial) prompts
  refine ⟨last.rewired (.outputBefore other), ?_, rfl⟩
  rw [← rewired_outputBefore]
  exact silent.rewired runs (.outputBefore other) trivial

/-- Without a line that something is wrong with, all the other turns are the same. -/
theorem without {earlier later : List PromptTurn} {turn : PromptTurn}
    (promptable : Promptable session)
    (prompts : Prompts fuel options session (earlier ++ turn :: later) after)
    (wrong : staticReports turn.line ≠ []) :
    ∃ rest last,
      session.machine.source.lines = earlier.flatMap PromptTurn.lines ++ .text turn.line :: rest ∧
      turn = ⟨turn.line, [], "", staticReports turn.line, turn.before, turn.before⟩ ∧
      Prompts fuel options (reading session (earlier.flatMap PromptTurn.lines ++ rest))
        (earlier ++ later) last ∧
      last.machine.source.lines = after.machine.source.lines := by
  obtain ⟨middle, before, behind⟩ := prompts.split
  obtain ⟨lines, -, here⟩ := before.accounted runs promptable
  cases behind with
  | @cons _ next _ _ _ stepped further =>
    have next' : middle.machine.source.lines =
        .text turn.line :: (turn.taken ++ next.machine.source.lines) :=
      (turn_accounted runs here stepped).1
    generalize turn.taken ++ next.machine.source.lines = rest at next'
    rw [promptStep_of_wrong runs here next' wrong] at stepped
    injection stepped with sameTurn sameNext
    subst sameNext
    have nonempty : middle.machine.source.lines ≠ [] := by
      rw [next']
      exact List.cons_ne_nil _ _
    -- The turns before the line do not get to see what stands behind them.
    have first := before.rewired runs (.inputBehind nonempty rest) List.suffix_rfl
    rw [rewired_inputBehind nonempty rest _ lines, rewired_inputBehind nonempty rest [] rfl]
      at first
    -- The turns after the line do not look back at the prompt that was shown for it.
    have further :
        Prompts fuel options (showing (reading middle rest) (middle.machine.sink.text ++ "> "))
          later after := further
    obtain ⟨last, second, linesAfter⟩ := further.of_showing runs middle.machine.sink.text
    refine ⟨rest, last, ?_, ?_, first.append second, linesAfter⟩
    · rw [lines, next']
    · rw [← sameTurn]

end Prompts

theorem promptable_initial (text : String) {sink : Sink} (unlimited : sink.limit = none)
    (clock : Clock) : Promptable (.initial (.ofBytes text.toUTF8) sink clock) where
  texts := by
    rw [Source.ofBytes_toUTF8]
    intro line mem
    obtain ⟨piece, -, rfl⟩ := List.mem_map.1 mem
    exact Line.noConfusion
  closed := rfl
  unlimited := unlimited
  fresh := rfl

/-- At the prompt, a line that something is wrong with leaves the session untouched.  Without that
line, every other line is run on the same machine, reads the same lines, writes the same output and
makes the same reports.  All that is missing is one prompt and what is wrong with the line. -/
theorem wrong_line_leaves_prompt_untouched (fuel : Nat) (surroundings : Surroundings)
    (options : Options) {text : String} {earlier later : List PromptTurn} {turn : PromptTurn}
    (prompts : options.script = none) (runs : options.printTree = false)
    (input : surroundings.source = .ofBytes text.toUTF8) (writable : surroundings.sink.limit = none)
    (ends : (runWith fuel surroundings options).exit? ≠ none)
    (turns : promptTurns fuel options fuel
      (.initial surroundings.source surroundings.sink surroundings.clock) =
        earlier ++ turn :: later)
    (wrong : staticReports turn.line ≠ []) :
    ∃ front back : String,
      text = front ++ turn.line ++ back ∧ Source.linesOf front = earlier.flatMap PromptTurn.lines ∧
      let other := { surroundings with source := .ofBytes (front ++ back).toUTF8 }
      promptTurns fuel options fuel (.initial other.source other.sink other.clock) =
        earlier ++ later ∧
      turn = ⟨turn.line, [], "", staticReports turn.line, turn.before, turn.before⟩ ∧
      runWith fuel surroundings options =
        ⟨surroundings.sink.text ++ (shown earlier ++ "> " ++ shown later) ++ "> ",
          complaints earlier ++ rendered (staticReports turn.line) ++ complaints later,
          some .success⟩ ∧
      runWith fuel other options =
        ⟨surroundings.sink.text ++ (shown earlier ++ shown later) ++ "> ",
          complaints earlier ++ complaints later, some .success⟩ := by
  have prompted (around : Surroundings) : runWith fuel around options =
      prompt fuel options fuel (.initial around.source around.sink around.clock) "" := by
    simp only [runWith, prompts]
  have start := promptable_initial text writable surroundings.clock
  rw [prompted, input] at ends
  rw [input] at turns
  obtain ⟨after, more, took, ended, enough⟩ := exists_prompts runs start ends
  rw [turns] at took enough
  obtain ⟨rest, last, lines, alone, others, linesAfter⟩ := took.without runs start wrong
  have split :
      Source.linesOf text = earlier.flatMap PromptTurn.lines ++ .text turn.line :: rest := by
    rw [Source.ofBytes_toUTF8] at lines
    exact lines
  obtain ⟨front, back, whole, before, remaining⟩ := Source.exists_of_linesOf_append split
  have without : reading (.initial (.ofBytes text.toUTF8) surroundings.sink surroundings.clock)
      (earlier.flatMap PromptTurn.lines ++ rest) =
      .initial (.ofBytes (front ++ back).toUTF8) surroundings.sink surroundings.clock := by
    rw [Source.ofBytes_toUTF8 (front ++ back), Source.ofText, remaining]
    rfl
  rw [without] at others
  have fewer : fuel = more + 1 + 1 + (earlier ++ later).length := by
    rw [enough, List.length_append, List.length_append, List.length_cons]
    omega
  have transcript := took.transcript_eq runs start ended more ""
  have transcript' :=
    others.transcript_eq runs (promptable_initial (front ++ back) writable surroundings.clock)
    (linesAfter.trans ended) (more + 1) ""
  rw [← enough] at transcript
  rw [← fewer] at transcript'
  refine ⟨front, back, whole, before, transcript'.2, alone, ?_, ?_⟩
  · have silent : turn.output = "" := congrArg PromptTurn.output alone
    have reports : turn.reports = staticReports turn.line := congrArg PromptTurn.reports alone
    have output : shown (earlier ++ turn :: later) = shown earlier ++ "> " ++ shown later := by
      rw [shown_append, shown_cons, silent, String.append_empty, String.append_assoc]
    have errors : complaints (earlier ++ turn :: later) =
        complaints earlier ++ rendered (staticReports turn.line) ++ complaints later := by
      rw [complaints_append, complaints_cons, reports, String.append_assoc]
    rw [prompted, input, transcript.1, output, errors, String.empty_append]
    rfl
  · rw [prompted, transcript'.1, String.empty_append, shown_append, complaints_append]
    rfl

theorem scanned_atSign :
    scanned "@\n" = ([.ending 2], [.lexical 1 "Unexpected character '@'."]) := by
  have segments : Segment.all ['@', '\n'] =
      [⟨['@'], .fault (.unexpected '@')⟩, ⟨['\n'], .blank⟩] := by decide +kernel
  have text : "@\n".toList = ['@', '\n'] := String.toList_ofList
  simp only [scanned, scan, text, segments]
  rfl

theorem scanned_echo :
    scanned "print input();\n" =
      ([⟨⟨"print", 1⟩, .print⟩, ⟨⟨"input", 1⟩, .identifier⟩, ⟨⟨"(", 1⟩, .leftParen⟩,
      ⟨⟨")", 1⟩, .rightParen⟩, ⟨⟨";", 1⟩, .semicolon⟩, .ending 2], []) := by
  have segments :
      Segment.all ['p', 'r', 'i', 'n', 't', ' ', 'i', 'n', 'p', 'u', 't', '(', ')', ';', '\n'] =
      [⟨['p', 'r', 'i', 'n', 't'], .token .print⟩, ⟨[' '], .blank⟩,
        ⟨['i', 'n', 'p', 'u', 't'], .token .identifier⟩,
        ⟨['('], .token .leftParen⟩, ⟨[')'], .token .rightParen⟩, ⟨[';'], .token .semicolon⟩,
        ⟨['\n'], .blank⟩] := by
    decide +kernel
  have text : "print input();\n".toList =
      ['p', 'r', 'i', 'n', 't', ' ', 'i', 'n', 'p', 'u', 't', '(', ')', ';', '\n'] :=
  String.toList_ofList
  simp only [scanned, scan, text, segments]
  rfl

theorem linesOf_echo :
    Source.linesOf "@\nprint input();\nb" = [.text "@\n", .text "print input();\n", .text "b"] := by
  have text : "@\nprint input();\nb".toList =
      ['@', '\n', 'p', 'r', 'i', 'n', 't', ' ', 'i', 'n', 'p', 'u', 't', '(', ')',
        ';', '\n', 'b'] :=
    String.toList_ofList
  rw [Source.linesOf, text]
  rfl

/-- A program that echoes a line takes its turn after a line that is no program. -/
theorem exists_echo :
    let session :=
  Session.initial (.ofBytes "@\nprint input();\nb".toUTF8) {} { time := fun _ => 0 }
    ∃ wrong echo after, Prompts 9 {} session [wrong, echo] after ∧ after.machine.source.lines = [] ∧
      wrong.line = "@\n" ∧ echo.taken = [.text "b"] ∧ echo.output = "b\n" ∧ echo.reports = [] := by
  intro session
  have lines :
      session.machine.source.lines = [.text "@\n", .text "print input();\n", .text "b"] := by
    rw [← linesOf_echo]
    exact congrArg Source.lines (Source.ofBytes_toUTF8 _)
  have wrong : staticReports "@\n" ≠ [] := by
    rw [staticReports, scanned_atSign]
    exact List.cons_ne_nil _ _
  have scans : (scanned "print input();\n").2 = [] := by rw [scanned_echo]
  have parses :
      parse (scanned "print input();\n").1 = ((parse (scanned "print input();\n").1).1, []) := by
    rw [scanned_echo]
    rfl
  have first : promptStep 9 {} session = _ :=
    promptStep_of_wrong rfl (promptable_initial _ rfl _) lines wrong
  have second : ∃ echo after,
      promptStep 9 {} (awaiting session [.text "print input();\n", .text "b"]) = .turn echo after ∧
        after.machine.source.lines = [] ∧ echo.taken = [.text "b"] ∧ echo.output = "b\n" ∧
        echo.reports = [] := by
    rw [promptStep_of_line rfl rfl, answer_line_eq rfl,
      Session.run_of_faultless scans parses rfl, scanned_echo]
    exact ⟨_, _, rfl, rfl, rfl, Sink.textUntil_eq rfl, rfl⟩
  obtain ⟨echo, after, second, facts⟩ := second
  exact ⟨_, echo, after, .cons first (.cons second .nil), facts.1, rfl, facts.2⟩

/-- The first line is no program, the second is one that echoes the third. -/
theorem wrong_line_leaves_prompt_untouched_echo :
    let source := Source.ofBytes "@\nprint input();\nb".toUTF8
    let surroundings : Surroundings := ⟨fun _ => .error "", source, {}, { time := fun _ => 0 }⟩
    staticReports "@\n" = [.lexical 1 "Unexpected character '@'."] ∧
    ∃ front back : String, "@\nprint input();\nb" = front ++ "@\n" ++ back ∧
      Source.linesOf front = [] ∧ runWith 9 surroundings {} =
        ⟨"> > b\n> ", "[line 1] Error: Unexpected character '@'.\n", some .success⟩ ∧
      runWith 9 { surroundings with source := .ofBytes (front ++ back).toUTF8 } {} =
        ⟨"> b\n> ", "", some .success⟩ := by
  intro source surroundings
  have reports : staticReports "@\n" = [.lexical 1 "Unexpected character '@'."] := by
    rw [staticReports, scanned_atSign]
    rfl
  obtain ⟨wrong, echo, after, took, ended, line, taken, output, silent⟩ := exists_echo
  obtain ⟨ran, turns⟩ := took.transcript_eq rfl (promptable_initial _ rfl _) ended 6 ""
  have ends : (runWith 9 surroundings {}).exit? ≠ none := by
    have same : runWith 9 surroundings {} = _ := ran
    rw [same]
    exact Option.some_ne_none _
  have turns :
      promptTurns 9 {} 9 (.initial surroundings.source surroundings.sink surroundings.clock) =
      [] ++ wrong :: [echo] := turns
  have isWrong : staticReports wrong.line ≠ [] := by
    rw [line, reports]
    exact List.cons_ne_nil _ _
  obtain ⟨front, back, whole, before, -, -, first, second⟩ :=
    wrong_line_leaves_prompt_untouched 9 surroundings {} rfl rfl rfl rfl ends turns isWrong
  have shownEcho : shown [echo] = "> b\n" := by
    rw [shown_cons, output]
    rfl
  have complaintsEcho : complaints [echo] = "" := by
    rw [complaints_cons, silent]
    rfl
  rw [line] at whole
  rw [shownEcho, complaintsEcho] at first second
  have complaint : rendered [.lexical 1 "Unexpected character '@'."] =
      "[line 1] Error: Unexpected character '@'.\n" := by
    decide +kernel
  rw [line, reports, complaint] at first
  exact ⟨reports, front, back, whole, before, first, second⟩

end Lox.Command
