import Lox.Command.Shell
import Lox.Proofs.Machine.Printing
import Lox.Proofs.Session.Reports
import Lox.Proofs.Text.Lines

/-!
# How a script ends

A script that something is wrong with is not run, and what is wrong with it is all that is written.
Any other script is run, and what stops it is the only thing that can be reported.  So the three
kinds of reports never meet in one run, and the order in which the status looks for them makes no
difference.

* `runScript_of_static`, `runScript_of_faultless`: the two ways in which a script is run.
* `script_status_reflects_run`: what the status and the two outputs say about the run.
-/

namespace Lox.Command

/-! ## Reports as they are shown -/

theorem asLine_ne_empty (text : String) : asLine text ≠ "" := by
  intro empty
  have last := congrArg String.toList empty
  rw [asLine, String.toList_append] at last
  simp at last

theorem rendered_append (reports others : List Diagnostic) :
    rendered (reports ++ others) = rendered reports ++ rendered others := by
  simp [rendered, String.join_append]

theorem rendered_singleton (report : Diagnostic) : rendered [report] = asLine report.render := by
  simp [rendered, String.join]

theorem rendered_ne_empty {reports : List Diagnostic} (some : reports ≠ []) :
    rendered reports ≠ "" := by
  obtain ⟨report, others, rfl⟩ := List.exists_cons_of_ne_nil some
  rw [← List.singleton_append, rendered_append, rendered_singleton]
  intro empty
  exact asLine_ne_empty _ (String.append_eq_empty_iff.1 empty).1

/-! ## Turns -/

/-- How a source went, by how its program ended. -/
def Turn.ofResult (diagnostics : Diagnostics) : EStateM.Result Halt Machine Unit → Turn
  | .ok _ machine => .taken ⟨machine, diagnostics⟩ []
  | .error (.failure failure) machine =>
    .taken ⟨machine, diagnostics.report failure.diagnostic⟩ [failure.diagnostic]
  | .error .suspended machine => .suspended ⟨machine, diagnostics⟩

section

variable {options : Options} {text : String} {session : Session} (runs : options.printTree = false)

include runs

theorem takeTurn_of_static (wrong : staticReports text ≠ []) (fuel : Nat) :
    takeTurn fuel options text session =
      .taken ⟨session.machine, session.diagnostics.extend (staticReports text)⟩
        (staticReports text) := by
  simp only [takeTurn, runs, Session.run_of_static (.inr wrong) fuel]
  simp [Diagnostics.size]

theorem takeTurn_of_faultless (sound : staticReports text = [])
    (fresh : session.diagnostics.hadStatic = false) (fuel : Nat) :
    takeTurn fuel options text session =
      .ofResult session.diagnostics
        (interpret fuel (parse (scanned text).1).1 session.machine) := by
  obtain ⟨scans, parses⟩ := List.append_eq_nil_iff.1 sound
  obtain ⟨machine, diagnostics⟩ := session
  simp only [takeTurn, runs, Session.run_of_faultless scans (Prod.ext rfl parses) fresh fuel,
    Session.interpret]
  rcases interpret fuel (parse (scanned text).1).1 machine with
    ⟨_, after⟩ | ⟨failure | _, after⟩ <;>
    simp [Turn.ofResult, Diagnostics.report, Diagnostics.size]

end

/-! ## The run of a script -/

/-- The transcript of a program, by how it ended. -/
def Transcript.ofResult : EStateM.Result Halt Machine Unit → Transcript
  | .ok _ machine => ⟨machine.sink.text, "", some .success⟩
  | .error (.failure (.runtime line fault)) machine =>
    ⟨machine.sink.text, asLine (Diagnostic.runtime line fault.message).render, some .program⟩
  | .error (.failure (.output error)) machine =>
    ⟨machine.sink.text, asLine (Diagnostic.io error).render, some .io⟩
  | .error .suspended machine => ⟨machine.sink.text, "", none⟩

section

variable {options : Options} {text : String} {source : Source} {sink : Sink} {clock : Clock}

/-- With a wrong source, nothing but that is wrong. -/
theorem exit_of_static (wrong : staticReports text ≠ []) :
    Exit.ofDiagnostics (Diagnostics.extend {} (staticReports text)) = .source := by
  have tracked := Diagnostics.tracked_empty.extend (staticReports text)
  have io : ¬ (Diagnostics.extend {} (staticReports text)).hadIo := by
    rw [tracked.io, Diagnostics.held_extend]
    rintro ⟨d, mem, isIo⟩
    have static := isStatic_of_mem d mem
    cases d <;> simp [Diagnostic.isStatic, Diagnostic.isIo] at static isIo
  rw [Exit.ofDiagnostics, if_neg io,
    if_pos (Diagnostics.hadStatic_extend_of_all isStatic_of_mem (.inr wrong))]

/-- If something is wrong with the script, it is all that is written. -/
theorem runScript_of_static (runs : options.printTree = false) (wrong : staticReports text ≠ [])
    (fuel : Nat) :
    runScript fuel options text (.initial source sink clock) =
      ⟨sink.text, rendered (staticReports text), some .source⟩ := by
  rw [runScript, takeTurn_of_static runs wrong, ← exit_of_static wrong]
  rfl

/-- Otherwise the script is run. -/
theorem runScript_of_faultless (runs : options.printTree = false) (sound : staticReports text = [])
    (fuel : Nat) :
    runScript fuel options text (.initial source sink clock) =
      .ofResult (interpret fuel (parse (scanned text).1).1 (.initial source sink clock)) := by
  have machine : (Session.initial source sink clock).machine = .initial source sink clock := rfl
  rw [runScript, takeTurn_of_faultless runs sound rfl, machine]
  generalize interpret fuel (parse (scanned text).1).1 (.initial source sink clock) = result
  rcases result with ⟨_, after⟩ | ⟨(⟨line, fault⟩ | error) | _, after⟩
  · rfl
  · exact congrArg (Transcript.mk after.sink.text · (some .program))
      (rendered_singleton (.runtime line fault.message))
  · exact congrArg (Transcript.mk after.sink.text · (some .io)) (rendered_singleton (.io error))
  · rfl

end

/-! ## What the transcript of a program says -/

namespace Transcript

variable (result : EStateM.Result Halt Machine Unit)

theorem output_ofResult : (ofResult result).output = (machineAfter result).sink.text := by
  rcases result with ⟨_, after⟩ | ⟨(line | error) | _, after⟩ <;> rfl

theorem exit_ofResult_ne_source : (ofResult result).exit? ≠ some .source := by
  rcases result with ⟨_, after⟩ | ⟨(line | error) | _, after⟩ <;> simp [ofResult]

theorem exit_ofResult_eq_io_iff : (ofResult result).exit? = some .io ↔ Unwritable result := by
  rcases result with ⟨_, after⟩ | ⟨(line | error) | _, after⟩ <;>
    simp [ofResult, unwritable_error_iff, not_unwritable_ok, Halt.IsUnwritable]

theorem exit_ofResult_eq_program_iff :
    (ofResult result).exit? = some .program ↔
      ∃ line fault after, result = .error (.failure (.runtime line fault)) after := by
  rcases result with ⟨_, after⟩ | ⟨(line | error) | _, after⟩ <;> simp [ofResult]

theorem exit_ofResult_eq_none_iff :
    (ofResult result).exit? = none ↔ ∃ after, result = .error .suspended after := by
  rcases result with ⟨_, after⟩ | ⟨(line | error) | _, after⟩ <;> simp [ofResult]

/-- A program that ends reports nothing exactly if it succeeds. -/
theorem exit_ofResult_eq_success_iff (ended : (ofResult result).exit? ≠ none) :
    (ofResult result).exit? = some .success ↔ (ofResult result).errors = "" := by
  rcases result with ⟨_, after⟩ | ⟨(line | error) | _, after⟩ <;>
    simp [ofResult, asLine_ne_empty] at ended ⊢

end Transcript

/-! ## What the status of a script says -/

/-- Different ends have different statuses. -/
theorem Exit.status_injective : Function.Injective Exit.status := by
  intro one other
  cases one <;> cases other <;> decide

theorem Transcript.status_eq_iff (transcript : Transcript) (exit : Exit) :
    transcript.exit?.map Exit.status = some exit.status ↔ transcript.exit? = some exit :=
  (Option.map_injective Exit.status_injective).eq_iff' rfl

theorem scriptText_of_encoded {surroundings : Surroundings} {path text : String}
    (readable : surroundings.read path = .ok text.toUTF8) :
    scriptText surroundings path = .ok text := by
  simp only [scriptText, readable, bind, Except.bind, Source.fromUTF8?_toUTF8]

/-- The status of a script and what it writes tell how the script went.  The status is 65 exactly if
something is wrong with the script, and then this is all that is written.  Otherwise it is 74
exactly if a line could not be printed, and 70 exactly if a fault stopped the program, which is then
all that is reported, after the lines that were printed.  A script that ends has the status 0
exactly if nothing is reported, and only a suspended program does not end. -/
theorem script_status_reflects_run (fuel : Nat) (surroundings : Surroundings) (options : Options)
    {path text : String} (named : options.script = some path) (runs : options.printTree = false)
    (readable : surroundings.read path = .ok text.toUTF8) (fresh : surroundings.sink.text = "") :
    let transcript := runWith fuel surroundings options
    let status? := transcript.exit?.map Exit.status
    let machine := Machine.initial surroundings.source surroundings.sink surroundings.clock
    let program := (parse (scanned text).1).1
    let attempts := printAttempts fuel program machine
    (status? = some 65 ↔ staticReports text ≠ []) ∧
    (staticReports text ≠ [] →
      transcript.output = "" ∧
      transcript.errors = rendered ((scanned text).2 ++ (parse (scanned text).1).2)) ∧
    (staticReports text = [] →
      (status? = some 74 ↔ ∃ attempt ∈ attempts, attempt.Fails) ∧
      (status? = some 70 ↔
        ∃ line fault after, interpret fuel program machine =
          .error (.failure (.runtime line fault)) after) ∧
      ∀ line fault after, interpret fuel program machine =
        .error (.failure (.runtime line fault)) after →
        transcript.errors = asLine (Diagnostic.runtime line fault.message).render ∧
        transcript.output = String.join (attempts.map fun attempt => asLine attempt.text)) ∧
    (transcript.exit? = none ↔
      staticReports text = [] ∧ ∃ after, interpret fuel program machine = .error .suspended after) ∧
    (transcript.exit? ≠ none → (status? = some 0 ↔ transcript.errors = "")) := by
  intro transcript status? machine program attempts
  have accounts := interpret_accounted fuel program machine
  have status (exit : Exit) : status? = some exit.status ↔ transcript.exit? = some exit :=
    transcript.status_eq_iff exit
  have script : transcript =
      runScript fuel options text
        (.initial surroundings.source surroundings.sink surroundings.clock) := by
    simp only [transcript, runWith, named, scriptText_of_encoded readable]
  by_cases sound : staticReports text = []
  · have ran : transcript = .ofResult (interpret fuel program machine) :=
      script.trans (runScript_of_faultless runs sound fuel)
    rw [ran] at status ⊢
    refine ⟨?_, fun wrong => absurd sound wrong, fun _ => ⟨?_, ?_, ?_⟩, ?_, ?_⟩
    · exact (status .source).trans
        (iff_of_false (Transcript.exit_ofResult_ne_source _) (not_not_intro sound))
    · exact (status .io).trans ((Transcript.exit_ofResult_eq_io_iff _).trans accounts.unwritable)
    · exact (status .program).trans (Transcript.exit_ofResult_eq_program_iff _)
    · intro line fault after stopped
      have printed : ∀ attempt ∈ attempts, ¬ attempt.Fails := by
        intro attempt mem fails
        obtain ⟨halt, other, same, error, rfl⟩ := accounts.unwritable.2 ⟨attempt, mem, fails⟩
        rw [stopped] at same
        cases same
      have empty : machine.sink.text = "" := fresh
      rw [Transcript.output_ofResult, accounts.output, empty, String.empty_append,
        allWritten_of_not_fails printed]
      rw [stopped]
      exact ⟨rfl, rfl⟩
    · rw [Transcript.exit_ofResult_eq_none_iff, and_iff_right sound]
    · intro ended
      exact (status .success).trans (Transcript.exit_ofResult_eq_success_iff _ ended)
  · have refused :
        transcript = ⟨surroundings.sink.text, rendered (staticReports text), some .source⟩ :=
      script.trans (runScript_of_static runs sound fuel)
    rw [refused] at status ⊢
    refine ⟨?_, fun _ => ⟨fresh, rfl⟩, fun faultless => absurd faultless sound, ?_, fun _ => ?_⟩
    · exact (status .source).trans (iff_of_true rfl sound)
    · exact iff_of_false (by simp) fun suspended => sound suspended.1
    · exact (status .success).trans (iff_of_false (by simp) (rendered_ne_empty sound))

theorem scanned_unknownName :
    scanned "print nil;a;" = ([⟨⟨"print", 1⟩, .print⟩, ⟨⟨"nil", 1⟩, .nil⟩, ⟨⟨";", 1⟩, .semicolon⟩,
      ⟨⟨"a", 1⟩, .identifier⟩, ⟨⟨";", 1⟩, .semicolon⟩, .ending 1], []) := by
  have segments : Segment.all ['p', 'r', 'i', 'n', 't', ' ', 'n', 'i', 'l', ';', 'a', ';'] =
      [⟨['p', 'r', 'i', 'n', 't'], .token .print⟩, ⟨[' '], .blank⟩, ⟨['n', 'i', 'l'], .token .nil⟩,
        ⟨[';'], .token .semicolon⟩, ⟨['a'], .token .identifier⟩, ⟨[';'], .token .semicolon⟩] := by
          decide +kernel
  have text :
      "print nil;a;".toList = ['p', 'r', 'i', 'n', 't', ' ', 'n', 'i', 'l', ';', 'a', ';'] :=
    String.toList_ofList
  simp only [scanned, scan, text, segments]
  rfl

/-- A script that prints a line and then uses a name that is not declared. -/
theorem script_status_reflects_run_unknownName :
    let surroundings : Surroundings :=
  ⟨fun _ => .ok "print nil;a;".toUTF8, {}, {}, { time := fun _ => 0 }⟩
    let transcript := runWith 9 surroundings { script := some "s" }
    staticReports "print nil;a;" = [] ∧ transcript.exit?.map Exit.status = some 70 ∧
      transcript.errors = "Undefined variable 'a'.\n[line 1]\n" ∧ transcript.output = "nil\n" := by
  intro surroundings transcript
  have sound : staticReports "print nil;a;" = [] := by
    rw [staticReports, scanned_unknownName]
    rfl
  have stopped : ∃ after,
      interpret 9 (parse (scanned "print nil;a;").1).1 (.initial {} {} { time := fun _ => 0 }) =
      .error (.failure (.runtime 1 (.undefinedVariable "a"))) after := by
    rw [scanned_unknownName]
    exact ⟨_, rfl⟩
  have printed :
      (printAttempts 9 (parse (scanned "print nil;a;").1).1
        (.initial {} {} { time := fun _ => 0 })).map
      (fun attempt => asLine attempt.text) = ["nil\n"] := by
    rw [scanned_unknownName]
    rfl
  obtain ⟨after, stopped⟩ := stopped
  obtain ⟨-, -, faultless, -⟩ :=
    script_status_reflects_run 9 surroundings { script := some "s" } rfl rfl rfl rfl
  obtain ⟨-, status, written⟩ := faultless sound
  obtain ⟨errors, output⟩ := written 1 (.undefinedVariable "a") after stopped
  refine ⟨sound, status.2 ⟨_, _, _, stopped⟩, errors.trans ?_, ?_⟩
  · decide +kernel
  · rw [output, printed]
    rfl

end Lox.Command
