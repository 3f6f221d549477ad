import Lox.Proofs.Layout.Sessions

/-!
# What a session reports

A session holds its reports in the order in which they are made, and keeps a flag for each kind of
them.  A source is run only if nothing is wrong with it and nothing was wrong with the sources
before it: then at most one thing is reported, which is what stopped the program.  Otherwise what is
wrong with it is reported, and nothing else happens.

* `Diagnostics.Tracked`: each flag is set exactly if a report of its kind is held.
* `staticReports`: what is wrong with a source, whatever else is held.
* `Session.run_of_static`, `Session.run_of_faultless`: the two ways in which a source is run.
-/

namespace Lox

/-! ## Flags -/

namespace Diagnostics

/-- Each flag is set exactly if a report of its kind is held. -/
structure Tracked (ds : Diagnostics) : Prop where
  static : ds.hadStatic ↔ ∃ d ∈ ds.held, d.isStatic
  runtime : ds.hadRuntime ↔ ∃ d ∈ ds.held, d.isRuntime
  io : ds.hadIo ↔ ∃ d ∈ ds.held, d.isIo

theorem tracked_empty : Tracked {} := by
  constructor <;> simp

/-- A flag for one kind of reports, before and after one more of them. -/
theorem flag_report {kind : Diagnostic → Bool} {flag : Bool} {held : List Diagnostic}
    (tracks : flag ↔ ∃ d ∈ held, kind d) (d : Diagnostic) :
    (flag || kind d) ↔ ∃ e ∈ held ++ [d], kind e := by
  rw [Bool.or_eq_true, tracks]
  simp only [List.mem_append, List.mem_singleton, or_and_right, exists_or, exists_eq_left]

theorem Tracked.report {ds : Diagnostics} (tracked : ds.Tracked) (d : Diagnostic) :
    (ds.report d).Tracked where
  static := flag_report tracked.static d
  runtime := flag_report tracked.runtime d
  io := flag_report tracked.io d

theorem Tracked.extend {ds : Diagnostics} (tracked : ds.Tracked) (more : List Diagnostic) :
    (ds.extend more).Tracked := by
  induction more generalizing ds with
  | nil => exact tracked
  | cons d more ih => exact ih (tracked.report d)

theorem hadStatic_extend_of_all {ds : Diagnostics} {more : List Diagnostic}
    (static : ∀ d ∈ more, d.isStatic) (some : ds.hadStatic ∨ more ≠ []) :
    (ds.extend more).hadStatic := by
  induction more generalizing ds with
  | nil => exact some.resolve_right fun other => other rfl
  | cons d more ih =>
    obtain ⟨first, others⟩ := List.forall_mem_cons.1 static
    refine ih others (.inl ?_)
    change (ds.hadStatic || d.isStatic) = true
    rw [first, Bool.or_true]

end Diagnostics

/-! ## What is wrong with a source -/

/-- What is reported about a source: what is no token, and then what does not fit where it
stands. -/
def staticReports (source : String) : List Diagnostic :=
  (scanned source).2 ++ (parse (scanned source).1).2

theorem exists_lexical_of_mem {source : String} {d : Diagnostic} (mem : d ∈ (scanned source).2) :
    ∃ line message, d = .lexical line message := by
  obtain ⟨place, -, rfl⟩ := List.mem_map.1 mem
  exact ⟨_, _, rfl⟩

theorem exists_syntactic_of_mem {tokens : List Token} {d : Diagnostic}
    (mem : d ∈ (parse tokens).2) : ∃ token message, d = .syntactic token message := by
  obtain ⟨report, -, rfl⟩ := List.mem_map.1 mem
  exact ⟨_, _, rfl⟩

theorem isStatic_of_mem {source : String} : ∀ d ∈ staticReports source, d.isStatic := by
  intro d mem
  rcases List.mem_append.1 mem with lexical | syntactic
  · obtain ⟨line, message, rfl⟩ := exists_lexical_of_mem lexical
    rfl
  · obtain ⟨token, message, rfl⟩ := exists_syntactic_of_mem syntactic
    rfl

theorem Failure.not_isStatic (failure : Failure) :
    failure.diagnostic.isRuntime ∨ failure.diagnostic.isIo := by
  cases failure with
  | runtime line fault => exact .inl rfl
  | output error => exact .inr rfl

namespace Session

/-- Loading a source reports what is wrong with it and does nothing else. -/
theorem load_eq (source : String) (session : Session) :
    session.load source =
      ((Lox.parse (scanned source).1).1,
        ⟨session.machine, session.diagnostics.extend (staticReports source)⟩) := by
  rw [load_eq_parse, staticReports, Diagnostics.extend_append]
  rfl

/-- Nothing is run while something is wrong with a source. -/
theorem run_of_static {source : String} {session : Session}
    (fault : session.diagnostics.hadStatic ∨ staticReports source ≠ []) (fuel : Nat) :
    session.run fuel source =
      .finished ⟨session.machine, session.diagnostics.extend (staticReports source)⟩ := by
  rw [run_eq_runLoaded, load_eq, runLoaded, if_pos]
  exact Diagnostics.hadStatic_extend_of_all isStatic_of_mem fault

/-- A faultless source is run without further ado, unless a source was reported to be wrong
before. -/
theorem run_of_faultless {source : String} {statements : List Stmt}
    (scans : (scanned source).2 = []) (parses : Lox.parse (scanned source).1 = (statements, []))
    {session : Session} (fresh : session.diagnostics.hadStatic = false) (fuel : Nat) :
    session.run fuel source = session.interpret fuel statements := by
  have sound : staticReports source = [] := by rw [staticReports, scans, parses, List.append_nil]
  rw [run_eq_runLoaded, load_eq, parses, sound, runLoaded, if_neg]
  · rfl
  · exact Bool.eq_false_iff.1 fresh

/-- Running statements makes at most one report, which is not about the source itself. -/
theorem interpret_diagnostics (fuel : Nat) (statements : List Stmt) (session : Session) :
    ∃ reports : List Diagnostic,
      (session.interpret fuel statements).value.diagnostics = session.diagnostics.extend reports ∧
        reports.length ≤ 1 ∧ ∀ d ∈ reports, d.isRuntime ∨ d.isIo := by
  obtain ⟨machine, diagnostics⟩ := session
  simp only [Session.interpret]
  rcases Lox.interpret fuel statements machine with ⟨_, after⟩ | ⟨halt, after⟩
  · exact ⟨[], rfl, Nat.zero_le 1, by simp⟩
  · cases halt with
    | suspended => exact ⟨[], rfl, Nat.zero_le 1, by simp⟩
    | failure failure =>
      refine ⟨[failure.diagnostic], rfl, Nat.le_refl 1, ?_⟩
      intro d mem
      rw [List.mem_singleton.1 mem]
      exact failure.not_isStatic

/-! ## Sessions -/

theorem interpret_tracked (fuel : Nat) (statements : List Stmt) {session : Session}
    (tracked : session.diagnostics.Tracked) :
    (session.interpret fuel statements).value.diagnostics.Tracked := by
  obtain ⟨reports, same, -⟩ := session.interpret_diagnostics fuel statements
  rw [same]
  exact tracked.extend reports

/-- Every step keeps the flags right. -/
theorem Step.perform_tracked (fuel : Nat) (step : Step) {session : Session}
    (tracked : session.diagnostics.Tracked) :
    (step.perform fuel session).value.diagnostics.Tracked := by
  cases step with
  | run source =>
    have loaded : (session.load source).2.diagnostics.Tracked := by
      rw [load_eq]
      exact tracked.extend _
    rw [perform, run_eq_runLoaded, runLoaded]
    split
    · exact loaded
    · exact interpret_tracked fuel _ loaded
  | force source =>
    rw [perform, force_eq_interpret, load_eq]
    exact interpret_tracked fuel _ (tracked.extend _)
  | forceTokens tokens =>
    rw [perform, forceTokens_eq_interpret]
    exact interpret_tracked fuel _ (tracked.extend _)
  | clear => exact Diagnostics.tracked_empty

theorem afterAll_tracked (steps : List (Nat × Step)) {session : Session}
    (tracked : session.diagnostics.Tracked) : (session.afterAll steps).diagnostics.Tracked := by
  induction steps generalizing session with
  | nil => exact tracked
  | cons step rest ih => exact ih (step.2.perform_tracked step.1 tracked)

/-- How a source is run in a session, by what is held there and by what is wrong with the source. -/
structure RunsAllOrNothing (session : Session) (source : String) : Prop where
  /-- What is no token is reported first, and then what does not fit. -/
  lexical : ∀ d ∈ (scanned source).2, ∃ line message, d = .lexical line message
  syntactic : ∀ d ∈ (Lox.parse (scanned source).1).2, ∃ token message, d = .syntactic token message
  /-- If anything is or was wrong, what is wrong with the source is reported, and the machine is
  left alone. -/
  refused : session.diagnostics.hadStatic ∨ (scanned source).2 ≠ [] ∨
    (Lox.parse (scanned source).1).2 ≠ [] →
    ∀ fuel, ∃ after, session.run fuel source = .finished after ∧ after.machine = session.machine ∧
      after.diagnostics.held = session.diagnostics.held ++
        ((scanned source).2 ++ (Lox.parse (scanned source).1).2)
  /-- Otherwise there is at most one more report, which is about the run. -/
  ran : session.diagnostics.hadStatic = false → (scanned source).2 = [] →
    (Lox.parse (scanned source).1).2 = [] →
    ∀ fuel, ∃ reports, reports.length ≤ 1 ∧ (∀ d ∈ reports, d.isRuntime ∨ d.isIo) ∧
      (session.run fuel source).value.diagnostics.held = session.diagnostics.held ++ reports

theorem runsAllOrNothing (session : Session) (source : String) :
    session.RunsAllOrNothing source where
  lexical _ := exists_lexical_of_mem
  syntactic _ := exists_syntactic_of_mem
  refused fault fuel := by
    have static : session.diagnostics.hadStatic ∨ staticReports source ≠ [] := by
      refine fault.imp_right ?_
      intro either same
      obtain ⟨scans, parses⟩ := List.append_eq_nil_iff.1 same
      exact either.elim (fun wrong => wrong scans) fun wrong => wrong parses
    exact ⟨_, run_of_static static fuel, rfl, Diagnostics.held_extend _ _⟩
  ran fresh scans parses fuel := by
    rw [run_of_faultless scans (Prod.ext rfl parses) fresh]
    obtain ⟨reports, same, single, kinds⟩ :=
      session.interpret_diagnostics fuel (Lox.parse (scanned source).1).1
    refine ⟨reports, single, kinds, ?_⟩
    rw [same, Diagnostics.held_extend]

/-- In every session the flags tell which kinds of reports are held, at all times: whatever is
reported next, they still do.  A source is run all or not at all. -/
theorem flags_tracked_and_runs_allOrNothing (source : Source) (sink : Sink) (clock : Clock)
    (steps : List (Nat × Step)) :
    let session := (Session.initial source sink clock).afterAll steps
    (∀ reports, (session.diagnostics.extend reports).Tracked) ∧
      ∀ text, session.RunsAllOrNothing text := by
  intro session
  have tracked : session.diagnostics.Tracked := afterAll_tracked steps Diagnostics.tracked_empty
  exact ⟨tracked.extend, session.runsAllOrNothing⟩

end Session

end Lox
