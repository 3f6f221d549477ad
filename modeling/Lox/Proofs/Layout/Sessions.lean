import Lox.Proofs.Layout.Parsing
import Lox.Proofs.Layout.Running
import Lox.Proofs.Machine.Trace
import Mathlib.Data.List.Forall2

/-!
# Sessions over sources that are laid out differently

Two sources that scan to the same tokens and faults, on whatever lines, mean the same.  Two sessions
that are given such sources in turn do the same in each step: only the line numbers differ, in the
reports and in what is stored.
-/

namespace Lox

variable {f : Nat → Nat}

instance {α : Type} [Lined α] : Lined (Progress α) where
  reline f
    | .finished value => .finished (reline f value)
    | .suspended value => .suspended (reline f value)
  reline_reline f g progress := by cases progress <;> simp only [reline_reline]

/-! ## Reports -/

namespace Diagnostics

variable (diagnostics : Diagnostics)

theorem report_reline (d : Diagnostic) :
    (reline f diagnostics).report (reline f d) = reline f (diagnostics.report d) := by
  have held : reline f diagnostics.held ++ [reline f d] = reline f (diagnostics.held ++ [d]) :=
    (reline_append f diagnostics.held [d]).symm
  cases d <;> exact congrArg (Diagnostics.mk · _ _ _) held

theorem extend_reline (more : List Diagnostic) :
    (reline f diagnostics).extend (reline f more) = reline f (diagnostics.extend more) := by
  induction more generalizing diagnostics with
  | nil => rfl
  | cons d more ih =>
    rw [reline_cons, extend_cons, extend_cons, report_reline, ih]

end Diagnostics

theorem Failure.diagnostic_reline (failure : Failure) :
    (reline f failure).diagnostic = reline f failure.diagnostic := by
  cases failure <;> rfl

/-! ## Sessions -/

namespace Session

theorem interpret_reline (fuel : Nat) (statements : List Stmt) (session : Session) :
    (reline f session).interpret fuel (reline f statements) =
      reline f (session.interpret fuel statements) := by
  obtain ⟨machine, diagnostics⟩ := session
  have ran := interpret_relined f fuel statements machine
  change Session.interpret fuel (reline f statements) ⟨reline f machine, reline f diagnostics⟩ = _
  simp only [Session.interpret, ran]
  cases Lox.interpret fuel statements machine with
  | ok value after => rfl
  | error halt after =>
    cases halt with
    | suspended => rfl
    | failure failure =>
      have reported := Diagnostics.report_reline (f := f) diagnostics failure.diagnostic
      rw [← Failure.diagnostic_reline] at reported
      exact congrArg (fun held => Progress.finished (Session.mk (reline f after) held)) reported

theorem parse_reline (tokens : List Token) (session : Session) :
    (reline f session).parse (reline f tokens) = reline f (session.parse tokens) := by
  obtain ⟨machine, diagnostics⟩ := session
  have extended := Diagnostics.extend_reline (f := f) diagnostics (Lox.parse tokens).2
  simp only [Session.parse, Lox.parse_reline]
  exact congrArg
    (fun held => ((reline f (Lox.parse tokens).1, Session.mk (reline f machine) held))) extended

/-- What is left to do with a source that was loaded. -/
def runLoaded (fuel : Nat) (loaded : List Stmt × Session) : Progress Session :=
  if loaded.2.diagnostics.hadStatic then .finished loaded.2 else loaded.2.interpret fuel loaded.1

theorem run_eq_runLoaded (fuel : Nat) (source : String) (session : Session) :
    session.run fuel source = runLoaded fuel (session.load source) := by
  unfold run
  cases session.load source
  rfl

theorem force_eq_interpret (fuel : Nat) (source : String) (session : Session) :
    session.force fuel source = (session.load source).2.interpret fuel (session.load source).1 := by
  unfold force
  cases session.load source
  rfl

theorem forceTokens_eq_interpret (fuel : Nat) (tokens : List Token) (session : Session) :
    session.forceTokens fuel tokens = (session.parse tokens).2.interpret fuel
      (session.parse tokens).1 := by
  unfold forceTokens
  cases session.parse tokens
  rfl

theorem load_eq_parse (source : String) (session : Session) :
    session.load source =
      Session.parse (scanned source).1
        ⟨session.machine, session.diagnostics.extend (scanned source).2⟩ := by
  unfold load
  cases scanned source
  rfl

theorem runLoaded_reline (fuel : Nat) (loaded : List Stmt × Session) :
    runLoaded fuel (reline f loaded) = reline f (runLoaded fuel loaded) := by
  obtain ⟨statements, session⟩ := loaded
  have static : (reline f session).diagnostics.hadStatic = session.diagnostics.hadStatic := rfl
  simp only [runLoaded, reline_pair, static, interpret_reline]
  split <;> rfl

end Session

/-! ## Sources -/

/-- Items that say the same, if not on the same line: tokens of one kind with one text, or faults
with one message. -/
inductive Item.Alike : Item → Item → Prop where
  | token {token other : Token} : token.kind = other.kind → token.text = other.text →
    Alike (.token token) (.token other)
  | fault {line otherLine : Nat} {cause other : LexicalFault} : cause.message = other.message →
    Alike (.fault line cause) (.fault otherLine other)

/-- Sources that scan to the same items, but for the lines. -/
def SourcesAlike (source other : String) : Prop :=
  List.Forall₂ Item.Alike (scan source) (scan other)

theorem Token.unlined_eq_iff {token other : Token} :
    unlined token = unlined other ↔ token.kind = other.kind ∧ token.text = other.text := by
  obtain ⟨⟨text, line⟩, kind⟩ := token
  obtain ⟨⟨otherText, otherLine⟩, otherKind⟩ := other
  constructor
  · intro same
    cases same
    exact ⟨rfl, rfl⟩
  · rintro ⟨rfl, rfl⟩
    rfl

namespace Item

variable {items others : List Item}

theorem Alike.unlined_tokens (alike : List.Forall₂ Alike items others) :
    unlined (items.filterMap token?) = unlined (others.filterMap token?) := by
  induction alike with
  | nil => rfl
  | cons first _ ih =>
    cases first with
    | token kinds texts => exact congrArg₂ List.cons (Token.unlined_eq_iff.2 ⟨kinds, texts⟩) ih
    | fault messages => exact ih

theorem Alike.unlined_faults (alike : List.Forall₂ Alike items others) :
    unlined ((items.filterMap fault?).map fun place => Diagnostic.lexical place.1 place.2.message) =
      unlined ((others.filterMap fault?).map fun place =>
        Diagnostic.lexical place.1 place.2.message) := by
  induction alike with
  | nil => rfl
  | cons first _ ih =>
    cases first with
    | token kinds texts => exact ih
    | fault messages => exact congrArg₂ List.cons (congrArg (Diagnostic.lexical 0) messages) ih

end Item

theorem SourcesAlike.unlined_scanned {source other : String} (alike : SourcesAlike source other) :
    unlined (scanned source) = unlined (scanned other) :=
  Prod.ext (Item.Alike.unlined_tokens alike) (Item.Alike.unlined_faults alike)

/-! ## Steps -/

namespace Session

/-- Steps that do the same, on sources and tokens that are the same but for the lines. -/
inductive Step.Alike : Step → Step → Prop where
  | run {source other : String} : SourcesAlike source other → Alike (.run source) (.run other)
  | force {source other : String} : SourcesAlike source other → Alike (.force source) (.force other)
  | forceTokens {tokens others : List Token} :
    List.Forall₂ (fun token other => token.kind = other.kind ∧ token.text = other.text)
      tokens others →
    Alike (.forceTokens tokens) (.forceTokens others)
  | clear : Alike .clear .clear

/-- The trees that a step parses. -/
def Step.trees (session : Session) : Step → List Stmt
  | .run source | .force source => (session.load source).1
  | .forceTokens tokens => (session.parse tokens).1
  | .clear => []

variable {session other : Session}

theorem unlined_tokens {tokens others : List Token}
    (alike : List.Forall₂ (fun token other => token.kind = other.kind ∧ token.text = other.text)
      tokens others) :
    unlined tokens = unlined others := by
  induction alike with
  | nil => rfl
  | cons first _ ih => exact congrArg₂ List.cons (Token.unlined_eq_iff.2 first) ih

theorem unlined_parse {tokens others : List Token} (alike : unlined tokens = unlined others)
    (same : unlined session = unlined other) :
    unlined (session.parse tokens) = unlined (other.parse others) := by
  unfold unlined at *
  rw [← parse_reline, ← parse_reline, alike, same]

theorem unlined_load {source otherSource : String} (alike : SourcesAlike source otherSource)
    (same : unlined session = unlined other) :
    unlined (session.load source) = unlined (other.load otherSource) := by
  have tokens : unlined (scanned source).1 = unlined (scanned otherSource).1 :=
    congrArg Prod.fst alike.unlined_scanned
  have reports : unlined (scanned source).2 = unlined (scanned otherSource).2 :=
    congrArg Prod.snd alike.unlined_scanned
  rw [load_eq_parse, load_eq_parse]
  apply unlined_parse tokens
  have machines : unlined session.machine = unlined other.machine := congrArg Session.machine same
  have held : unlined session.diagnostics = unlined other.diagnostics :=
    congrArg Session.diagnostics same
  have extended : unlined (session.diagnostics.extend (scanned source).2) =
      unlined (other.diagnostics.extend (scanned otherSource).2) := by
    unfold unlined at *
    rw [← Diagnostics.extend_reline, ← Diagnostics.extend_reline, reports, held]
  exact congrArg₂ Session.mk machines extended

theorem unlined_interpret (fuel : Nat) {statements others : List Stmt}
    (trees : unlined statements = unlined others) (same : unlined session = unlined other) :
    unlined (session.interpret fuel statements) = unlined (other.interpret fuel others) := by
  unfold unlined at *
  rw [← interpret_reline, ← interpret_reline, trees, same]

theorem unlined_runLoaded (fuel : Nat) {loaded others : List Stmt × Session}
    (same : unlined loaded = unlined others) :
    unlined (runLoaded fuel loaded) = unlined (runLoaded fuel others) := by
  unfold unlined at *
  rw [← runLoaded_reline, ← runLoaded_reline, same]

/-- Steps that are alike do the same, but for the lines. -/
theorem Step.Alike.unlined_perform {step otherStep : Step} (alike : step.Alike otherStep)
    (fuel : Nat) (same : unlined session = unlined other) :
    unlined (step.trees session) = unlined (otherStep.trees other) ∧
      unlined (step.perform fuel session) = unlined (otherStep.perform fuel other) := by
  cases alike with
  | @run source otherSource sources =>
    have loaded := unlined_load sources same
    have trees : unlined (session.load source).1 = unlined (other.load otherSource).1 :=
      congrArg Prod.fst loaded
    refine ⟨trees, ?_⟩
    simp only [perform, run_eq_runLoaded]
    exact unlined_runLoaded fuel loaded
  | @force source otherSource sources =>
    have loaded := unlined_load sources same
    have trees : unlined (session.load source).1 = unlined (other.load otherSource).1 :=
      congrArg Prod.fst loaded
    refine ⟨trees, ?_⟩
    simp only [perform, force_eq_interpret]
    exact unlined_interpret fuel trees (congrArg Prod.snd loaded)
  | @forceTokens tokens others alike =>
    have parsed := unlined_parse (unlined_tokens alike) same
    have trees : unlined (session.parse tokens).1 = unlined (other.parse others).1 :=
      congrArg Prod.fst parsed
    refine ⟨trees, ?_⟩
    simp only [perform, forceTokens_eq_interpret]
    exact unlined_interpret fuel trees (congrArg Prod.snd parsed)
  | clear =>
    have machines : unlined session.machine = unlined other.machine := congrArg Session.machine same
    exact ⟨rfl, congrArg (fun machine => Progress.finished (Session.mk machine {})) machines⟩

/-! ## Histories -/

/-- What is seen of a step: the trees of what it parsed, and the session after it. -/
structure Record where
  trees : List Stmt
  progress : Progress Session

/-- What is seen of steps one after the other, each with a fuel of its own. -/
def history : List (Nat × Step) → Session → List Record
  | [], _ => []
  | (fuel, step) :: rest, session =>
    let progress := step.perform fuel session
    ⟨step.trees session, progress⟩ :: history rest progress.value

/-- The sessions are the same but for lines: in output, in the input that is left, in what is
reported, and in all that the machine has stored. -/
structure AgreesUpToLines (session other : Session) : Prop where
  output : session.machine.sink = other.machine.sink
  input : session.machine.source = other.machine.source
  hadStatic : session.diagnostics.hadStatic = other.diagnostics.hadStatic
  hadRuntime : session.diagnostics.hadRuntime = other.diagnostics.hadRuntime
  hadIo : session.diagnostics.hadIo = other.diagnostics.hadIo
  reports : session.diagnostics.held.map unlined = other.diagnostics.held.map unlined
  machine : unlined session.machine = unlined other.machine

/-- Both runs came as far, to sessions that are the same but for lines. -/
inductive ProgressAgrees : Progress Session → Progress Session → Prop where
  | finished {session other : Session} : session.AgreesUpToLines other →
    ProgressAgrees (.finished session) (.finished other)
  | suspended {session other : Session} : session.AgreesUpToLines other →
    ProgressAgrees (.suspended session) (.suspended other)

/-- Both steps parsed the same trees and came as far, but for lines. -/
structure Record.AgreesUpToLines (record other : Record) : Prop where
  trees : record.trees.map unlined = other.trees.map unlined
  progress : ProgressAgrees record.progress other.progress

theorem agreesUpToLines_iff : session.AgreesUpToLines other ↔ unlined session = unlined other := by
  constructor
  · intro agrees
    have held : unlined session.diagnostics = unlined other.diagnostics := by
      change Diagnostics.mk _ _ _ _ = Diagnostics.mk _ _ _ _
      rw [agrees.hadStatic, agrees.hadRuntime, agrees.hadIo]
      exact congrArg (Diagnostics.mk · _ _ _) agrees.reports
    exact congrArg₂ Session.mk agrees.machine held
  · intro same
    have machines : unlined session.machine = unlined other.machine := congrArg Session.machine same
    have held : unlined session.diagnostics = unlined other.diagnostics :=
      congrArg Session.diagnostics same
    have sinks : (unlined session.machine).sink = (unlined other.machine).sink :=
      congrArg Machine.sink machines
    have sources : (unlined session.machine).source = (unlined other.machine).source :=
      congrArg Machine.source machines
    have static : (unlined session.diagnostics).hadStatic = (unlined other.diagnostics).hadStatic :=
      congrArg Diagnostics.hadStatic held
    have runtime :
        (unlined session.diagnostics).hadRuntime = (unlined other.diagnostics).hadRuntime :=
      congrArg Diagnostics.hadRuntime held
    have io : (unlined session.diagnostics).hadIo = (unlined other.diagnostics).hadIo :=
      congrArg Diagnostics.hadIo held
    exact ⟨sinks, sources, static, runtime, io, congrArg Diagnostics.held held, machines⟩

theorem progressAgrees_of_unlined {progress other : Progress Session}
    (same : unlined progress = unlined other) : ProgressAgrees progress other := by
  cases progress with
  | finished session =>
    cases other with
    | finished other =>
      injection same with same
      exact .finished (agreesUpToLines_iff.2 same)
    | suspended other => cases same
  | suspended session =>
    cases other with
    | finished other => cases same
    | suspended other =>
      injection same with same
      exact .suspended (agreesUpToLines_iff.2 same)

theorem unlined_value {progress other : Progress Session}
    (same : unlined progress = unlined other) : unlined progress.value = unlined other.value := by
  have values := congrArg Progress.value same
  cases progress <;> cases other <;> exact values

/-- Sessions with steps that are alike, on sources that are the same but for lines, do the same in
each step: they parse the same trees, print the same, read the same, report the same and store the
same, but for lines. -/
theorem history_agreesUpToLines {steps others : List (Nat × Step)}
    (alike : List.Forall₂ (fun step other => step.1 = other.1 ∧ step.2.Alike other.2) steps others)
    {session other : Session} (agrees : session.AgreesUpToLines other) :
    List.Forall₂ Record.AgreesUpToLines (history steps session) (history others other) := by
  induction alike generalizing session other with
  | nil => exact .nil
  | @cons step otherStep rest otherRest first _ ih =>
    obtain ⟨fuel, step⟩ := step
    obtain ⟨otherFuel, otherStep⟩ := otherStep
    obtain ⟨rfl, first⟩ := first
    obtain ⟨trees, performed⟩ := first.unlined_perform fuel (agreesUpToLines_iff.1 agrees)
    apply List.Forall₂.cons
    · exact ⟨trees, progressAgrees_of_unlined performed⟩
    · exact ih (agreesUpToLines_iff.2 (unlined_value performed))

theorem scan_semicolon : scan ";" = [.token ⟨⟨";", 1⟩, .semicolon⟩, .token (.ending 1)] := by
  change Item.ofSegments 1 (Segment.all (String.ofList [';']).toList) = _
  rw [String.toList_ofList]
  rfl

theorem scan_semicolon_below :
    scan "\n;" = [.token ⟨⟨";", 2⟩, .semicolon⟩, .token (.ending 2)] := by
  change Item.ofSegments 1 (Segment.all (String.ofList ['\n', ';']).toList) = _
  rw [String.toList_ofList]
  rfl

/-- The tokens of a statement on two lines. -/
def printNil (line : Nat) : List Token :=
  [⟨⟨"print", line⟩, .print⟩, ⟨⟨"nil", line + 1⟩, .nil⟩, ⟨⟨";", line + 1⟩, .semicolon⟩]

theorem history_agreesUpToLines_semicolon :
    scan ";" ≠ scan "\n;" ∧
      List.Forall₂ Record.AgreesUpToLines
        (history [(9, .run ";"), (9, .forceTokens (printNil 1))]
          (.initial {} {} { time := fun _ => 0 }))
        (history [(9, .run "\n;"), (9, .forceTokens (printNil 3))]
          (.initial {} {} { time := fun _ => 0 })) := by
  have sources : SourcesAlike ";" "\n;" := by
    rw [SourcesAlike, scan_semicolon, scan_semicolon_below]
    exact .cons (.token rfl rfl) (.cons (.token rfl rfl) .nil)
  have tokens : Step.Alike (.forceTokens (printNil 1)) (.forceTokens (printNil 3)) :=
    .forceTokens (.cons ⟨rfl, rfl⟩ (.cons ⟨rfl, rfl⟩ (.cons ⟨rfl, rfl⟩ .nil)))
  have alike : List.Forall₂ (fun step other : Nat × Step => step.1 = other.1 ∧ step.2.Alike other.2)
      [(9, .run ";"), (9, .forceTokens (printNil 1))]
        [(9, .run "\n;"), (9, .forceTokens (printNil 3))] :=
    .cons ⟨rfl, .run sources⟩ (.cons ⟨rfl, tokens⟩ .nil)
  constructor
  · rw [scan_semicolon, scan_semicolon_below]
    decide
  · exact history_agreesUpToLines alike (agreesUpToLines_iff.2 rfl)

end Session

end Lox
