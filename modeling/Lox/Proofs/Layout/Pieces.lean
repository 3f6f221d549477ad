import Lox.Proofs.Grammar.Program
import Lox.Proofs.Machine.Fuel
import Lox.Proofs.Session.Reports
import Lox.Proofs.Token.LineBreak

/-!
# Running a source in pieces

Two sources that are run one after the other do what they do as one source, with a line break
between them.  Each of the three stages takes a source apart at a line break: scanning
(`scan_lineBreak`), parsing (`parse_append`) and running (`interpret_append`).  The lines of the
second source are counted from further down, which nothing but a report shows.
-/

namespace Lox

/-! ## Scanning -/

/-- The source scans and parses with nothing to report. -/
structure Faultless (source : String) : Prop where
  scans : (scanned source).2 = []
  parses : (parse (scanned source).1).2 = []

theorem fault_not_mem_of_scanned {source : String} (scans : (scanned source).2 = []) (line : Nat)
    (cause : LexicalFault) : .fault line cause ∉ scan source := by
  intro mem
  have reported : Diagnostic.lexical line cause.message ∈ (scanned source).2 := by
    apply List.mem_map.2
    exact ⟨(line, cause), List.mem_filterMap.2 ⟨.fault line cause, mem, rfl⟩, rfl⟩
  rw [scans] at reported
  cases reported

/-- The tokens of a source are those of its items before the last, and then the ending token. -/
theorem scanned_tokens (source : String) :
    ∃ line, (scanned source).1 = (scan source).dropLast.filterMap Item.token? ++
      [.ending line] := by
  refine ⟨1 + Segment.newlines source.toList, ?_⟩
  change (scan source).filterMap Item.token? = _
  rw [scan_eq, List.dropLast_concat, List.filterMap_append]
  rfl

/-- No token of a source is an ending token, except the last one. -/
theorem isEnding_of_mem_scan {source : String} {token : Token}
    (mem : token ∈ (scan source).dropLast.filterMap Item.token?) : token.isEnding = false := by
  obtain ⟨item, memItem, same⟩ := List.mem_filterMap.1 mem
  cases item with
  | fault line cause => cases same
  | token token =>
    cases same
    rw [scan_eq, List.dropLast_concat] at memItem
    exact beq_eq_false_iff_ne.2 (kind_ne_endOfFile_of_mem_inits memItem)

variable {f : Nat → Nat}

theorem tokens_reline (items : List Item) :
    (reline f items).filterMap Item.token? = reline f (items.filterMap Item.token?) := by
  induction items with
  | nil => rfl
  | cons item items ih =>
    cases item with
    | token token => exact congrArg (reline f token :: ·) ih
    | fault line cause => exact ih

theorem faults_reline (items : List Item) :
    (reline f items).filterMap Item.fault? = (items.filterMap Item.fault?).map fun place =>
    (f place.1, place.2) := by
  induction items with
  | nil => rfl
  | cons item items ih =>
    cases item with
    | token token => exact ih
    | fault line cause => exact congrArg ((f line, cause) :: ·) ih

/-- The tokens of two sources with a line break between them, the first of which is faultless. -/
theorem scanned_lineBreak {source other : String} (first : (scanned source).2 = [])
    (second : (scanned other).2 = []) :
    (scanned (source ++ "\n" ++ other)).1 = (scan source).dropLast.filterMap Item.token? ++
        reline (· + (1 + Segment.newlines source.toList)) (scanned other).1 ∧
      (scanned (source ++ "\n" ++ other)).2 = [] := by
  have items := scan_lineBreak (fun line => fault_not_mem_of_scanned first line _)
    (fun line => fault_not_mem_of_scanned first line _) other
  have clean : ∀ {text}, (scanned text).2 = [] → (scan text).filterMap Item.fault? = [] :=
    List.map_eq_nil_iff.1
  have none : (scan source).dropLast.filterMap Item.fault? = [] := by
    apply List.filterMap_eq_nil_iff.2
    intro item mem
    exact List.filterMap_eq_nil_iff.1 (clean first) item (List.mem_of_mem_dropLast mem)
  constructor
  · change (scan _).filterMap Item.token? = _
    rw [items, List.filterMap_append, tokens_reline]
    rfl
  · apply List.map_eq_nil_iff.2
    rw [items, List.filterMap_append, none, faults_reline, clean second]
    rfl

/-! ## Parsing -/

theorem Grammar.Program.append {first second : List Stmt} {ts us : List Token}
    (left : Program first ts) (right : Program second us) :
    Program (first ++ second) (ts ++ us) := by
  unfold Program at left
  generalize clause : Clause.declarations ⟨false, false⟩ first = whole at left
  induction left generalizing first with
  | nil =>
    cases clause
    exact right
  | cons declaration _ _ ih =>
    cases clause
    rw [List.append_assoc]
    exact .cons declaration (ih rfl)
  | _ => cases clause

/-- Tokens that parse with nothing to report parse so in front of others. -/
theorem parse_append {front back : List Token} {line : Nat} {first second : List Stmt}
    (left : parse (front ++ [.ending line]) = (first, []))
    (proper : ∀ token ∈ front, token.isEnding = false) (right : parse back = (second, [])) :
    parse (front ++ back) = (first ++ second, []) := by
  have cut : ∀ rest, Grammar.body (front ++ rest) = front ++ Grammar.body rest := by
    intro rest
    apply List.takeWhile_append_of_pos
    intro token mem
    rw [proper token mem]
    rfl
  rw [parse_eq_iff, Grammar.program_eq_iff] at left right ⊢
  rw [cut] at left ⊢
  rw [show Grammar.body [.ending line] = [] from rfl, List.append_nil] at left
  exact left.append right

/-- What two faultless sources with a line break between them are parsed into. -/
theorem parse_lineBreak {source other : String} {first second : List Stmt}
    (scans : (scanned source).2 = []) (otherScans : (scanned other).2 = [])
    (left : parse (scanned source).1 = (first, []))
    (right : parse (scanned other).1 = (second, [])) :
    parse (scanned (source ++ "\n" ++ other)).1 =
      (first ++ reline (· + (1 + Segment.newlines source.toList)) second, []) := by
  obtain ⟨line, tokens⟩ := scanned_tokens source
  rw [tokens] at left
  rw [(scanned_lineBreak scans otherScans).1]
  apply parse_append left
  · intro token mem
    exact isEnding_of_mem_scan mem
  · rw [parse_reline, right]
    rfl

/-! ## Running -/

theorem interpret_append (fuel : Nat) (first second : List Stmt) :
    interpret fuel (first ++ second) = interpret fuel first >>= fun _ => interpret fuel second := by
  induction first with
  | nil => exact (pure_bind _ _).symm
  | cons statement first ih =>
    rw [List.cons_append, interpret, interpret, bind_assoc]
    congr 1
    funext signal
    cases signal with
    | completed => exact ih
    | broke keyword => rfl
    | returned keyword value => rfl

theorem interpret_lasting (statements : List Stmt) :
    Lasting fun fuel => interpret fuel statements := by
  simp only [interpret_eq_follow]
  exact (programPlan statements).lasting

namespace Session

/-- A program that ended with nothing to report ended with a value. -/
theorem interpret_eq_ok {fuel : Nat} {statements : List Stmt} {machine after : Machine}
    {diagnostics : Diagnostics}
    (ended : Session.interpret fuel statements ⟨machine, diagnostics⟩ =
      .finished ⟨after, diagnostics⟩) :
    Lox.interpret fuel statements machine = .ok () after := by
  unfold Session.interpret at ended
  dsimp only at ended
  cases ran : Lox.interpret fuel statements machine with
  | ok value last =>
    rw [ran] at ended
    cases ended
    rfl
  | error halt last =>
    rw [ran] at ended
    cases halt with
    | suspended => cases ended
    | failure failure =>
      injection ended with same
      injection same with _ held
      have longer := congrArg (fun diagnostics => diagnostics.held.length) held
      simp [Diagnostics.report] at longer

theorem interpret_append_of_ok {fuel : Nat} {first : List Stmt} {machine after : Machine}
    (ran : Lox.interpret fuel first machine = .ok () after) (second : List Stmt)
    (diagnostics : Diagnostics) :
    Session.interpret fuel (first ++ second) ⟨machine, diagnostics⟩ =
      Session.interpret fuel second ⟨after, diagnostics⟩ := by
  simp only [Session.interpret, interpret_append, Eval.bind_of_ok ran]

/-- Two faultless sources, run one after the other, do what they do as one source with a line break
between them, if the first ends with nothing to report: the second run and the run of the whole come
as far and agree but for lines. -/
theorem run_in_pieces {source other : String} (first : Faultless source) (second : Faultless other)
    {machine after : Machine} {diagnostics : Diagnostics} (fresh : diagnostics.hadStatic = false)
    {fuel : Nat}
    (ran : Session.run fuel source ⟨machine, diagnostics⟩ = .finished ⟨after, diagnostics⟩)
    (more : Nat) (le : fuel ≤ more) :
    Session.run more source ⟨machine, diagnostics⟩ = .finished ⟨after, diagnostics⟩ ∧
      ProgressAgrees (Session.run more other ⟨after, diagnostics⟩)
        (Session.run more (source ++ "\n" ++ other) ⟨machine, diagnostics⟩) := by
  have parsed : ∀ {text}, Faultless text →
      Lox.parse (scanned text).1 = ((Lox.parse (scanned text).1).1, []) :=
    fun faultless => Prod.ext rfl faultless.parses
  have whole := parse_lineBreak first.scans second.scans (parsed first) (parsed second)
  rw [run_of_faultless first.scans (parsed first) fresh] at ran
  have ended := (interpret_lasting _ le).eq (interpret_eq_ok ran) (ended_ok () after)
  rw [run_of_faultless first.scans (parsed first) fresh,
    run_of_faultless second.scans (parsed second) fresh,
    run_of_faultless (scanned_lineBreak first.scans second.scans).2 whole fresh,
    interpret_append_of_ok ended]
  constructor
  · simp only [Session.interpret, ended]
  · apply progressAgrees_of_unlined
    exact unlined_interpret more (unlined_reline _ _).symm rfl

theorem scanned_declaration :
    scanned "var a;" =
      ([⟨⟨"var", 1⟩, .var⟩, ⟨⟨"a", 1⟩, .identifier⟩, ⟨⟨";", 1⟩, .semicolon⟩, .ending 1], []) := by
  have segments : Segment.all ['v', 'a', 'r', ' ', 'a', ';'] =
      [⟨['v', 'a', 'r'], .token .var⟩, ⟨[' '], .blank⟩,
      ⟨['a'], .token .identifier⟩, ⟨[';'], .token .semicolon⟩] := by decide +kernel
  have text : "var a;".toList = ['v', 'a', 'r', ' ', 'a', ';'] := String.toList_ofList
  simp only [scanned, scan, text, segments]
  rfl

theorem scanned_print :
    scanned "print a;" =
      ([⟨⟨"print", 1⟩, .print⟩, ⟨⟨"a", 1⟩, .identifier⟩, ⟨⟨";", 1⟩, .semicolon⟩, .ending 1],
        []) := by
  have segments : Segment.all ['p', 'r', 'i', 'n', 't', ' ', 'a', ';'] =
      [⟨['p', 'r', 'i', 'n', 't'], .token .print⟩,
      ⟨[' '], .blank⟩, ⟨['a'], .token .identifier⟩, ⟨[';'], .token .semicolon⟩] := by decide +kernel
  have text : "print a;".toList = ['p', 'r', 'i', 'n', 't', ' ', 'a', ';'] := String.toList_ofList
  simp only [scanned, scan, text, segments]
  rfl

/-- A variable is declared in one piece and printed in the next. -/
theorem run_in_pieces_declaration :
    Faultless "var a;" ∧ Faultless "print a;" ∧ ∃ after,
      Session.run 9 "var a;" (.initial {} {} { time := fun _ => 0 }) = .finished ⟨after, {}⟩ ∧
      ProgressAgrees (Session.run 9 "print a;" ⟨after, {}⟩)
        (Session.run 9 ("var a;" ++ "\n" ++ "print a;")
          (.initial {} {} { time := fun _ => 0 })) := by
  have parsed : Lox.parse (scanned "var a;").1 = ([.var ⟨"a", 1⟩ none], []) := by
    rw [scanned_declaration]
    rfl
  have first : Faultless "var a;" := by
    constructor
    · rw [scanned_declaration]
    · rw [parsed]
  have second : Faultless "print a;" := by
    constructor
    · rw [scanned_print]
    · rw [scanned_print]
      rfl
  have ran : ∃ after, Session.run 9 "var a;" (.initial {} {} { time := fun _ => 0 }) =
      .finished ⟨after, {}⟩ := by
    rw [run_of_faultless first.scans parsed rfl]
    exact ⟨_, rfl⟩
  obtain ⟨after, ran⟩ := ran
  exact ⟨first, second, after, run_in_pieces first second rfl ran 9 (Nat.le_refl 9)⟩

end Session

end Lox
