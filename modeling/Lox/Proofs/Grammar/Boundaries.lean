import Lox.Proofs.Grammar.Declarations

/-!
# Programs fall apart at the boundaries of declarations

Where a declaration ends, what comes next is a program of its own.

* `parse_append_of_unstopped`: if nothing stops a declaration in the first tokens, then they and
  others are parsed one after another.  Only an `else` could continue what has ended.
* `parse_isolates_broken_statement`: a statement that is stopped takes nothing with it but the
  tokens up to its semicolon, provided that no keyword in between lets the parser start again.  What
  is behind the semicolon is parsed as if it stood alone.

In both cases the reports of the first tokens are at tokens, so they do not depend on what follows.
-/

namespace Lox

/-! ## Faults and their wording -/

/-- The wordings of faults that stop a declaration are not those of the others. -/
theorem SyntaxFault.stops_of_message {fault other : SyntaxFault} (stops : fault.stops = true)
    (same : other.message = fault.message) : other.stops = true := by
  cases other with
  | missing | expressionExpected => rfl
  | _ =>
    cases fault with
    | missing requirement => cases requirement <;> exact absurd same (by decide)
    | expressionExpected => exact absurd same (by decide)
    | _ => cases stops

/-- The diagnostic is of a fault that stops a declaration. -/
def Diagnostic.StopsDeclaration (d : Diagnostic) : Prop :=
  ∃ token fault, SyntaxFault.stops fault = true ∧ d = .syntactic token fault.message

theorem stopsDeclaration_diagnostic_iff {r : Report} {ending : Token} :
    (r.diagnostic ending).StopsDeclaration ↔ r.fault.stops = true := by
  constructor
  · rintro ⟨token, fault, stops, same⟩
    injection same with _ sameMessage
    exact SyntaxFault.stops_of_message stops sameMessage
  · intro stops
    exact ⟨_, r.fault, stops, rfl⟩

namespace Grammar

open Lox.Parser

/-- A declaration does the same before other tokens, if some of its own are left or nothing
continues it. -/
theorem topDeclaration_append {ts rest us : List Token} {reports : List Report}
    {tree? : Option Stmt} (step : topDeclaration ts = ⟨reports, .done tree? rest⟩)
    (follows : rest ≠ [] ∨ (topDeclaration ts).Passes ∧ NotElse us) :
    topDeclaration (ts ++ us) = ⟨reports, .done tree? (rest ++ us)⟩ := by
  obtain ⟨taken, split, replays⟩ := (readsAt_topDeclaration ts).replays
  have replied : (topDeclaration ts).reply = .done tree? rest := by rw [step]
  have left := Outcome.rest_of_done replied
  have replayed :
      topDeclaration (taken ++ (rest ++ us)) = (topDeclaration ts).before (rest ++ us) := by
    apply replays
    rw [Follows, left]
    cases rest with
    | cons t rest => exact .inl rfl
    | nil => exact .inr (follows.resolve_left fun nonempty => nonempty rfl)
  rw [left] at split
  rw [Outcome.before_of_done replied, ← List.append_assoc, ← split, step] at replayed
  exact replayed

/-- If nothing stops a declaration, what follows is a program of its own. -/
theorem program_append {ts us : List Token} (quiet : ∀ r ∈ (program ts).2, r.fault.stops = false)
    (follows : NotElse us) :
    program (ts ++ us) = ((program ts).1 ++ (program us).1, (program ts).2 ++ (program us).2) ∧
      ∀ r ∈ (program ts).2, r.token?.isSome = true := by
  induction size : ts.length using Nat.strongRecOn generalizing ts with
  | ind size ih =>
    cases ts with
    | nil => exact ⟨rfl, fun _ mem => by cases mem⟩
    | cons t ts =>
      have nonempty := List.cons_ne_nil t ts
      obtain ⟨reports, tree?, taken, rest, step, split, some⟩ := exists_topDeclaration nonempty
      rw [program_step nonempty step] at quiet ⊢
      have passes : (topDeclaration (t :: ts)).Passes := by
        have silent :
            ¬ (topDeclaration.FaultInside (t :: ts) ∨ topDeclaration.FaultAtEnd (t :: ts)) := by
          intro faulty
          obtain ⟨r, mem, stops⟩ := exists_stop_of_fault faulty
          rw [step, Outcome.log_of_done rfl] at mem
          rw [quiet r (List.mem_append_left _ mem)] at stops
          cases stops
        rcases (readsAt_topDeclaration (t :: ts)).decided with passes | inside | ⟨atEnd, -⟩
        · exact passes
        · exact absurd (.inl inside) silent
        · exact absurd (.inr atEnd) silent
      have mild : ∀ r ∈ reports, r.Mild := by
        obtain ⟨_, _, _, mild⟩ := passes
        rw [step] at mild
        exact mild
      have appended := topDeclaration_append step (.inr ⟨passes, follows⟩)
      have lengths := congrArg List.length split
      have positive := List.length_pos_iff.mpr some
      rw [List.length_append] at lengths
      obtain ⟨further, placed⟩ := ih rest.length (by omega)
        (fun r mem => quiet r (List.mem_append_right _ mem)) rfl
      rw [program_step (List.append_ne_nil_of_left_ne_nil nonempty us) appended, further]
      refine ⟨by simp only [List.append_assoc], fun r mem => ?_⟩
      rcases List.mem_append.mp mem with mem | mem
      · exact (mild r mem).1
      · exact placed r mem

/-! ## A broken statement -/

/-- Of the declarations that the tokens are parsed as, one is stopped by a fault before the rest. -/
inductive StopsBefore : List Token → List Token → Prop where
  | here {ts rest : List Token} {fault : SyntaxFault} (nonempty : ts ≠ [])
      (stopped : (statement ts.length .declaration .top ts).reply = .abort fault rest) :
      StopsBefore ts rest
  | later {ts middle rest : List Token} {tree? : Option Stmt} (nonempty : ts ≠ [])
      (step : (recovering (statement ts.length .declaration .top) ts).reply = .done tree? middle)
      (further : StopsBefore middle rest) : StopsBefore ts rest

theorem StopsBefore.nonempty {ts rest : List Token} (stopped : StopsBefore ts rest) : ts ≠ [] := by
  cases stopped with
  | here nonempty => exact nonempty
  | later nonempty => exact nonempty

/-- Without a keyword to start again at, everything is dropped up to the semicolon. -/
theorem afterFault_of_plain {tail : List Token} {semicolon : Token}
    (isSemicolon : semicolon.kind = .semicolon) (plain : ∀ t ∈ tail, t.kind ≠ .semicolon)
    (noKeyword : ∀ t ∈ tail.tail, t.kind.startsDeclaration = false) (us : List Token) :
    afterFault (tail ++ semicolon :: us) = us := by
  induction tail with
  | nil => exact afterFault_of_semicolon isSemicolon us
  | cons t tail ih =>
    have other := plain t List.mem_cons_self
    have further := ih (fun t mem => plain t (List.mem_cons_of_mem _ mem)) fun t mem =>
      noKeyword t (List.mem_of_mem_tail mem)
    cases tail with
    | nil => exact (afterFault_of_skipped other (by rw [isSemicolon]; rfl) us).trans further
    | cons next tail =>
      exact (afterFault_of_skipped other (noKeyword next List.mem_cons_self) _).trans further

/-- Tokens behind others that end with a semicolon end with it too. -/
theorem exists_front_of_split {taken middle front : List Token} {semicolon : Token}
    (split : front ++ [semicolon] = taken ++ middle) (nonempty : middle ≠ []) :
    ∃ less, middle = less ++ [semicolon] ∧ front = taken ++ less := by
  have last := List.dropLast_append_getLast nonempty
  rw [← last, ← List.append_assoc] at split
  obtain ⟨sameFront, sameLast⟩ := List.append_inj' split rfl
  exact ⟨middle.dropLast, by rw [sameLast, last], sameFront⟩

/-- A declaration that takes no semicolon and no opening brace was dropped. -/
theorem eq_none_of_plain {taken middle : List Token} {reports : List Report} {tree? : Option Stmt}
    (plain : ∀ t ∈ taken, t.kind ≠ .semicolon ∧ t.kind ≠ .leftBrace)
    (step : topDeclaration (taken ++ middle) = ⟨reports, .done tree? middle⟩) : tree? = none := by
  cases replied : (ampleStatement .declaration .top (taken ++ middle)).reply with
  | abort fault rest =>
    rw [topDeclaration, recovering_of_abort replied] at step
    injection step with _ sameReply
    injection sameReply with same _
    exact same.symm
  | done tree rest =>
    rw [topDeclaration, recovering_of_done replied] at step
    injection step with _ sameReply
    injection sameReply with _ sameRest
    rw [sameRest] at replied
    obtain ⟨own, split, t, mem, wanted⟩ := (ampleStatement_takes _ _ _).of_done replied
    rw [List.append_cancel_right split] at plain
    rcases wanted with semicolon | brace
    · exact absurd semicolon (plain t mem).1
    · exact absurd brace (plain t mem).2

section BrokenStatement

variable {ts rest : List Token} {semicolon : Token} (us : List Token)

/-- The fault stops the statement before other tokens as well, and recovery goes on with them. -/
theorem program_of_stopped {fault : SyntaxFault} (nonempty : ts ≠ []) (left : rest ≠ [])
    (stopped : (ampleStatement .declaration .top ts).reply = .abort fault rest)
    (dropped : ∀ us, afterFault (rest ++ us) = us) :
    program (ts ++ us) = ((program us).1, (program ts).2 ++ (program us).2) ∧
      ∀ r ∈ (program ts).2, r.token?.isSome = true := by
  have reads := (reads_statement (ts.length + 1) .declaration .top).reading ts (Nat.lt_succ_self _)
  obtain ⟨taken, split, replays⟩ := reads.replays
  rw [Outcome.rest_of_abort stopped] at split
  have head : ∀ us, (rest ++ us).head? = rest.head? := fun us => by
    cases rest with
    | nil => exact absurd rfl left
    | cons t rest => rfl
  have steps : ∀ us, topDeclaration (ts ++ us) =
      ⟨(ampleStatement .declaration .top ts).reports ++ [⟨rest.head?, fault⟩], .done none us⟩ := by
    intro us
    have replayed := replays (rest ++ us) (.inl (by rw [Outcome.rest_of_abort stopped, head]))
    rw [Outcome.before_of_abort stopped, ← List.append_assoc, ← split] at replayed
    have again : (ampleStatement .declaration .top (ts ++ us)).reply =
        .abort fault (rest ++ us) := by rw [replayed]
    rw [topDeclaration, recovering_of_abort again, replayed, head, dropped]
  have alone := program_step nonempty (List.append_nil ts ▸ steps [])
  rw [program_step (List.append_ne_nil_of_left_ne_nil nonempty us) (steps us), alone, program_nil]
  simp only [Option.toList_none, List.nil_append, List.append_nil]
  refine ⟨trivial, fun r mem => ?_⟩
  rcases List.mem_append.mp mem with mem | mem
  · exact reads.placed (by rw [Outcome.rest_of_abort stopped]; exact left) r mem
  · rw [List.mem_singleton.mp mem]
    exact Option.isSome_iff_ne_none.mpr fun none => left (List.head?_eq_none_iff.mp none)

/-- The induction is on the declarations before the one that is stopped.  They were all dropped, up
to a keyword. -/
theorem program_of_stopsBefore {front tail : List Token} (isSemicolon : semicolon.kind = .semicolon)
    (stopped : StopsBefore ts rest) (split : ts = front ++ [semicolon])
    (plain : ∀ t ∈ front, t.kind ≠ .semicolon ∧ t.kind ≠ .leftBrace)
    (splitRest : rest = tail ++ [semicolon]) (plainTail : ∀ t ∈ tail, t.kind ≠ .semicolon)
    (noKeyword : ∀ t ∈ tail.tail, t.kind.startsDeclaration = false) :
    program (ts ++ us) = ((program us).1, (program ts).2 ++ (program us).2) ∧
      ∀ r ∈ (program ts).2, r.token?.isSome = true := by
  induction stopped generalizing front with
  | here nonempty stopped =>
    refine program_of_stopped us nonempty ?_ stopped fun us => ?_
    · rw [splitRest]
      exact List.append_ne_nil_of_right_ne_nil tail (List.cons_ne_nil semicolon [])
    · rw [splitRest, List.append_assoc]
      exact afterFault_of_plain isSemicolon plainTail noKeyword us
  | @later ts middle rest tree? nonempty step further ih =>
    have left := further.nonempty
    obtain ⟨reports, found?, taken, after, first, splitTs, -⟩ := exists_topDeclaration nonempty
    obtain ⟨rfl, rfl⟩ : found? = tree? ∧ after = middle := by
      have replied : (topDeclaration ts).reply = .done tree? middle := step
      rw [first] at replied
      injection replied with sameTree sameRest
      exact ⟨sameTree, sameRest⟩
    obtain ⟨less, splitMiddle, sameFront⟩ := exists_front_of_split (split.symm.trans splitTs) left
    have noTree : found? = none := by
      refine eq_none_of_plain (fun t mem => plain t ?_) (splitTs ▸ first)
      rw [sameFront]
      exact List.mem_append_left less mem
    have plainLess : ∀ t ∈ less, t.kind ≠ .semicolon ∧ t.kind ≠ .leftBrace :=
      fun t mem => plain t (by
      rw [sameFront]
      exact List.mem_append_right taken mem)
    obtain ⟨isolated, placed⟩ := ih splitMiddle plainLess splitRest
    have appended : topDeclaration (ts ++ us) = _ := topDeclaration_append first (.inl left)
    rw [program_step (List.append_ne_nil_of_left_ne_nil nonempty us) appended,
      program_step nonempty first, isolated, noTree]
    refine ⟨by simp only [Option.toList_none, List.nil_append, List.append_assoc], fun r mem => ?_⟩
    rcases List.mem_append.mp mem with mem | mem
    · have firstPlaced := (readsAt_topDeclaration ts).placed
      rw [first] at firstPlaced
      exact firstPlaced left r mem
    · exact placed r mem

end BrokenStatement

end Grammar

open Grammar

/-- Parsing is a homomorphism at the boundaries of declarations: what a declaration that ended with
no stop is followed by is parsed on its own, and reports are made in the same order. -/
theorem parse_append_of_unstopped {ts us : List Token} (endless : ∀ t ∈ ts, t.kind ≠ .endOfFile)
    (unstopped : ∀ d ∈ (parse ts).2, ¬ d.StopsDeclaration)
    (follows : Parser.isNext .else us = false) :
    parse (ts ++ us) = ((parse ts).1 ++ (parse us).1, (parse ts).2 ++ (parse us).2) := by
  rw [parse_eq ts, body_eq_self endless] at unstopped ⊢
  have quiet : ∀ r ∈ (program ts).2, r.fault.stops = false := fun r mem =>
    Bool.eq_false_iff.mpr fun stops =>
      unstopped _ (List.mem_map_of_mem mem) (stopsDeclaration_diagnostic_iff.mpr stops)
  have continued : NotElse (body us) := by
    cases us with
    | nil => rfl
    | cons u us =>
      rw [body, List.takeWhile_cons]
      split
      · exact follows
      · rfl
  obtain ⟨whole, placed⟩ := program_append quiet continued
  exact parse_append_of_program endless placed whole (ending ts)

/-- A `break` out of place: `if (nil) break;` -/
def misplacedBreak : List Token :=
  [Kind.if, .leftParen, .nil, .rightParen, .break, .semicolon].map fun kind => ⟨⟨"", 1⟩, kind⟩

/-- A broken statement and a sound one: `nil nil; print nil;` -/
def brokenThenPrint : List Token :=
  [Kind.nil, .nil, .semicolon, .print, .nil, .semicolon].map fun kind => ⟨⟨"", 1⟩, kind⟩

theorem parse_append_of_unstopped_misplacedBreak :
    (parse misplacedBreak).2 =
      [.syntactic ⟨⟨"", 1⟩, .break⟩ "Can't use 'break' outside of a loop."] ∧
      parse (misplacedBreak ++ brokenThenPrint) =
        ((parse misplacedBreak).1 ++ (parse brokenThenPrint).1,
        (parse misplacedBreak).2 ++ (parse brokenThenPrint).2) := by
  have reported : (parse misplacedBreak).2 =
      [Report.diagnostic (ending misplacedBreak) ⟨some ⟨⟨"", 1⟩, .break⟩, .breakOutsideLoop⟩] := rfl
  refine ⟨reported, parse_append_of_unstopped (by decide) (fun d mem stops => ?_) rfl⟩
  rw [reported] at mem
  rw [List.mem_singleton.mp mem, stopsDeclaration_diagnostic_iff] at stops
  cases stops

/-- Recovery isolates a broken statement.  The tokens before a semicolon hold no other semicolon and
no opening brace, a fault stops a declaration at one of them or at the semicolon, and behind this
place there is no keyword to start again at.  Then the tokens behind the semicolon are parsed as if
they stood alone, and the errors are those of the broken statement and then theirs. -/
theorem parse_isolates_broken_statement {broken others : List Token} {semicolon : Token} {k : Nat}
    (isSemicolon : semicolon.kind = .semicolon)
    (plain : ∀ t ∈ broken, t.kind ≠ .semicolon ∧ t.kind ≠ .leftBrace ∧ t.kind ≠ .endOfFile)
    (within : k ≤ broken.length)
    (stopped : StopsBefore (broken ++ [semicolon]) ((broken ++ [semicolon]).drop k))
    (noKeyword : ∀ t ∈ broken.drop (k + 1), t.kind.startsDeclaration = false) :
    parse (broken ++ semicolon :: others) =
      ((parse others).1, (parse (broken ++ [semicolon])).2 ++ (parse others).2) := by
  have endless : ∀ t ∈ broken ++ [semicolon], t.kind ≠ .endOfFile := by
    intro t mem
    rcases List.mem_append.mp mem with mem | mem
    · exact (plain t mem).2.2
    · rw [List.mem_singleton.mp mem, isSemicolon]
      exact Kind.noConfusion
  rw [List.drop_append_of_le_length within] at stopped
  have isolated := program_of_stopsBefore (body others) isSemicolon stopped rfl
    (fun t mem => ⟨(plain t mem).1, (plain t mem).2.1⟩) rfl
      (fun t mem => (plain t (List.mem_of_mem_drop mem)).1)
    (by rw [List.tail_drop]; exact noKeyword)
  have whole : parse (broken ++ [semicolon] ++ others) = ([] ++ (parse others).1, _) :=
    parse_append_of_program endless isolated.2 isolated.1 (ending (broken ++ [semicolon]))
  rw [List.append_assoc, List.singleton_append, List.nil_append] at whole
  rw [whole, parse_eq (broken ++ [semicolon]), body_eq_self endless]

/-- Two statements are broken, and the parser starts again at the keyword in between: `nil nil print
) nil` -/
def brokenTwice : List Token :=
  [Kind.nil, .nil, .print, .rightParen, .nil].map fun kind => ⟨⟨"", 1⟩, kind⟩

theorem parse_isolates_broken_statement_brokenTwice :
    (parse (brokenTwice ++ [⟨⟨"", 1⟩, .semicolon⟩])).2.length = 2 ∧
      parse (brokenTwice ++ ⟨⟨"", 1⟩, .semicolon⟩ :: brokenThenPrint) =
        ((parse brokenThenPrint).1,
          (parse (brokenTwice ++ [⟨⟨"", 1⟩, .semicolon⟩])).2 ++ (parse brokenThenPrint).2) := by
  let whole := brokenTwice ++ [⟨⟨"", 1⟩, .semicolon⟩]
  have atParen : StopsBefore (whole.drop 2) (whole.drop 3) := .here (List.cons_ne_nil _ _) rfl
  have stopped : StopsBefore whole (whole.drop 3) := .later (List.cons_ne_nil _ _) rfl atParen
  have noKeyword : ∀ t ∈ brokenTwice.drop 4, t.kind.startsDeclaration = false := by decide
  exact ⟨rfl, parse_isolates_broken_statement rfl (by decide) (by decide) stopped noKeyword⟩

end Lox
