import Lox.Proofs.Grammar.Boundaries

/-!
# The first fault is found at the earliest token

The first error that stops a declaration is at the first token that cannot be right.  The tokens
before it can be continued to a program in which nothing stops a declaration, and with it they
cannot, whatever follows.

`FaultInside` only says that a token is at fault whatever follows it.  So the first of these tokens
is taken: then none of the tokens before it is at fault, and tokens of which none is at fault can be
continued (`exists_continuation`).
-/

namespace Lox

namespace Grammar

open Lox.Parser

/-- Where a token is at fault, there is a first one. -/
theorem exists_first_blame {α : Type} {p : Parser α} {ts : List Token} (inside : p.FaultInside ts) :
    ∃ taken t others, ts = taken ++ t :: others ∧ p.Blames taken t ∧ ¬ p.FaultInside taken := by
  induction size : ts.length using Nat.strongRecOn generalizing ts with
  | ind size ih =>
    obtain ⟨taken, t, others, split, blames⟩ := inside
    by_cases earlier : p.FaultInside taken
    · have lengths := congrArg List.length split
      rw [List.length_append, List.length_cons] at lengths
      obtain ⟨first, u, between, splitTaken, blamesFirst, none⟩ :=
        ih taken.length (by omega) earlier rfl
      refine ⟨first, u, between ++ t :: others, ?_, blamesFirst, none⟩
      rw [split, splitTaken, List.append_assoc, List.cons_append]
    · exact ⟨taken, t, others, split, blames, earlier⟩

/-- Tokens of which none is at fault can be continued to a program with mild reports only. -/
theorem exists_continuation {ts : List Token} (faultless : ¬ ampleDeclarations.FaultInside ts) :
    ∃ us, Endless us ∧ ∀ r ∈ (program (ts ++ us)).2, r.Mild := by
  have reads := (reads_declarations (ts.length + 1)).reading ts (Nat.lt_succ_self _)
  have completes : ampleDeclarations.Completes (· = []) ts := by
    rcases reads.decided with ⟨trees, rest, passes⟩ | inside | ⟨-, completes⟩
    · obtain ⟨reports, trees', ended⟩ := exists_ampleDeclarations ts
      obtain rfl : rest = [] := by
        have replied := passes.1
        rw [ended] at replied
        injection replied with _ sameRest
        exact sameRest.symm
      exact reads.completes passes
    · exact absurd inside faultless
    · exact completes
  obtain ⟨us, trees, endless, filled⟩ := completes
  have passes := filled [] rfl
  rw [List.append_nil] at passes
  refine ⟨us, endless, ?_⟩
  obtain ⟨reports, trees', found⟩ := exists_ampleDeclarations (ts ++ us)
  rw [program_of_ample found]
  have mild := passes.2
  rw [found] at mild
  exact mild

/-- The reports of a program are the faults that its declarations meet. -/
theorem program_log (ts : List Token) : (program ts).2 = (ampleDeclarations ts).log := by
  obtain ⟨reports, trees, found⟩ := exists_ampleDeclarations ts
  rw [program_of_ample found, found]
  rfl

/-- What stands behind the ending token is not parsed. -/
theorem parse_ended {front : List Token} (endless : Endless front) {e : Token}
    (ends : e.isEnding = true) (others : List Token) :
    parse (front ++ e :: others) =
      ((program front).1, (program front).2.map (Report.diagnostic e)) := by
  have stops : body (e :: others) = [] :=
    List.takeWhile_cons_of_neg (by rw [ends]; exact Bool.false_ne_true)
  have last : ending (e :: others) = e := by
    rw [ending, List.find?_cons_of_pos ends]
    rfl
  rw [parse_eq, body_append endless, stops, List.append_nil,
    ending_append endless (List.cons_ne_nil e others), last]

end Grammar

/-- The first of the diagnostics that stops a declaration, those before it, and the position of the
token that it names.  Where the tokens ran out, this is the position behind them. -/
structure FirstStop (ts : List Token) (k : Nat) (early : List Diagnostic) (first : Diagnostic) :
    Prop where
  listed : ∃ late, (parse ts).2 = early ++ first :: late
  unstopped : ∀ d ∈ early, ¬ d.StopsDeclaration
  stops : first.StopsDeclaration
  within : k ≤ ts.length
  named : ∃ message, first = .syntactic (ts[k]?.getD (Grammar.ending ts)) message

section FirstStop

open Lox.Grammar Lox.Parser

variable {ts : List Token}

/-- Nothing stops a declaration where all reports are mild. -/
theorem unstopped_of_mild {reports : List Report} (mild : ∀ r ∈ reports, r.fault.stops = false)
    (ending : Token) : ∀ d ∈ reports.map (Report.diagnostic ending), ¬ d.StopsDeclaration := by
  intro d mem stops
  obtain ⟨r, memReport, rfl⟩ := List.mem_map.mp mem
  rw [stopsDeclaration_diagnostic_iff, mild r memReport] at stops
  cases stops

theorem exists_unstopped {taken : List Token} (endless : Endless taken)
    (faultless : ¬ ampleDeclarations.FaultInside taken) :
    ∃ us, ∀ d ∈ (parse (taken ++ us)).2, ¬ d.StopsDeclaration := by
  obtain ⟨us, endlessMore, mild⟩ := exists_continuation faultless
  refine ⟨us, ?_⟩
  rw [parse_eq, body_eq_self (endless_append endless endlessMore)]
  exact unstopped_of_mild (fun r mem => (mild r mem).2) _

/-- The first token at fault is named by the first diagnostic that stops a declaration, whatever
follows it. -/
theorem firstStop_of_blames {taken others : List Token} {t : Token}
    (endless : Endless (taken ++ [t])) (split : ts = taken ++ t :: others)
    (blames : ampleDeclarations.Blames taken t) :
    ∃ early first, FirstStop ts taken.length early first ∧
      ∀ us, us.take (taken.length + 1) = ts.take (taken.length + 1) →
        ∃ more, (parse us).2 = early ++ first :: more := by
  obtain ⟨early, fault, mild, stops, logged⟩ := blames
  have reported : ∀ us, ∃ more, (parse (taken ++ t :: us)).2 =
      early.map (Report.diagnostic t) ++ Report.diagnostic t ⟨some t, fault⟩ :: more := by
    intro us
    obtain ⟨more, log⟩ := logged (body us)
    have whole : body (taken ++ t :: us) = taken ++ t :: body us := by
      rw [List.append_cons taken t us, body_append endless, List.append_cons taken t (body us)]
    refine ⟨more.map (Report.diagnostic (ending (taken ++ t :: us))), ?_⟩
    rw [parse_eq, whole, program_log, log, List.map_append, List.map_cons]
    rw [map_diagnostic_of_placed (fun r mem => (mild r mem).1) _ t]
    rfl
  refine ⟨early.map (Report.diagnostic t), Report.diagnostic t ⟨some t, fault⟩,
    ⟨?_, ?_, ?_, ?_, ?_⟩, ?_⟩
  · rw [split]
    exact reported others
  · exact unstopped_of_mild (fun r mem => (mild r mem).2) t
  · exact stopsDeclaration_diagnostic_iff.mpr stops
  · rw [split, List.length_append]
    exact Nat.le_add_right _ _
  · refine ⟨fault.message, ?_⟩
    rw [split, List.getElem?_append_right (Nat.le_refl _), Nat.sub_self]
    rfl
  · intro us agrees
    have kept : ts.take (taken.length + 1) = taken ++ [t] := by
      rw [split, List.append_cons]
      exact List.take_left' (by rw [List.length_append, List.length_singleton])
    have same : us = taken ++ t :: us.drop (taken.length + 1) := by
      rw [List.append_cons, ← kept, ← agrees, List.take_append_drop]
    rw [same]
    exact reported _

/-- Where the tokens ran out, the end is named, and only tokens with the same end run out the same
way. -/
theorem firstStop_of_atEnd (atEnd : ampleDeclarations.FaultAtEnd (body ts)) :
    ∃ early first, FirstStop ts (body ts).length early first ∧
      ∀ us, us.take ((body ts).length + 1) = ts.take ((body ts).length + 1) →
        ((body ts).length = ts.length → us = ts) →
        ∃ more, (parse us).2 = early ++ first :: more := by
  obtain ⟨-, early, fault, more, quiet, stops, logged⟩ := atEnd
  have reported : (parse ts).2 = early.map (Report.diagnostic (ending ts)) ++
      Report.diagnostic (ending ts) ⟨none, fault⟩ :: more.map (Report.diagnostic (ending ts)) := by
    rw [parse_eq, program_log, logged, List.map_append, List.map_cons]
  refine ⟨early.map (Report.diagnostic (ending ts)), Report.diagnostic (ending ts) ⟨none, fault⟩,
    ⟨⟨_, reported⟩, unstopped_of_mild quiet _, stopsDeclaration_diagnostic_iff.mpr stops, ?_, ?_⟩,
    ?_⟩
  · exact (List.takeWhile_prefix _).length_le
  · refine ⟨fault.message, ?_⟩
    rw [getElem?_body_length]
    rfl
  · intro us agrees whole
    refine ⟨_, Eq.trans ?_ reported⟩
    rcases exists_body_split ts with same | ⟨others, split, ends⟩
    · rw [whole (congrArg List.length same).symm]
    · -- both have the ending token behind the same body
      have kept : ts.take ((body ts).length + 1) = body ts ++ [ending ts] := by
        have cut := congrArg (List.take ((body ts).length + 1)) split
        rw [List.append_cons, List.take_left' (by rw [List.length_append, List.length_singleton])]
          at cut
        exact cut
      have same : us = body ts ++ ending ts :: us.drop ((body ts).length + 1) := by
        rw [List.append_cons, ← kept, ← agrees, List.take_append_drop]
      rw [same, parse_ended (endless_body ts) ends, parse_eq ts]

/-- The first error that stops a declaration is located at the earliest possible token.  The tokens
before the one that it names can be continued so that nothing stops a declaration.  All tokens that
agree with the given ones up to and including it, or the given ones alone if they ran out, lead to
the same errors up to and including this one. -/
theorem firstStop_is_earliest {ts : List Token} (stopped : ∃ d ∈ (parse ts).2, d.StopsDeclaration) :
    ∃ k early first, FirstStop ts k early first ∧
      (∃ us, ∀ d ∈ (parse (ts.take k ++ us)).2, ¬ d.StopsDeclaration) ∧
      ∀ us, us.take (k + 1) = ts.take (k + 1) → (k = ts.length → us = ts) →
        ∃ more, (parse us).2 = early ++ first :: more := by
  have bodyPrefix : body ts <+: ts := List.takeWhile_prefix _
  by_cases inside : ampleDeclarations.FaultInside (body ts)
  · obtain ⟨taken, t, others, split, blames, faultless⟩ := exists_first_blame inside
    obtain ⟨tail, whole⟩ := bodyPrefix
    rw [split, List.append_assoc, List.cons_append] at whole
    have endless : Endless (taken ++ [t]) := fun u mem => endless_body ts u (by
      rw [split, List.append_cons]
      exact List.mem_append_left others mem)
    obtain ⟨early, first, stop, agrees⟩ := firstStop_of_blames endless whole.symm blames
    refine ⟨taken.length, early, first, stop, ?_, fun us same _ => agrees us same⟩
    rw [← whole, List.take_left' rfl]
    exact exists_unstopped (fun u mem => endless u (List.mem_append_left [t] mem)) faultless
  · have atEnd : ampleDeclarations.FaultAtEnd (body ts) := by
      have reads :=
        (reads_declarations ((body ts).length + 1)).reading (body ts) (Nat.lt_succ_self _)
      rcases reads.decided with ⟨trees, rest, passes⟩ | faulty | ⟨atEnd, -⟩
      · obtain ⟨d, mem, stops⟩ := stopped
        rw [parse_eq, program_log, Outcome.log_of_done passes.1] at mem
        exact absurd stops (unstopped_of_mild (fun r found => (passes.2 r found).2) _ d mem)
      · exact absurd faulty inside
      · exact atEnd
    obtain ⟨early, first, stop, agrees⟩ := firstStop_of_atEnd atEnd
    refine ⟨(body ts).length, early, first, stop, ?_, agrees⟩
    rw [← List.prefix_iff_eq_take.mp bodyPrefix]
    exact exists_unstopped (endless_body ts) inside

/-- A fault on the way and then one that stops a declaration: `break; (nil;` -/
def unclosedGrouping : List Token :=
  [Kind.break, .semicolon, .leftParen, .nil, .semicolon].map fun kind => ⟨⟨"", 1⟩, kind⟩

theorem firstStop_is_earliest_unclosedGrouping :
    (parse unclosedGrouping).2 =
      [.syntactic ⟨⟨"", 1⟩, .break⟩ "Can't use 'break' outside of a loop.",
      .syntactic ⟨⟨"", 1⟩, .semicolon⟩ "Expected ')' after expression."] ∧
    ∃ k early first, FirstStop unclosedGrouping k early first ∧
      (∃ us, ∀ d ∈ (parse (unclosedGrouping.take k ++ us)).2, ¬ d.StopsDeclaration) ∧
      ∀ us, us.take (k + 1) = unclosedGrouping.take (k + 1) →
        (k = unclosedGrouping.length → us = unclosedGrouping) →
        ∃ more, (parse us).2 = early ++ first :: more := by
  have reported : (parse unclosedGrouping).2 =
      [.syntactic ⟨⟨"", 1⟩, .break⟩ "Can't use 'break' outside of a loop.",
      .syntactic ⟨⟨"", 1⟩, .semicolon⟩ "Expected ')' after expression."] := rfl
  have stopped : ∃ d ∈ (parse unclosedGrouping).2, d.StopsDeclaration := by
    rw [reported]
    exact ⟨_, List.mem_cons_of_mem _ List.mem_cons_self, _, .missing .parenAfterGrouping, rfl, rfl⟩
  exact ⟨reported, firstStop_is_earliest stopped⟩

end FirstStop

end Lox
