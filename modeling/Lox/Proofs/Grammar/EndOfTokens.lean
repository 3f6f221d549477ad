import Lox.Proofs.Grammar.Counters

/-!
# Running out of tokens

Tokens end at their first ending token, and tokens without one end where they run out.  A cursor
meets the two endings in different ways.  It sees an ending token like any other token and must not
take it, and it sees nothing at all where the tokens have run out.  It has to make up an ending
token there, and the line of that token is the one it was last moved to.

* `Cursor.parse` and `Cursor.parseExpression` are run on all the tokens, on those behind an ending
  token too, and know nothing of where the tokens end.
* `Cursor.parse_eq` and `Cursor.parseExpression_eq`: they find what is found when the tokens are cut
  off at the first ending token before.
* `running_out_is_endOfFile`: so tokens that run out are read as if an ending token on the line of
  the last one followed, and nothing behind it matters.
-/

namespace Lox.Grammar

open Lox.Parser

/-! ## A cursor over all the tokens -/

namespace Cursor

/-- The line that a cursor is on behind some tokens.  Each token that it takes moves it to its own
line. -/
def lineBehind (taken : List Token) : Nat := taken.foldl (fun _ t => t.line) 1

/-- The token that a cursor makes up where it finds none.  It has taken all the tokens then. -/
def understood (ts : List Token) : Token := .ending (lineBehind ts)

/-- The statements of a program and the syntax errors in it, if the cursor comes to an end. -/
def parse (ts : List Token) : Option (List Stmt × List Diagnostic) :=
  (Counted.program ts.length .top ts).bind fun result =>
    match result.1.reply with
    | .done trees _ =>
      some (trees.filterMap id, result.1.reports.map (Report.diagnostic (understood ts)))
    | .abort _ _ => none

/-- The expression before the end, or the syntax error in it. -/
def parseExpression (ts : List Token) : Except Diagnostic Expr :=
  let o := expression ts.length ts
  match o.reply with
  | .abort fault rest => .error (Report.diagnostic (understood ts) ⟨rest.head?, fault⟩)
  | .done value rest =>
    match o.reports with
    | report :: _ => .error (report.diagnostic (understood ts))
    | [] =>
      if atEnd rest then .ok value
        else .error (Report.diagnostic (understood ts) ⟨rest.head?, .endExpected⟩)

/-- The line behind some tokens is the line of the last of them. -/
theorem lineBehind_eq (ts : List Token) : lineBehind ts = (ts.getLast?.map (·.line)).getD 1 := by
  rcases List.eq_nil_or_concat ts with none | ⟨early, last, split⟩
  · rw [none]
    rfl
  · rw [split, List.concat_eq_append, List.getLast?_append]
    simp [lineBehind]

end Cursor

theorem ending_of_endless {ts : List Token} (endless : ∀ t ∈ ts, t.kind ≠ .endOfFile) :
    ending ts = .ending ((ts.getLast?.map (·.line)).getD 1) := by
  rw [ending, find?_isEnding_eq_none endless, Option.getD_none]

/-- Tokens are cut off at the first ending token, whatever is behind it. -/
theorem body_append_ending {ts : List Token} (endless : ∀ t ∈ ts, t.kind ≠ .endOfFile) {e : Token}
    (ends : e.isEnding = true) (others : List Token) : body (ts ++ e :: others) = ts := by
  rw [body_append endless]
  simp [body, ends]

theorem ending_append_ending {ts : List Token} (endless : ∀ t ∈ ts, t.kind ≠ .endOfFile) {e : Token}
    (ends : e.isEnding = true) (others : List Token) : ending (ts ++ e :: others) = e := by
  rw [ending_append endless (List.cons_ne_nil e others)]
  simp [ending, ends]

namespace Cursor

variable {ts tail : List Token}

/-- A cursor that has come to the tail sees the ending token there, or makes it up. -/
theorem head?_getD_understood (split : ts = body ts ++ tail) :
    tail.head?.getD (understood ts) = ending ts := by
  rcases tail with _ | ⟨e, others⟩
  · have same : body ts = ts := by rw [← List.append_nil (body ts), ← split]
    have endless := endless_body ts
    rw [same] at endless
    rw [ending_of_endless endless, ← lineBehind_eq]
    rfl
  · exact Counted.head?_tail_getD split

theorem map_diagnostic_understood (split : ts = body ts ++ tail) (reports : List Report) :
    (reports.map (Report.followedBy tail)).map (Report.diagnostic (understood ts)) =
      reports.map (Report.diagnostic (ending ts)) :=
  Counted.map_diagnostic_followedBy (head?_getD_understood split) reports

/-- A cursor over all the tokens finds the program before the first ending token. -/
theorem parse_eq (ts : List Token) : Cursor.parse ts = some (Lox.parse ts) := by
  obtain ⟨reports, trees, tail, split, found, outcome⟩ :=
    Counted.exists_program_eq (Nat.le_refl ts.length)
  rw [Cursor.parse, outcome, Lox.parse_eq, found, ← map_diagnostic_understood split]
  rfl

/-- On all the tokens the rule for expressions does what it does on the tokens before the first
ending token. -/
theorem expression_eq_followedBy (split : ts = body ts ++ tail) (ended : IsTail tail) :
    expression ts.length ts = (expression (body ts).length (body ts)).followedBy tail := by
  have whole := expression_ends ts.length (body ts) tail (endless_body ts) ended
  rw [← split] at whole
  rw [whole, expression_agree (Counted.length_body_le ts) (Nat.le_refl _) (body ts) (Nat.le_refl _)]

/-- A cursor over all the tokens finds the expression before the first ending token. -/
theorem parseExpression_eq (ts : List Token) :
    Cursor.parseExpression ts = Lox.parseExpression ts := by
  obtain ⟨tail, split, ended⟩ := exists_tail ts
  have whole := expression_eq_followedBy split ended
  have same : ∀ r : Report, (r.followedBy tail).diagnostic (understood ts) =
      r.diagnostic (ending ts) :=
    fun r => List.head_eq_of_cons_eq (map_diagnostic_understood split [r])
  have placed : ∀ (rest : List Token) (fault : SyntaxFault),
      Report.diagnostic (understood ts) ⟨(rest ++ tail).head?, fault⟩ =
        Report.diagnostic (ending ts) ⟨rest.head?, fault⟩ := by
    intro rest fault
    rw [Counted.head?_append_followedBy, same]
  cases replied : (expression (body ts).length (body ts)).reply with
  | abort fault rest =>
    simp only [Cursor.parseExpression, Lox.parseExpression, wholeExpression, whole, replied,
      Outcome.followedBy_of_abort replied, placed, Except.mapError]
  | done value rest =>
    have endless := (endless_body ts).of_done (expression_consumes _).shrinks replied
    cases reported : (expression (body ts).length (body ts)).reports with
    | cons report others =>
      simp only [Cursor.parseExpression, Lox.parseExpression, wholeExpression, whole,
        replied, reported, Outcome.followedBy_of_done replied, List.map_cons, same, Except.mapError]
    | nil =>
      simp only [Cursor.parseExpression, Lox.parseExpression, wholeExpression, whole,
        replied, reported,
        Outcome.followedBy_of_done replied, List.map_nil,
        Counted.atEnd_append endless ended, placed]
      cases rest <;> rfl

end Cursor

end Lox.Grammar

namespace Lox

open Lox.Grammar

/-- Running out of tokens is the same as an ending token.

Tokens without an ending token may run out, an ending token with an empty lexeme on the line of the
last of them may follow, on line 1 if there is none, and any tokens may follow that one.  The same
statements with the same errors are found every time, and the same expression or error, also by a
cursor that goes over all the tokens and makes up an ending token where it finds none. -/
theorem running_out_is_endOfFile {ts : List Token} (endless : ∀ t ∈ ts, t.kind ≠ .endOfFile)
    (rest : List Token) :
    ∀ us ∈ [ts, ts ++ [.ending ((ts.getLast?.map (·.line)).getD 1)],
        ts ++ [.ending ((ts.getLast?.map (·.line)).getD 1)] ++ rest],
      parse us = parse ts ∧ parseExpression us = parseExpression ts ∧
        Cursor.parse us = some (parse ts) ∧ Cursor.parseExpression us = parseExpression ts := by
  have cut : ∀ us, body us = ts → ending us = ending ts →
      parse us = parse ts ∧ parseExpression us = parseExpression ts ∧
        Cursor.parse us = some (parse ts) ∧ Cursor.parseExpression us = parseExpression ts := by
    intro us before last
    have statements : parse us = parse ts := by
      rw [parse_eq, parse_eq ts, before, body_eq_self endless, last]
    have tree : parseExpression us = parseExpression ts := by
      rw [parseExpression, parseExpression, before, body_eq_self endless, last]
    rw [Cursor.parse_eq, Cursor.parseExpression_eq]
    exact ⟨statements, tree, congrArg some statements, tree⟩
  have ends : (ending ts).isEnding = true := by
    rw [ending_of_endless endless]
    rfl
  rw [← ending_of_endless endless, List.append_assoc, List.singleton_append]
  intro us mem
  simp only [List.mem_cons, List.not_mem_nil, or_false] at mem
  rcases mem with same | same | same
  · rw [same]
    exact cut ts (body_eq_self endless) rfl
  · rw [same]
    exact cut _ (body_append_ending endless ends []) (ending_append_ending endless ends [])
  · rw [same]
    exact cut _ (body_append_ending endless ends rest) (ending_append_ending endless ends rest)

/-- A block and a grouping that are not closed, each of the tokens on a line of its own. -/
def unclosedGroupingInBlock : List Token :=
  [⟨⟨"\x7b", 1⟩, .leftBrace⟩, ⟨⟨"print", 2⟩, .print⟩, ⟨⟨"(", 3⟩, .leftParen⟩]

/-- Two errors are found at the end on line 3, also if the closing tokens follow behind an ending
token. -/
theorem running_out_is_endOfFile_unclosedGroupingInBlock :
    let closing : List Token :=
  [⟨⟨")", 4⟩, .rightParen⟩, ⟨⟨";", 4⟩, .semicolon⟩, ⟨⟨"\x7d", 5⟩, .rightBrace⟩]
    let found : List Stmt × List Diagnostic :=
      ([],
        [.syntactic (.ending 3) "Expect expression.",
          .syntactic (.ending 3) "Expected '\x7d' after block."])
    (∀ t ∈ unclosedGroupingInBlock, t.kind ≠ .endOfFile) ∧
    parse unclosedGroupingInBlock = found ∧
    parse (unclosedGroupingInBlock ++ [.ending 3] ++ closing) = found ∧
    Cursor.parse unclosedGroupingInBlock = some found ∧
    Cursor.parse (unclosedGroupingInBlock ++ [.ending 3] ++ closing) = some found := by
  intro closing found
  have endless : ∀ t ∈ unclosedGroupingInBlock, t.kind ≠ .endOfFile := by decide
  have reported : parse unclosedGroupingInBlock = found := rfl
  have same := running_out_is_endOfFile endless closing
  rw [reported] at same
  obtain ⟨-, -, bare, -⟩ := same unclosedGroupingInBlock List.mem_cons_self
  obtain ⟨closed, -, cursor, -⟩ := same (unclosedGroupingInBlock ++ [.ending 3] ++ closing)
    (List.mem_cons_of_mem _ (List.mem_cons_of_mem _ List.mem_cons_self))
  exact ⟨endless, reported, closed, bare, cursor⟩

end Lox
