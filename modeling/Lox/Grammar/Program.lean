import Lox.Diagnostic
import Lox.Grammar.Statement

/-!
# Parsing programs and expressions

A list of tokens is parsed up to its first ending token.  A list without one is parsed as if an
ending token on the line of its last token followed.
-/

namespace Lox

namespace Report

/-- The report with the token that it is at, where `ending` is the token at the end. -/
def diagnostic (ending : Token) (r : Report) : Diagnostic :=
  .syntactic (r.token?.getD ending) r.fault.message

end Report

namespace Grammar

/-- The tokens before the first ending token. -/
def body (ts : List Token) : List Token := ts.takeWhile (!·.isEnding)

/-- The first ending token, or the one that is understood to follow. -/
def ending (ts : List Token) : Token :=
  (ts.find? Token.isEnding).getD (.ending ((ts.getLast?.map (·.line)).getD 1))

/-- The declarations of a program, each of them parsed or dropped.  Nothing but the end stops them:
a closing brace is no end here. -/
def declarations (ts : List Token) : Outcome (List (Option Stmt)) :=
  let statement := statement ts.length .declaration .top
  Parser.many (fun _ ts => if ts.isEmpty then none else some (recovering statement ts))
    ts.length 0 ts

/-- A program: the statements that could be parsed, and the reports on the way. -/
def program (ts : List Token) : List Stmt × List Report :=
  let o := declarations ts
  match o.reply with
  | .done statements _ => (statements.filterMap id, o.reports)
  | .abort _ _ => ([], o.reports)

/-- An expression that takes all the tokens, or the report of why there is none.  A fault that stops
the parser comes first, then the first report on the way, then a token that is left over. -/
def wholeExpression (ts : List Token) : Except Report Expr :=
  let o := expression ts.length ts
  match o.reply with
  | .abort fault rest => .error ⟨rest.head?, fault⟩
  | .done value rest =>
    match o.reports, rest with
    | report :: _, _ => .error report
    | [], t :: _ => .error ⟨some t, .endExpected⟩
    | [], [] => .ok value

end Grammar

/-- The statements of a program and the syntax errors in it. -/
def parse (ts : List Token) : List Stmt × List Diagnostic :=
  let (statements, reports) := Grammar.program (Grammar.body ts)
  (statements, reports.map (Report.diagnostic (Grammar.ending ts)))

/-- The expression that the tokens are, or the syntax error in them. -/
def parseExpression (ts : List Token) : Except Diagnostic Expr :=
  (Grammar.wholeExpression (Grammar.body ts)).mapError (Report.diagnostic (Grammar.ending ts))

end Lox
