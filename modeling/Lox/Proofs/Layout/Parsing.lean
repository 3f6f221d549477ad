import Lox.Proofs.Layout.Lined

/-!
# Parsing tokens with other line numbers

A parser looks at the kinds of tokens and never at their lines.  So tokens with other line numbers
are parsed into the same trees with these other line numbers, and the same faults are found, at the
same tokens, with the same recovery.

* `Parser.Relined`: what one parser does with some tokens, another does with the tokens after a
  change of lines.
* `Grammar.statement_relined`, `parse_reline`: the grammar takes part in any change of lines.
-/

namespace Lox

open Lox.Parser

variable (f : Nat → Nat) {α β : Type} [Lined α] [Lined β]

instance : Lined Report where
  reline f report := { report with token? := reline f report.token? }
  reline_reline f g report := by simp only [reline_reline]

instance : Lined (Reply α) where
  reline f
    | .done value rest => .done (reline f value) (reline f rest)
    | .abort fault rest => .abort fault (reline f rest)
  reline_reline f g reply := by cases reply <;> simp only [reline_reline]

instance : Lined (Outcome α) where
  reline f o := ⟨reline f o.reports, reline f o.reply⟩
  reline_reline f g o := by simp only [reline_reline]

variable {f}

theorem Outcome.bind_reline {o : Outcome α} {next other : α → List Token → Outcome β}
    (rest : ∀ value ts, other (reline f value) (reline f ts) = reline f (next value ts)) :
    (reline f o).bind other = reline f (o.bind next) := by
  obtain ⟨reports, reply⟩ := o
  cases reply with
  | done value ts =>
    change Outcome.mk (reline f reports ++ (other (reline f value) (reline f ts)).reports)
      (other (reline f value) (reline f ts)).reply =
      ⟨reline f (reports ++ (next value ts).reports), reline f (next value ts).reply⟩
    rw [rest, reline_append]
    rfl
  | abort fault ts => rfl

namespace Parser

variable (f) in
/-- On tokens with other lines the second parser does what the first one does on the tokens, with
these other lines. -/
def Relined (p q : Parser α) : Prop := ∀ ts, q (reline f ts) = reline f (p ts)

namespace Relined

variable {p q : Parser α}

theorem pure (value : α) : Relined f (Pure.pure value) (Pure.pure (reline f value)) := fun _ => rfl

theorem bind (first : Relined f p q) {next other : α → Parser β}
    (rest : ∀ value, Relined f (next value) (other (reline f value))) :
    Relined f (p >>= next) (q >>= other) := by
  intro ts
  rw [bind_apply, bind_apply, first]
  exact Outcome.bind_reline rest

theorem map (first : Relined f p q) {g h : α → β}
    (values : ∀ value, h (reline f value) = reline f (g value)) :
    Relined f (g <$> p) (h <$> q) := by
  intro ts
  rw [map_apply, map_apply, first]
  refine Outcome.bind_reline fun value ts => ?_
  rw [values]
  rfl

theorem some (first : Relined f p q) : Relined f (Option.some <$> p) (Option.some <$> q) :=
  first.map fun _ => rfl

theorem abort (fault : SyntaxFault) :
    Relined f (Parser.abort fault : Parser α) (Parser.abort fault) := fun _ => rfl

theorem reportAt (token : Token) (fault : SyntaxFault) :
    Relined f (Parser.reportAt token fault) (Parser.reportAt (reline f token) fault) := fun _ => rfl

theorem reportHere (fault : SyntaxFault) :
    Relined f (Parser.reportHere fault) (Parser.reportHere fault) := by
  intro ts
  cases ts <;> rfl

theorem onlyIf {p q : Parser Unit} (condition : Bool) (first : Relined f p q) :
    Relined f (Parser.onlyIf condition p) (Parser.onlyIf condition q) := by
  cases condition with
  | true => exact first
  | false => exact .pure ()

theorem require (requirement : Requirement) :
    Relined f (Parser.require requirement) (Parser.require requirement) := by
  intro ts
  cases ts with
  | nil => rfl
  | cons t rest =>
    simp only [reline_cons, Parser.require, Token.kind_reline]
    split <;> rfl

omit [Lined α] in
theorem isNext_reline (kind : Kind) (ts : List Token) :
    isNext kind (reline f ts) = isNext kind ts := by
  cases ts <;> rfl

theorem unlessNext (kind : Kind) (first : Relined f p q) :
    Relined f (Parser.unlessNext kind p) (Parser.unlessNext kind q) := by
  intro ts
  simp only [Parser.unlessNext, isNext_reline]
  split
  · rfl
  · exact first.some ts

theorem ifNext (kind : Kind) (first : Relined f p q) :
    Relined f (Parser.ifNext kind p) (Parser.ifNext kind q) := by
  intro ts
  cases ts with
  | nil => rfl
  | cons t rest =>
    simp only [reline_cons, Parser.ifNext, Token.kind_reline]
    split
    · exact first.some rest
    · rfl

theorem chain {step? other? : α → List Token → Option (Outcome α)}
    (steps : ∀ value ts, other? (reline f value) (reline f ts) = reline f (step? value ts))
    (budget : Nat) (value : α) :
    Relined f (Parser.chain step? budget value) (Parser.chain other? budget (reline f value)) := by
  induction budget generalizing value with
  | zero => exact .pure value
  | succ budget ih =>
    intro ts
    simp only [Parser.chain, steps]
    cases step? value ts with
    | none => rfl
    | some o => exact Outcome.bind_reline ih

theorem many {step? other? : Nat → List Token → Option (Outcome α)}
    (steps : ∀ count ts, other? count (reline f ts) = reline f (step? count ts))
    (budget count : Nat) :
    Relined f (Parser.many step? budget count) (Parser.many other? budget count) := by
  induction budget generalizing count with
  | zero => exact .pure []
  | succ budget ih =>
    intro ts
    simp only [Parser.many, steps]
    cases step? count ts with
    | none => rfl
    | some o => exact Outcome.bind_reline fun value => (ih (count + 1)).map fun _ => rfl

theorem separated {item other : Nat → Parser α}
    (items : ∀ count, Relined f (item count) (other count)) (budget : Nat) :
    Relined f (Parser.separated item budget) (Parser.separated other budget) := by
  have steps : ∀ count ts, afterComma? other count (reline f ts) =
      reline f (afterComma? item count ts) := by
    intro count ts
    cases ts with
    | nil => rfl
    | cons t rest =>
      simp only [reline_cons, afterComma?, Token.kind_reline, items count rest]
      split <;> rfl
  intro ts
  simp only [Parser.separated, isNext_reline, items 0 ts]
  split
  · rfl
  · exact Outcome.bind_reline fun value => (many steps budget 1).map fun _ => rfl

end Relined

end Parser

/-! ## Expressions -/

namespace Grammar

section Expressions

variable {nested other : Parser Expr} (nests : Relined f nested other)

include nests

theorem groupingRest_relined : Relined f (groupingRest nested) (groupingRest other) :=
  nests.bind fun inner => (Relined.require _).bind fun _ => .pure (Expr.grouping inner)

theorem primary_relined : Relined f (primary nested) (primary other) := by
  intro ts
  cases ts with
  | nil => rfl
  | cons t rest =>
    simp only [reline_cons, primary, Token.kind_reline]
    generalize t.kind = kind
    cases kind with
    | leftParen => exact groupingRest_relined nests rest
    | _ => rfl

theorem argument_relined (count : Nat) : Relined f (argument nested count) (argument other count) :=
  (Relined.onlyIf _ (.reportHere _)).bind fun _ => nests

theorem callRest_relined (budget : Nat) (callee : Expr) :
    Relined f (callRest budget nested callee) (callRest budget other (reline f callee)) := by
  refine (Relined.separated (argument_relined nests) budget).bind fun arguments => ?_
  refine (Relined.require _).bind fun paren => ?_
  rw [← Expr.reline_call]
  exact .pure _

theorem call_relined (budget : Nat) : Relined f (call budget nested) (call budget other) := by
  refine (primary_relined nests).bind fun callee => Relined.chain ?_ budget callee
  intro callee ts
  cases ts with
  | nil => rfl
  | cons t rest =>
    simp only [reline_cons, call?, Token.kind_reline, callRest_relined nests budget callee rest]
    split <;> rfl

theorem unary_relined (budget : Nat) : Relined f (unary budget nested) (unary budget other) := by
  intro ts
  induction ts with
  | nil => exact call_relined nests budget []
  | cons t rest ih =>
    simp only [reline_cons, unary, Token.kind_reline, Token.toLexeme_reline]
    cases UnaryOp.ofKind? t.kind with
    | none => exact call_relined nests budget (t :: rest)
    | some op =>
      rw [ih]
      exact Outcome.bind_reline fun _ _ => rfl

theorem operations_relined (budget rank : Nat) :
    Relined f (operations budget nested rank) (operations budget other rank) := by
  induction rank with
  | zero => exact unary_relined nests budget
  | succ rank ih =>
    refine ih.bind fun left => Relined.chain ?_ budget left
    intro left ts
    cases ts with
    | nil => rfl
    | cons t rest =>
      simp only [reline_cons, operation?, Token.kind_reline, Token.toLexeme_reline]
      cases Operator.ofKind? t.kind with
      | none => rfl
      | some op =>
        have operation : (operations budget other rank (reline f rest)).map
            (Expr.operation (reline f left) op (reline f t.toLexeme)) =
            reline f
              ((operations budget nested rank rest).map (Expr.operation left op t.toLexeme)) := by
          rw [ih]
          exact Outcome.bind_reline fun _ _ => rfl
        simp only [operation]
        split <;> rfl

theorem assignment_relined (budget : Nat) :
    Relined f (assignment budget nested) (assignment budget other) := by
  refine (operations_relined nests budget _).bind fun target ts => ?_
  cases ts with
  | nil => rfl
  | cons t rest =>
    have assigned : Relined f (nested >>= assignTo target t)
        (other >>= assignTo (reline f target) (reline f t)) := by
      refine nests.bind fun value => ?_
      cases target with
      | «variable» name => exact .pure (Expr.assign name value)
      | call callee paren arguments =>
        simp only [Expr.reline_call, assignTo]
        refine (Relined.reportAt t _).bind fun _ => ?_
        rw [← Expr.reline_call]
        exact .pure _
      | _ => exact (Relined.reportAt t _).bind fun _ => .pure _
    simp only [reline_cons, assignmentRest, Token.kind_reline]
    split
    · exact assigned rest
    · rfl

end Expressions

theorem expression_relined (budget : Nat) : Relined f (expression budget) (expression budget) := by
  induction budget with
  | zero => exact .abort _
  | succ budget ih => exact assignment_relined ih budget

/-! ## Statements -/

theorem afterFault_reline (ts : List Token) :
    afterFault (reline f ts) = reline f (afterFault ts) := by
  fun_induction afterFault ts with
  | case1 => rfl
  | case2 t rest semicolon =>
    simp only [reline_cons, afterFault, Token.kind_reline, semicolon, ↓reduceIte]
  | case3 t other =>
    simp only [reline_cons, reline_nil, afterFault, Token.kind_reline, other, ↓reduceIte]
  | case4 t other next rest starts =>
    simp only [reline_cons, afterFault, Token.kind_reline, other, starts, ↓reduceIte]
  | case5 t other next rest goesOn ih =>
    simp only [reline_cons, afterFault, Token.kind_reline, other, goesOn, ↓reduceIte] at ih ⊢
    exact ih

theorem recovering_relined {statement other : Parser Stmt}
    (statements : Relined f statement other) :
    Relined f (recovering statement) (recovering other) := by
  intro ts
  simp only [recovering, statements ts]
  obtain ⟨reports, reply⟩ := statement ts
  cases reply with
  | done value rest => rfl
  | abort fault rest =>
    change Outcome.mk (reline f reports ++ [⟨(reline f rest).head?, fault⟩])
      (.done none (afterFault (reline f rest))) =
      ⟨reline f (reports ++ [⟨rest.head?, fault⟩]), .done none (reline f (afterFault rest))⟩
    rw [afterFault_reline, reline_append, head?_reline]
    rfl

section Statements

variable {expression other : Parser Expr}

theorem variableDeclaration_relined (expressions : Relined f expression other) :
    Relined f (variableDeclaration expression) (variableDeclaration other) := by
  refine (Relined.require _).bind fun name => ?_
  refine (expressions.ifNext _).bind fun initializer => ?_
  exact (Relined.require _).bind fun _ => .pure (Stmt.var name initializer)

theorem expressionStatement_relined (expressions : Relined f expression other) :
    Relined f (expressionStatement expression) (expressionStatement other) :=
  expressions.bind fun value => (Relined.require _).bind fun _ => .pure (Stmt.expression value)

theorem printStatement_relined (expressions : Relined f expression other) :
    Relined f (printStatement expression) (printStatement other) :=
  expressions.bind fun value => (Relined.require _).bind fun _ => .pure (Stmt.print value)

theorem breakStatement_relined (context : Context) (keyword : Token) :
    Relined f (breakStatement context keyword) (breakStatement context (reline f keyword)) := by
  refine (Relined.onlyIf _ (.reportAt keyword _)).bind fun _ => ?_
  exact (Relined.require _).bind fun _ => .pure (Stmt.break keyword.toLexeme)

theorem returnStatement_relined (expressions : Relined f expression other) (context : Context)
    (keyword : Token) :
    Relined f (returnStatement context expression keyword)
      (returnStatement context other (reline f keyword)) := by
  refine (Relined.onlyIf _ (.reportAt keyword _)).bind fun _ => ?_
  refine (expressions.unlessNext _).bind fun value => ?_
  exact (Relined.require _).bind fun _ => .pure (Stmt.return keyword.toLexeme value)

theorem forInitializer_relined (expressions : Relined f expression other) :
    Relined f (forInitializer expression) (forInitializer other) := by
  intro ts
  cases ts with
  | nil => exact (expressionStatement_relined expressions).some []
  | cons t rest =>
    simp only [reline_cons, forInitializer, Token.kind_reline]
    split
    · rfl
    · exact (variableDeclaration_relined expressions).some rest
    · exact (expressionStatement_relined expressions).some (t :: rest)

variable {branch nested : Parser Stmt}

theorem ifStatement_relined (expressions : Relined f expression other)
    (branches : Relined f branch nested) :
    Relined f (ifStatement expression branch) (ifStatement other nested) := by
  refine (Relined.require _).bind fun _ => expressions.bind fun condition => ?_
  refine (Relined.require _).bind fun _ => branches.bind fun thenBranch => ?_
  refine (branches.ifNext _).bind fun elseBranch => ?_
  rw [← Stmt.reline_if]
  exact .pure _

theorem whileStatement_relined (expressions : Relined f expression other)
    (bodies : Relined f branch nested) :
    Relined f (whileStatement expression branch) (whileStatement other nested) := by
  refine (Relined.require _).bind fun _ => expressions.bind fun condition => ?_
  exact (Relined.require _).bind fun _ => bodies.bind fun body => .pure (Stmt.while condition body)

theorem forLoop_reline (initializer : Option Stmt) (condition increment : Option Expr)
    (body : Stmt) :
    Stmt.forLoop (reline f initializer) (reline f condition) (reline f increment) (reline f body) =
      reline f (Stmt.forLoop initializer condition increment body) := by
  cases initializer <;> cases condition <;> cases increment <;> simp [Stmt.forLoop]

theorem forStatement_relined (expressions : Relined f expression other)
    (bodies : Relined f branch nested) :
    Relined f (forStatement expression branch) (forStatement other nested) := by
  refine (Relined.require _).bind fun _ =>
    (forInitializer_relined expressions).bind fun initializer => ?_
  refine (expressions.unlessNext _).bind fun condition => (Relined.require _).bind fun _ => ?_
  refine (expressions.unlessNext _).bind fun increment => (Relined.require _).bind fun _ => ?_
  refine bodies.bind fun body => ?_
  rw [forLoop_reline]
  exact .pure _

theorem block_relined (statements : Relined f branch nested) (budget : Nat) :
    Relined f (block budget branch) (block budget nested) := by
  have steps : ∀ count ts, declaration? nested count (reline f ts) =
      reline f (declaration? branch count ts) := by
    intro count ts
    simp only [declaration?, isEmpty_reline, Relined.isNext_reline,
      recovering_relined statements ts]
    split <;> rfl
  refine (Relined.many steps budget 0).bind fun trees => (Relined.require _).bind fun _ => ?_
  rw [filterMap_id_reline]
  exact .pure _

theorem functionDeclaration_relined (statements : Relined f branch nested) (budget : Nat) :
    Relined f (functionDeclaration budget branch) (functionDeclaration budget nested) := by
  have parameters : ∀ count, Relined f (parameter count) (parameter count) := fun count =>
    (Relined.onlyIf _ (.reportHere _)).bind fun _ => .require _
  refine (Relined.require _).bind fun name => (Relined.require _).bind fun _ => ?_
  refine (Relined.separated parameters budget).bind fun params =>
    (Relined.require _).bind fun _ => ?_
  refine (Relined.require _).bind fun _ => (block_relined statements budget).bind fun body => ?_
  rw [← Stmt.reline_function]
  exact .pure _

end Statements

theorem statementRule_relined {expression other : Parser Expr}
    (expressions : Relined f expression other)
    {nested otherNested : Position → Context → Parser Stmt}
    (nests : ∀ position context, Relined f (nested position context) (otherNested position context))
    (budget : Nat) (position : Position) (context : Context) :
    Relined f (statementRule budget expression nested position context)
      (statementRule budget other otherNested position context) := by
  intro ts
  cases ts with
  | nil => exact expressionStatement_relined expressions []
  | cons t rest =>
    simp only [reline_cons, statementRule, Token.kind_reline]
    split
    · exact functionDeclaration_relined (nests _ _) budget rest
    · exact variableDeclaration_relined expressions rest
    · exact breakStatement_relined context t rest
    · exact forStatement_relined expressions (nests _ _) rest
    · exact ifStatement_relined expressions (nests _ _) rest
    · exact printStatement_relined expressions rest
    · exact returnStatement_relined expressions context t rest
    · exact whileStatement_relined expressions (nests _ _) rest
    · exact (block_relined (nests _ _) budget).map (fun _ => (Stmt.reline_block f _).symm) rest
    · exact expressionStatement_relined expressions (t :: rest)

theorem statement_relined (budget : Nat) (position : Position) (context : Context) :
    Relined f (statement budget position context) (statement budget position context) := by
  induction budget generalizing position context with
  | zero => exact .abort _
  | succ budget ih => exact statementRule_relined (expression_relined _) ih budget position context

/-! ## Programs -/

theorem program_reline (ts : List Token) : program (reline f ts) = reline f (program ts) := by
  have steps : ∀ (count : Nat) (us : List Token),
      (if (reline f us).isEmpty then none
        else some (recovering (statement ts.length .declaration .top) (reline f us))) =
      reline f (if us.isEmpty then none
        else some (recovering (statement ts.length .declaration .top) us)) := by
    intro count us
    simp only [isEmpty_reline, recovering_relined (statement_relined _ _ _) us]
    split <;> rfl
  have parsed : declarations (reline f ts) = reline f (declarations ts) := by
    unfold declarations
    rw [length_reline]
    exact Relined.many steps ts.length 0 ts
  simp only [program, parsed]
  obtain ⟨reports, reply⟩ := declarations ts
  cases reply with
  | done trees rest => exact congrArg (·, reline f reports) (filterMap_id_reline f trees)
  | abort fault rest => rfl

theorem body_reline (ts : List Token) : body (reline f ts) = reline f (body ts) :=
  List.takeWhile_map ..

theorem ending_reline {ts : List Token} (nonempty : ts ≠ []) :
    ending (reline f ts) = reline f (ending ts) := by
  have found : (reline f ts).find? Token.isEnding = reline f (ts.find? Token.isEnding) :=
    List.find?_map ..
  have last : (reline f ts).getLast? = reline f ts.getLast? := List.getLast?_map ..
  simp only [ending, found, last]
  cases ts.find? Token.isEnding with
  | some token => rfl
  | none =>
    rw [List.getLast?_eq_some_getLast nonempty]
    rfl

end Grammar

theorem Report.diagnostic_reline {ending other : Token} (endings : other = reline f ending)
    (report : Report) :
    (reline f report).diagnostic other = reline f (report.diagnostic ending) := by
  subst endings
  obtain ⟨token?, fault⟩ := report
  cases token? <;> rfl

/-- A program with other line numbers is parsed into the same trees and reports, with these line
numbers. -/
theorem parse_reline (ts : List Token) : parse (reline f ts) = reline f (parse ts) := by
  by_cases empty : ts = []
  · -- there is nothing to report at the end of no tokens
    subst empty
    rfl
  · simp only [parse, Grammar.body_reline, Grammar.program_reline]
    have reports := map_reline f (Report.diagnostic_reline (f := f) (Grammar.ending_reline empty))
    exact congrArg (reline f (Grammar.program (Grammar.body ts)).1, ·) (reports _)

end Lox
