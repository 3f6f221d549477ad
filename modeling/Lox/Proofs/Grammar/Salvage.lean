import Lox.Grammar.Program
import Lox.Proofs.Grammar.Clean

/-!
# What is made of any tokens

The parser goes on behind a fault, so there are trees of tokens that the grammar derives nothing
from.  Whatever the tokens are and whatever is reported, an operator in a tree is that of one of the
tokens, and a declaration stands only where one may stand.

* `Parser.Keeps`: what holds of every outcome of a parser, with one rule for each combinator.
* `Expr.Written`, `Stmt.Written`: the shape of the trees.
* `parse_written`: the statements of a program have it.
* `exists_forParts`: what becomes of a `for` statement.
-/

namespace Lox

open Grammar

/-! ## Every outcome of a parser -/

namespace Outcome

variable {α β : Type} {tokens : List Token} {Good : α → Prop} {Fine : β → Prop}

/-- A value, if there is one, is good, and the tokens that are left are among the given ones. -/
def Leaves (tokens : List Token) (Good : α → Prop) (o : Outcome α) : Prop :=
  match o.reply with
  | .done value rest => Good value ∧ rest ⊆ tokens
  | .abort _ rest => rest ⊆ tokens

theorem leaves_done {value : α} {rest : List Token} (good : Good value) (among : rest ⊆ tokens) :
    (done value rest).Leaves tokens Good :=
  ⟨good, among⟩

theorem leaves_abort {fault : SyntaxFault} {rest : List Token} (among : rest ⊆ tokens) :
    (abort fault rest).Leaves tokens Good :=
  among

theorem Leaves.bind {o : Outcome α} (leaves : o.Leaves tokens Good)
    {next : α → List Token → Outcome β}
    (further : ∀ value rest, Good value → rest ⊆ tokens → (next value rest).Leaves tokens Fine) :
    (o.bind next).Leaves tokens Fine := by
  rcases o with ⟨reports, reply⟩
  cases reply with
  | done value rest => exact further value rest leaves.1 leaves.2
  | abort fault rest => exact leaves

theorem Leaves.map {o : Outcome α} (leaves : o.Leaves tokens Good) {f : α → β}
    (kept : ∀ value, Good value → Fine (f value)) : (o.map f).Leaves tokens Fine :=
  leaves.bind fun value _ good among => leaves_done (kept value good) among

end Outcome

namespace Parser

variable {α β : Type} {tokens : List Token} {Good : α → Prop} {Fine : β → Prop}

/-- Started on some of the given tokens, the parser leaves some of them, and its value is good if it
has one. -/
def Keeps (tokens : List Token) (Good : α → Prop) (p : Parser α) : Prop :=
  ∀ ts, ts ⊆ tokens → (p ts).Leaves tokens Good

theorem keeps_pure {value : α} (good : Good value) : (pure value : Parser α).Keeps tokens Good :=
  fun _ among => Outcome.leaves_done good among

theorem keeps_abort (fault : SyntaxFault) : (abort fault : Parser α).Keeps tokens Good :=
  fun _ among => Outcome.leaves_abort among

theorem Keeps.bind {p : Parser α} (keeps : p.Keeps tokens Good) {next : α → Parser β}
    (further : ∀ value, Good value → (next value).Keeps tokens Fine) :
    (p >>= next).Keeps tokens Fine :=
  fun ts among => (keeps ts among).bind fun value rest good => further value good rest

theorem Keeps.mono {p : Parser α} (keeps : p.Keeps tokens Good) {Better : α → Prop}
    (imp : ∀ value, Good value → Better value) : p.Keeps tokens Better := by
  intro ts among
  rw [← Outcome.bind_done (p ts)]
  exact (keeps ts among).bind fun value rest good => Outcome.leaves_done (imp value good)

theorem Keeps.map {p : Parser α} (keeps : p.Keeps tokens Good) {f : α → β}
    (kept : ∀ value, Good value → Fine (f value)) : (f <$> p).Keeps tokens Fine :=
  fun ts among => (keeps ts among).map kept

theorem keeps_some {p : Parser α} (keeps : p.Keeps tokens Good) :
    (some <$> p).Keeps tokens fun value? => ∀ value ∈ value?, Good value := by
  refine keeps.map fun value good other same => ?_
  cases same
  exact good

theorem keeps_onlyIf {condition : Bool} {p : Parser Unit} (keeps : p.Keeps tokens fun _ => True) :
    (onlyIf condition p).Keeps tokens fun _ => True := by
  cases condition with
  | true => exact keeps
  | false => exact keeps_pure trivial

theorem keeps_reportAt (token : Token) (fault : SyntaxFault) :
    (reportAt token fault).Keeps tokens fun _ => True :=
  fun _ among => ⟨trivial, among⟩

theorem keeps_reportHere (fault : SyntaxFault) : (reportHere fault).Keeps tokens fun _ => True :=
  fun _ among => ⟨trivial, among⟩

theorem keeps_require (requirement : Requirement) :
    (require requirement).Keeps tokens fun _ => True := by
  intro ts among
  cases ts with
  | nil => exact among
  | cons t rest =>
    rw [require]
    split
    · exact Outcome.leaves_done trivial (List.cons_subset.1 among).2
    · exact Outcome.leaves_abort among

theorem keeps_unlessNext (kind : Kind) {p : Parser α} (keeps : p.Keeps tokens Good) :
    (unlessNext kind p).Keeps tokens fun value? => ∀ value ∈ value?, Good value := by
  intro ts among
  rw [unlessNext]
  split
  · exact Outcome.leaves_done (by simp) among
  · exact keeps_some keeps ts among

theorem keeps_ifNext (kind : Kind) {p : Parser α} (keeps : p.Keeps tokens Good) :
    (ifNext kind p).Keeps tokens fun value? => ∀ value ∈ value?, Good value := by
  intro ts among
  cases ts with
  | nil => exact Outcome.leaves_done (by simp) among
  | cons t rest =>
    rw [ifNext]
    split
    · exact keeps_some keeps rest (List.cons_subset.1 among).2
    · exact Outcome.leaves_done (by simp) among

theorem keeps_chain {step? : α → List Token → Option (Outcome α)}
    (step : ∀ value ts o, Good value → ts ⊆ tokens → step? value ts = some o → o.Leaves tokens Good)
    (budget : Nat) {value : α} (good : Good value) :
    (chain step? budget value).Keeps tokens Good := by
  induction budget generalizing value with
  | zero => exact keeps_pure good
  | succ budget ih =>
    intro ts among
    cases found : step? value ts with
    | none =>
      rw [chain_of_none found]
      exact Outcome.leaves_done good among
    | some o =>
      rw [chain_succ found]
      exact (step value ts o good among found).bind fun next rest good among => ih good rest among

theorem keeps_many {step? : Nat → List Token → Option (Outcome α)}
    (step : ∀ count ts o, ts ⊆ tokens → step? count ts = some o → o.Leaves tokens Good)
    (budget count : Nat) :
    (many step? budget count).Keeps tokens fun values => ∀ value ∈ values, Good value := by
  induction budget generalizing count with
  | zero => exact keeps_pure (by simp)
  | succ budget ih =>
    intro ts among
    cases found : step? count ts with
    | none =>
      rw [many_of_none found]
      exact Outcome.leaves_done (by simp) among
    | some o =>
      rw [many_succ found]
      refine (step count ts o among found).bind fun value rest good among => ?_
      exact (ih (count + 1)).map (fun values all => List.forall_mem_cons.2 ⟨good, all⟩) rest among

theorem keeps_separated {item : Nat → Parser α} (items : ∀ count, (item count).Keeps tokens Good)
    (budget : Nat) :
    (separated item budget).Keeps tokens fun values => ∀ value ∈ values, Good value := by
  intro ts among
  rw [separated]
  split
  · exact Outcome.leaves_done (by simp) among
  · refine (items 0 ts among).bind fun value rest good among => ?_
    refine (keeps_many ?_ budget 1).map
      (fun values all => List.forall_mem_cons.2 ⟨good, all⟩) rest among
    intro count ts o among found
    cases ts with
    | nil => cases found
    | cons t rest =>
      rw [afterComma?] at found
      split at found
      · cases found
        exact items count rest (List.cons_subset.1 among).2
      · cases found

theorem afterFault_subset (ts : List Token) : afterFault ts ⊆ ts := by
  induction ts with
  | nil => exact List.Subset.refl _
  | cons t rest ih =>
    unfold afterFault
    split
    · exact List.subset_cons_self t rest
    · split
      · exact List.nil_subset _
      · split
        · exact List.subset_cons_self ..
        · exact List.Subset.trans ih (List.subset_cons_self ..)

theorem keeps_recovering {statement : Parser Stmt} {Good : Stmt → Prop}
    (keeps : statement.Keeps tokens Good) :
    (recovering statement).Keeps tokens fun value? => ∀ value ∈ value?, Good value := by
  intro ts among
  have leaves := keeps ts among
  unfold recovering
  unfold Outcome.Leaves at leaves ⊢
  cases replied : (statement ts).reply with
  | done value rest =>
    simp only [replied] at leaves ⊢
    refine ⟨?_, leaves.2⟩
    intro other same
    cases same
    exact leaves.1
  | abort fault rest =>
    simp only [replied] at leaves ⊢
    exact ⟨by simp, List.Subset.trans (afterFault_subset rest) leaves⟩

end Parser

/-! ## Expressions -/

/-- Every operator in an expression is the one that a token stands for, and the mark is the lexeme
of that token. -/
inductive Expr.Written (tokens : List Token) : Expr → Prop
  | assign {name value} : Written tokens value → Written tokens (.assign name value)
  | operation {left op right} {token : Token} : token ∈ tokens →
    Operator.ofKind? token.kind = some op →
      Written tokens left → Written tokens right →
      Written tokens (.operation left op token.toLexeme right)
  | unary {op operand} {token : Token} : token ∈ tokens → UnaryOp.ofKind? token.kind = some op →
      Written tokens operand → Written tokens (.unary op token.toLexeme operand)
  | call {callee paren arguments} : Written tokens callee →
    (∀ argument ∈ arguments, Written tokens argument) →
      Written tokens (.call callee paren arguments)
  | grouping {inner} : Written tokens inner → Written tokens (.grouping inner)
  | literal {value} : Written tokens (.literal value)
  | «variable» {name} : Written tokens (.variable name)

namespace Grammar

open Lox.Parser

section Expression

variable {tokens : List Token} {nested : Parser Expr}
    (nestedKeeps : nested.Keeps tokens (Expr.Written tokens))

include nestedKeeps

theorem primary_written : (primary nested).Keeps tokens (Expr.Written tokens) := by
  intro ts among
  cases ts with
  | nil => exact Outcome.leaves_abort among
  | cons t rest =>
    have amongRest := (List.cons_subset.1 among).2
    rw [primary]
    split
    · exact Outcome.leaves_done .literal amongRest
    · exact Outcome.leaves_done .literal amongRest
    · exact Outcome.leaves_done .literal amongRest
    · exact Outcome.leaves_done .literal amongRest
    · exact Outcome.leaves_done .literal amongRest
    · exact Outcome.leaves_done .variable amongRest
    · have grouping : (groupingRest nested).Keeps tokens (Expr.Written tokens) := by
        refine nestedKeeps.bind fun inner written => ?_
        exact (keeps_require _).bind fun _ _ => keeps_pure (.grouping written)
      exact grouping rest amongRest
    · exact Outcome.leaves_abort among

theorem callRest_written (budget : Nat) {callee : Expr} (written : callee.Written tokens) :
    (callRest budget nested callee).Keeps tokens (Expr.Written tokens) := by
  have item : ∀ count, (argument nested count).Keeps tokens (Expr.Written tokens) := by
    intro count
    exact (keeps_onlyIf (keeps_reportHere _)).bind fun _ _ => nestedKeeps
  refine (keeps_separated item budget).bind fun arguments all => ?_
  exact (keeps_require _).bind fun paren _ => keeps_pure (.call written all)

theorem call_written (budget : Nat) : (call budget nested).Keeps tokens (Expr.Written tokens) := by
  refine (primary_written nestedKeeps).bind fun callee written => ?_
  refine keeps_chain ?_ budget written
  intro callee ts o written among found
  cases ts with
  | nil => cases found
  | cons t rest =>
    rw [call?] at found
    split at found
    · cases found
      exact callRest_written nestedKeeps budget written rest (List.cons_subset.1 among).2
    · cases found

theorem unary_written (budget : Nat) :
    (unary budget nested).Keeps tokens (Expr.Written tokens) := by
  intro ts among
  induction ts with
  | nil => exact call_written nestedKeeps budget [] among
  | cons t rest ih =>
    rcases List.cons_subset.1 among with ⟨first, amongRest⟩
    rw [unary]
    split
    · rename_i op isOp
      exact (ih amongRest).map fun operand written => .unary first isOp written
    · exact call_written nestedKeeps budget (t :: rest) among

theorem operations_written (budget rank : Nat) :
    (operations budget nested rank).Keeps tokens (Expr.Written tokens) := by
  induction rank with
  | zero => exact unary_written nestedKeeps budget
  | succ rank ih =>
    refine ih.bind fun left written => ?_
    refine keeps_chain ?_ budget written
    intro left ts o written among found
    cases ts with
    | nil => cases found
    | cons t rest =>
      rcases List.cons_subset.1 among with ⟨first, amongRest⟩
      rw [operation?] at found
      split at found
      · rename_i op isOp
        split at found
        · cases found
          exact (ih rest amongRest).map fun right writtenRight =>
            .operation first isOp written writtenRight
        · cases found
      · cases found

theorem assignment_written (budget : Nat) :
    (assignment budget nested).Keeps tokens (Expr.Written tokens) := by
  refine (operations_written nestedKeeps budget _).bind fun target written => ?_
  intro ts among
  cases ts with
  | nil => exact Outcome.leaves_done written among
  | cons t rest =>
    rw [assignmentRest]
    split
    · refine nestedKeeps.bind (fun value writtenValue => ?_) rest (List.cons_subset.1 among).2
      cases target with
      | «variable» name => exact keeps_pure (.assign writtenValue)
      | _ => exact (keeps_reportAt _ _).bind fun _ _ => keeps_pure written
    · exact Outcome.leaves_done written among

end Expression

theorem expression_written (tokens : List Token) (budget : Nat) :
    (expression budget).Keeps tokens (Expr.Written tokens) := by
  induction budget with
  | zero => exact keeps_abort _
  | succ budget ih => exact assignment_written ih budget

end Grammar

/-! ## Statements -/

/-- The operators in a statement are those of tokens, and there is a declaration in it only where
one may stand.  The statement itself stands at `position`. -/
inductive Stmt.Written (tokens : List Token) : Position → Stmt → Prop
  | block {position statements} :
    (∀ statement ∈ statements, Written tokens .declaration statement) →
      Written tokens position (.block statements)
  | «break» {position keyword} : Written tokens position (.break keyword)
  | expression {position operand} : operand.Written tokens →
    Written tokens position (.expression operand)
  | function {name params body} : (∀ statement ∈ body, Written tokens .declaration statement) →
      Written tokens .declaration (.function name params body)
  | «if» {position condition thenBranch elseBranch} : condition.Written tokens →
    Written tokens .branch thenBranch →
      (∀ statement ∈ elseBranch, Written tokens .branch statement) →
      Written tokens position (.if condition thenBranch elseBranch)
  | print {position operand} : operand.Written tokens → Written tokens position (.print operand)
  | «return» {position keyword value} : (∀ operand ∈ value, operand.Written tokens) →
      Written tokens position (.return keyword value)
  | var {name initializer} : (∀ operand ∈ initializer, operand.Written tokens) →
      Written tokens .declaration (.var name initializer)
  | «while» {position condition body} : condition.Written tokens → Written tokens .branch body →
      Written tokens position (.while condition body)

/-- A statement may stand among declarations. -/
theorem Stmt.Written.declared {tokens : List Token} {position : Position} {statement : Stmt}
    (written : statement.Written tokens position) : statement.Written tokens .declaration := by
  cases written with
  | block written => exact .block written
  | «break» => exact .break
  | expression written => exact .expression written
  | function written => exact .function written
  | «if» condition thenBranch elseBranch => exact .if condition thenBranch elseBranch
  | print written => exact .print written
  | «return» written => exact .return written
  | var written => exact .var written
  | «while» condition body => exact .while condition body

/-- The parts of a `for` statement. -/
structure ForParts where
  initializer : Option Stmt
  condition : Option Expr
  increment : Option Expr
  body : Stmt

namespace ForParts

/-- The tree of the statement. -/
def tree (parts : ForParts) : Stmt :=
  .forLoop parts.initializer parts.condition parts.increment parts.body

/-- The first clause: a variable declaration or an expression, if there is any. -/
inductive WrittenInitializer (tokens : List Token) : Option Stmt → Prop
  | absent : WrittenInitializer tokens none
  | var {name initializer} : (∀ operand ∈ initializer, operand.Written tokens) →
      WrittenInitializer tokens (some (.var name initializer))
  | expression {operand} : operand.Written tokens →
    WrittenInitializer tokens (some (.expression operand))

structure Written (tokens : List Token) (parts : ForParts) : Prop where
  initializer : WrittenInitializer tokens parts.initializer
  condition : ∀ operand ∈ parts.condition, operand.Written tokens
  increment : ∀ operand ∈ parts.increment, operand.Written tokens
  body : parts.body.Written tokens .branch

theorem Written.tree {tokens : List Token} {parts : ForParts} (written : parts.Written tokens)
    (position : Position) : parts.tree.Written tokens position := by
  rcases parts with ⟨initializer, condition, increment, body⟩
  have iteration : ∀ statement ∈ body :: (increment.map Stmt.expression).toList,
      statement.Written tokens .declaration := by
    refine List.forall_mem_cons.2 ⟨written.body.declared, ?_⟩
    cases increment with
    | none => simp
    | some operand => simpa using Stmt.Written.expression (written.increment operand rfl)
  have test : (condition.getD (.literal (.bool true))).Written tokens := by
    cases condition with
    | none => exact .literal
    | some operand => exact written.condition operand rfl
  refine .block
    (List.forall_mem_append.2 ⟨?_, List.forall_mem_singleton.2 (.while test (.block iteration))⟩)
  cases written.initializer with
  | absent => simp
  | var operand => simpa using Stmt.Written.var operand
  | expression operand => simpa using Stmt.Written.expression operand

end ForParts

namespace Grammar

open Lox.Parser

/-- The parts of a `for` statement, behind its keyword. -/
def forParts (expression : Parser Expr) (body : Parser Stmt) : Parser ForParts := do
  let _ ← require .parenAfterFor
  let initializer ← forInitializer expression
  let condition ← unlessNext .semicolon expression
  let _ ← require .semicolonAfterCondition
  let increment ← unlessNext .rightParen expression
  let _ ← require .parenAfterClauses
  return ⟨initializer, condition, increment, ← body⟩

theorem forStatement_eq_map (expression : Parser Expr) (body : Parser Stmt) :
    forStatement expression body = ForParts.tree <$> forParts expression body := by
  simp only [forStatement, forParts, map_bind, map_pure]
  rfl

variable {tokens : List Token}

section Statement

variable {expression : Parser Expr} (expressions : expression.Keeps tokens (Expr.Written tokens))

include expressions

theorem variableDeclaration_keeps : (variableDeclaration expression).Keeps tokens fun tree =>
    ∃ name initializer, tree = .var name initializer ∧
      ∀ operand ∈ initializer, operand.Written tokens := by
  refine (keeps_require _).bind fun name _ => ?_
  refine (keeps_ifNext _ expressions).bind fun initializer written => ?_
  exact (keeps_require _).bind fun _ _ => keeps_pure ⟨name, initializer, rfl, written⟩

theorem expressionStatement_keeps : (expressionStatement expression).Keeps tokens fun tree =>
    ∃ operand, tree = .expression operand ∧ operand.Written tokens := by
  refine expressions.bind fun operand written => ?_
  exact (keeps_require _).bind fun _ _ => keeps_pure ⟨operand, rfl, written⟩

theorem forInitializer_written :
    (forInitializer expression).Keeps tokens (ForParts.WrittenInitializer tokens) := by
  have clause : (some <$> expressionStatement expression).Keeps tokens
      (ForParts.WrittenInitializer tokens) := by
    refine (expressionStatement_keeps expressions).map ?_
    rintro _ ⟨operand, rfl, written⟩
    exact .expression written
  intro ts among
  cases ts with
  | nil => exact clause [] among
  | cons t rest =>
    have amongRest := (List.cons_subset.1 among).2
    rw [forInitializer]
    split
    · exact Outcome.leaves_done .absent amongRest
    · refine (variableDeclaration_keeps expressions).map ?_ rest amongRest
      rintro _ ⟨name, initializer, rfl, written⟩
      exact .var written
    · exact clause (t :: rest) among

theorem forParts_written {body : Parser Stmt}
    (bodies : body.Keeps tokens (Stmt.Written tokens .branch)) :
    (forParts expression body).Keeps tokens (ForParts.Written tokens) := by
  refine (keeps_require _).bind fun _ _ => ?_
  refine (forInitializer_written expressions).bind fun initializer writtenInitializer => ?_
  refine (keeps_unlessNext _ expressions).bind fun condition writtenCondition => ?_
  refine (keeps_require _).bind fun _ _ => ?_
  refine (keeps_unlessNext _ expressions).bind fun increment writtenIncrement => ?_
  refine (keeps_require _).bind fun _ _ => ?_
  refine bodies.bind fun body writtenBody => ?_
  exact keeps_pure ⟨writtenInitializer, writtenCondition, writtenIncrement, writtenBody⟩

theorem returnStatement_written (context : Context) (keyword : Token) (position : Position) :
    (returnStatement context expression keyword).Keeps tokens (Stmt.Written tokens position) := by
  refine (keeps_onlyIf (keeps_reportAt _ _)).bind fun _ _ => ?_
  refine (keeps_unlessNext _ expressions).bind fun value written => ?_
  exact (keeps_require _).bind fun _ _ => keeps_pure (.return written)

theorem ifStatement_written {branch : Parser Stmt}
    (branches : branch.Keeps tokens (Stmt.Written tokens .branch)) (position : Position) :
    (ifStatement expression branch).Keeps tokens (Stmt.Written tokens position) := by
  refine (keeps_require _).bind fun _ _ => ?_
  refine expressions.bind fun condition written => ?_
  refine (keeps_require _).bind fun _ _ => ?_
  refine branches.bind fun thenBranch writtenThen => ?_
  exact (keeps_ifNext _ branches).bind fun elseBranch writtenElse =>
    keeps_pure (.if written writtenThen writtenElse)

theorem whileStatement_written {body : Parser Stmt}
    (bodies : body.Keeps tokens (Stmt.Written tokens .branch)) (position : Position) :
    (whileStatement expression body).Keeps tokens (Stmt.Written tokens position) := by
  refine (keeps_require _).bind fun _ _ => ?_
  refine expressions.bind fun condition written => ?_
  refine (keeps_require _).bind fun _ _ => ?_
  exact bodies.bind fun body writtenBody => keeps_pure (.while written writtenBody)

end Statement

theorem block_written (budget : Nat) {statement : Parser Stmt}
    (keeps : statement.Keeps tokens (Stmt.Written tokens .declaration)) :
    (block budget statement).Keeps tokens fun trees => ∀ tree ∈ trees,
      tree.Written tokens .declaration := by
  have step : ∀ count ts o, ts ⊆ tokens → declaration? statement count ts = some o →
      o.Leaves tokens fun tree? => ∀ tree ∈ tree?, tree.Written tokens .declaration := by
    intro count ts o among found
    rw [declaration?] at found
    split at found
    · cases found
    · cases found
      exact keeps_recovering keeps ts among
  refine (keeps_many step budget 0).bind fun trees? all => ?_
  refine (keeps_require _).bind fun _ _ => keeps_pure ?_
  intro tree mem
  rcases List.mem_filterMap.1 mem with ⟨tree?, memTree?, same⟩
  exact all tree? memTree? tree same

theorem functionDeclaration_written (budget : Nat) {statement : Parser Stmt}
    (keeps : statement.Keeps tokens (Stmt.Written tokens .declaration)) :
    (functionDeclaration budget statement).Keeps tokens (Stmt.Written tokens .declaration) := by
  have parameters : ∀ count, (parameter count).Keeps tokens fun _ => True := fun count =>
    (keeps_onlyIf (keeps_reportHere _)).bind fun _ _ => keeps_require _
  refine (keeps_require _).bind fun name _ => ?_
  refine (keeps_require _).bind fun _ _ => ?_
  refine (keeps_separated parameters budget).bind fun params _ => ?_
  refine (keeps_require _).bind fun _ _ => ?_
  refine (keeps_require _).bind fun _ _ => ?_
  exact (block_written budget keeps).bind fun body written => keeps_pure (.function written)

theorem statementRule_written (budget : Nat) {expression : Parser Expr}
    (expressions : expression.Keeps tokens (Expr.Written tokens))
    {nested : Position → Context → Parser Stmt}
    (nestedKeeps : ∀ position context, (nested position context).Keeps tokens
      (Stmt.Written tokens position))
    (position : Position) (context : Context) :
    (statementRule budget expression nested position context).Keeps tokens
    (Stmt.Written tokens position) := by
  have expressionStatements :
      (expressionStatement expression).Keeps tokens (Stmt.Written tokens position) := by
    refine (expressionStatement_keeps expressions).mono ?_
    rintro _ ⟨operand, rfl, written⟩
    exact .expression written
  intro ts among
  cases ts with
  | nil => exact expressionStatements [] among
  | cons t rest =>
    have amongRest := (List.cons_subset.1 among).2
    simp only [statementRule]
    split
    · exact functionDeclaration_written budget (nestedKeeps _ _) rest amongRest
    · refine (variableDeclaration_keeps expressions).mono ?_ rest amongRest
      rintro _ ⟨name, initializer, rfl, written⟩
      exact .var written
    · refine (keeps_onlyIf (keeps_reportAt _ _)).bind (fun _ _ => ?_) rest amongRest
      exact (keeps_require _).bind fun _ _ => keeps_pure .break
    · rw [forStatement_eq_map]
      exact (forParts_written expressions (nestedKeeps .branch context.loop)).map
        (fun _ written => written.tree _) rest
        amongRest
    · exact ifStatement_written expressions (nestedKeeps .branch context) _ rest amongRest
    · refine expressions.bind (fun operand written => ?_) rest amongRest
      exact (keeps_require _).bind fun _ _ => keeps_pure (.print written)
    · exact returnStatement_written expressions context t _ rest amongRest
    · exact whileStatement_written expressions (nestedKeeps .branch context.loop) _ rest amongRest
    · exact (block_written budget (nestedKeeps .declaration context)).map
        (fun _ => .block) rest amongRest
    · exact expressionStatements (t :: rest) among

theorem statement_written (tokens : List Token) (budget : Nat) (position : Position)
    (context : Context) :
    (statement budget position context).Keeps tokens (Stmt.Written tokens position) := by
  induction budget generalizing position context with
  | zero => exact keeps_abort _
  | succ budget ih =>
    exact statementRule_written budget (expression_written tokens _) ih position context

/-- A `for` statement becomes the tree of its parts, and its body is no declaration. -/
theorem exists_forParts {budget : Nat} {position : Position} {context : Context} {keyword : Token}
    {ts rest : List Token} {tree : Stmt} (isFor : keyword.kind = .for)
    (parsed : (statement (budget + 1) position context (keyword :: ts)).reply = .done tree rest) :
    ∃ parts, (forParts (expression (budget + 1)) (statement budget .branch context.loop) ts).reply =
      .done parts rest ∧ tree = parts.tree ∧ parts.Written ts := by
  have rule : statement (budget + 1) position context (keyword :: ts) =
      (forParts (expression (budget + 1)) (statement budget .branch context.loop) ts).map
        ForParts.tree := by
    rw [← map_apply, ← forStatement_eq_map]
    cases position <;> simp only [statement, statementRule, isFor]
  have leaves := forParts_written (expression_written ts (budget + 1))
    (statement_written ts budget .branch context.loop) ts (List.Subset.refl ts)
  rw [rule] at parsed
  unfold Outcome.map Outcome.bind at parsed
  unfold Outcome.Leaves at leaves
  cases replied :
    (forParts (expression (budget + 1)) (statement budget .branch context.loop) ts).reply with
  | done parts left =>
    simp only [replied] at parsed leaves
    cases parsed
    exact ⟨parts, rfl, rfl, leaves.1⟩
  | abort fault left =>
    simp only [replied] at parsed
    cases parsed

/-- Whatever is wrong with the tokens, the statements that are made of them are written in them. -/
theorem program_written (ts : List Token) :
    ∀ statement ∈ (program ts).1, statement.Written ts .declaration := by
  have step : ∀ (count : Nat) (us : List Token) (o : Outcome (Option Stmt)), us ⊆ ts →
      (if us.isEmpty then none
        else some (recovering (Grammar.statement ts.length .declaration .top) us)) = some o →
      o.Leaves ts fun tree? => ∀ tree ∈ tree?, tree.Written ts .declaration := by
    intro count us o among found
    split at found
    · cases found
    · cases found
      exact keeps_recovering (statement_written ts ts.length .declaration .top) us among
  have leaves := keeps_many step ts.length 0 ts (List.Subset.refl ts)
  change (declarations ts).Leaves ts _ at leaves
  intro statement mem
  unfold program at mem
  unfold Outcome.Leaves at leaves
  cases replied : (declarations ts).reply with
  | done trees? rest =>
    simp only [replied] at leaves mem
    rcases List.mem_filterMap.1 mem with ⟨tree?, memTree?, same⟩
    exact leaves.1 tree? memTree? statement same
  | abort fault rest =>
    simp only [replied] at mem
    cases mem

end Grammar

theorem Expr.Written.mono {few more : List Token} (sub : few ⊆ more) {expression : Expr}
    (written : expression.Written few) : expression.Written more := by
  induction written with
  | assign _ ih => exact .assign ih
  | operation mem isOp _ _ ihLeft ihRight => exact .operation (sub mem) isOp ihLeft ihRight
  | unary mem isOp _ ih => exact .unary (sub mem) isOp ih
  | call _ _ ih ihs => exact .call ih ihs
  | grouping _ ih => exact .grouping ih
  | literal => exact .literal
  | «variable» => exact .variable

theorem Stmt.Written.mono {few more : List Token} (sub : few ⊆ more) {position : Position}
    {statement : Stmt} (written : statement.Written few position) :
    statement.Written more position := by
  induction written with
  | block _ ih => exact .block ih
  | «break» => exact .break
  | expression written => exact .expression (written.mono sub)
  | function _ ih => exact .function ih
  | «if» written _ _ ih ihElse => exact .if (written.mono sub) ih ihElse
  | print written => exact .print (written.mono sub)
  | «return» written => exact .return fun operand mem => (written operand mem).mono sub
  | var written => exact .var fun operand mem => (written operand mem).mono sub
  | «while» written _ ih => exact .while (written.mono sub) ih

theorem parse_written {tokens ts : List Token} (among : ts ⊆ tokens) :
    ∀ statement ∈ (parse ts).1, statement.Written tokens .declaration := by
  intro statement mem
  have written := program_written (Grammar.body ts) statement mem
  exact written.mono (List.Subset.trans (List.takeWhile_subset _) among)

end Lox
