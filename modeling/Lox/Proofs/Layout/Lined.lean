import Lox.Session

/-!
# Line numbers

Tokens keep the lines that they end on, and so does all that is made of tokens: trees, the functions
that a machine has bound, the reports that a session holds.  `reline` changes all the line numbers
in something and nothing else.  Two things that are the same but for line numbers are `unlined` to
the same.
-/

namespace Lox

/-- What has line numbers in it, which can be changed. -/
class Lined (α : Type) where
  /-- Changes each line number. -/
  reline : (Nat → Nat) → α → α
  reline_reline : ∀ (f g : Nat → Nat) (x : α), reline g (reline f x) = reline (g ∘ f) x

export Lined (reline reline_reline)

/-- All line numbers are dropped. -/
def unlined {α : Type} [Lined α] (x : α) : α := reline (fun _ => 0) x

@[simp] theorem unlined_reline {α : Type} [Lined α] (f : Nat → Nat) (x : α) :
    unlined (reline f x) = unlined x :=
  reline_reline f _ x

variable (f : Nat → Nat)

/-! ## Containers -/

section Containers

variable {α β : Type} [Lined α] [Lined β]

instance : Lined Unit where
  reline _ _ := ()
  reline_reline _ _ _ := rfl

instance : Lined String where
  reline _ text := text
  reline_reline _ _ _ := rfl

instance : Lined (Option α) where
  reline f := Option.map (reline f)
  reline_reline f g x := by simp [Function.comp_def, reline_reline]

instance : Lined (List α) where
  reline f := List.map (reline f)
  reline_reline f g xs := by simp [reline_reline]

instance : Lined (α × β) where
  reline f pair := (reline f pair.1, reline f pair.2)
  reline_reline f g pair := by simp [reline_reline]

@[simp] theorem reline_text (text : String) : reline f text = text := rfl

@[simp] theorem reline_none : reline f (none : Option α) = none := rfl

@[simp] theorem reline_some (x : α) : reline f (some x) = some (reline f x) := rfl

@[simp] theorem reline_nil : reline f ([] : List α) = [] := rfl

@[simp] theorem reline_cons (x : α) (xs : List α) :
    reline f (x :: xs) = reline f x :: reline f xs := rfl

@[simp] theorem reline_append (xs ys : List α) : reline f (xs ++ ys) = reline f xs ++ reline f ys :=
  List.map_append

@[simp] theorem reline_pair (x : α) (y : β) : reline f (x, y) = (reline f x, reline f y) := rfl

@[simp] theorem length_reline (xs : List α) : (reline f xs).length = xs.length := List.length_map _

@[simp] theorem isEmpty_reline (xs : List α) : (reline f xs).isEmpty = xs.isEmpty :=
  List.isEmpty_map

@[simp] theorem head?_reline (xs : List α) : (reline f xs).head? = reline f xs.head? :=
  List.head?_map

theorem map_reline {g h : α → β} (values : ∀ x, h (reline f x) = reline f (g x)) (xs : List α) :
    (reline f xs).map h = reline f (xs.map g) := by
  induction xs with
  | nil => rfl
  | cons x xs ih =>
    rw [reline_cons, List.map_cons, values, ih]
    rfl

@[simp] theorem filterMap_id_reline (xs : List (Option α)) :
    (reline f xs).filterMap id = reline f (xs.filterMap id) := by
  induction xs with
  | nil => rfl
  | cons x xs ih =>
    cases x with
    | none => exact ih
    | some x => exact congrArg (reline f x :: ·) ih

end Containers

/-! ## Tokens -/

instance : Lined Lexeme where
  reline f lexeme := { lexeme with line := f lexeme.line }
  reline_reline _ _ _ := rfl

instance : Lined Token where
  reline f token := { token with toLexeme := reline f token.toLexeme }
  reline_reline _ _ _ := rfl

instance : Lined Item where
  reline f
    | .token token => .token (reline f token)
    | .fault line cause => .fault (f line) cause
  reline_reline f g item := by cases item <;> rfl

@[simp] theorem Lexeme.text_reline (lexeme : Lexeme) : (reline f lexeme).text = lexeme.text := rfl

namespace Token

variable (token : Token)

@[simp] theorem toLexeme_reline : (reline f token).toLexeme = reline f token.toLexeme := rfl

@[simp] theorem kind_reline : (reline f token).kind = token.kind := rfl

end Token

/-! ## Trees -/

namespace Expr

mutual

/-- The expression with other line numbers. -/
def relined (f : Nat → Nat) : Expr → Expr
  | .assign name value => .assign (reline f name) (value.relined f)
  | .operation left op mark right =>
    .operation (left.relined f) op (reline f mark) (right.relined f)
  | .unary op mark operand => .unary op (reline f mark) (operand.relined f)
  | .call callee paren arguments =>
    .call (callee.relined f) (reline f paren) (allRelined f arguments)
  | .grouping inner => .grouping (inner.relined f)
  | .literal value => .literal value
  | .variable name => .variable (reline f name)

def allRelined (f : Nat → Nat) : List Expr → List Expr
  | [] => []
  | expression :: rest => expression.relined f :: allRelined f rest

end

mutual

theorem relined_relined (f g : Nat → Nat) : ∀ expression : Expr,
    (expression.relined f).relined g = expression.relined (g ∘ f)
  | .assign name value => by simp only [relined, relined_relined f g value, reline_reline]
  | .operation left op mark right => by
    simp only [relined, relined_relined f g left, relined_relined f g right, reline_reline]
  | .unary op mark operand => by simp only [relined, relined_relined f g operand, reline_reline]
  | .call callee paren arguments => by
    simp only [relined, relined_relined f g callee, allRelined_allRelined f g arguments,
      reline_reline]
  | .grouping inner => by simp only [relined, relined_relined f g inner]
  | .literal value => rfl
  | .variable name => by simp only [relined, reline_reline]

theorem allRelined_allRelined (f g : Nat → Nat) : ∀ expressions : List Expr,
    allRelined g (allRelined f expressions) = allRelined (g ∘ f) expressions
  | [] => rfl
  | expression :: rest => by
    simp only [allRelined, relined_relined f g expression, allRelined_allRelined f g rest]

end

instance : Lined Expr := ⟨relined, relined_relined⟩

theorem allRelined_eq (expressions : List Expr) :
    allRelined f expressions = reline f expressions := by
  induction expressions with
  | nil => rfl
  | cons expression rest ih =>
    rw [allRelined, ih]
    rfl

@[simp] theorem reline_call (callee : Expr) (paren : Lexeme) (arguments : List Expr) :
    reline f (Expr.call callee paren arguments) = .call (reline f callee) (reline f paren)
      (reline f arguments) := by
  rw [← allRelined_eq]
  rfl

@[simp] theorem reline_literal (value : Literal) : reline f (Expr.literal value) = .literal value :=
  rfl

end Expr

namespace Stmt

mutual

/-- The statement with other line numbers. -/
def relined (f : Nat → Nat) : Stmt → Stmt
  | .block statements => .block (allRelined f statements)
  | .break keyword => .break (reline f keyword)
  | .expression operand => .expression (reline f operand)
  | .function name params body => .function (reline f name) (reline f params) (allRelined f body)
  | .if condition thenBranch elseBranch =>
    .if (reline f condition) (thenBranch.relined f) (optionRelined f elseBranch)
  | .print operand => .print (reline f operand)
  | .return keyword value => .return (reline f keyword) (reline f value)
  | .var name initializer => .var (reline f name) (reline f initializer)
  | .while condition body => .while (reline f condition) (body.relined f)

def allRelined (f : Nat → Nat) : List Stmt → List Stmt
  | [] => []
  | statement :: rest => statement.relined f :: allRelined f rest

def optionRelined (f : Nat → Nat) : Option Stmt → Option Stmt
  | none => none
  | some statement => some (statement.relined f)

end

mutual

theorem relined_relined (f g : Nat → Nat) : ∀ statement : Stmt,
    (statement.relined f).relined g = statement.relined (g ∘ f)
  | .block statements => by simp only [relined, allRelined_allRelined f g statements]
  | .break keyword => by simp only [relined, reline_reline]
  | .expression operand => by simp only [relined, reline_reline]
  | .function name params body =>
    by simp only [relined, allRelined_allRelined f g body, reline_reline]
  | .if condition thenBranch elseBranch => by
    simp only [relined, relined_relined f g thenBranch, optionRelined_optionRelined f g elseBranch,
      reline_reline]
  | .print operand => by simp only [relined, reline_reline]
  | .return keyword value => by simp only [relined, reline_reline]
  | .var name initializer => by simp only [relined, reline_reline]
  | .while condition body => by simp only [relined, relined_relined f g body, reline_reline]

theorem allRelined_allRelined (f g : Nat → Nat) : ∀ statements : List Stmt,
    allRelined g (allRelined f statements) = allRelined (g ∘ f) statements
  | [] => rfl
  | statement :: rest => by
    simp only [allRelined, relined_relined f g statement, allRelined_allRelined f g rest]

theorem optionRelined_optionRelined (f g : Nat → Nat) : ∀ statement : Option Stmt,
    optionRelined g (optionRelined f statement) = optionRelined (g ∘ f) statement
  | none => rfl
  | some statement => by simp only [optionRelined, relined_relined f g statement]

end

instance : Lined Stmt := ⟨relined, relined_relined⟩

theorem allRelined_eq (statements : List Stmt) : allRelined f statements = reline f statements := by
  induction statements with
  | nil => rfl
  | cons statement rest ih =>
    rw [allRelined, ih]
    rfl

@[simp] theorem reline_block (statements : List Stmt) :
    reline f (Stmt.block statements) = .block (reline f statements) := by
  rw [← allRelined_eq]
  rfl

@[simp] theorem reline_expression (operand : Expr) :
    reline f (Stmt.expression operand) = .expression (reline f operand) := rfl

@[simp] theorem reline_function (name : Lexeme) (params : List Lexeme) (body : List Stmt) :
    reline f (Stmt.function name params body) = .function (reline f name) (reline f params)
      (reline f body) := by
  rw [← allRelined_eq]
  rfl

@[simp] theorem reline_if (condition : Expr) (thenBranch : Stmt) (elseBranch : Option Stmt) :
    reline f (Stmt.if condition thenBranch elseBranch) =
      .if (reline f condition) (reline f thenBranch) (reline f elseBranch) := by
  cases elseBranch <;> rfl

@[simp] theorem reline_while (condition : Expr) (body : Stmt) :
    reline f (Stmt.while condition body) = .while (reline f condition) (reline f body) := rfl

end Stmt

/-! ## Machines -/

instance : Lined Closure where
  reline f closure :=
    { closure with
      name := reline f closure.name
      params := reline f closure.params
      body := reline f closure.body }
  reline_reline f g closure := by simp only [reline_reline]

instance : Lined Callable where
  reline f
    | .function closure => .function (reline f closure)
    | .native primitive => .native primitive
  reline_reline f g callable := by cases callable <;> simp only [reline_reline]

instance : Lined Value where
  reline f
    | .callable callable => .callable (reline f callable)
    | value => value
  reline_reline f g value := by cases value <;> simp only [reline_reline]

instance : Lined Scope where
  reline f scope := { scope with bindings := reline f scope.bindings }
  reline_reline f g scope := by simp only [reline_reline]

instance : Lined Scopes where
  reline f scopes := ⟨scopes.cells.map (reline f)⟩
  reline_reline f g scopes := by simp [Function.comp_def, reline_reline]

instance : Lined Machine where
  reline f machine := { machine with scopes := reline f machine.scopes }
  reline_reline f g machine := by simp only [reline_reline]

/-! ## Reports -/

instance : Lined Diagnostic where
  reline f
    | .lexical line message => .lexical (f line) message
    | .syntactic token message => .syntactic (reline f token) message
    | .runtime line message => .runtime (f line) message
    | .io message => .io message
  reline_reline f g diagnostic := by cases diagnostic <;> rfl

instance : Lined Diagnostics where
  reline f diagnostics := { diagnostics with held := reline f diagnostics.held }
  reline_reline f g diagnostics := by simp only [reline_reline]

instance : Lined Session where
  reline f session := ⟨reline f session.machine, reline f session.diagnostics⟩
  reline_reline f g session := by simp only [reline_reline]

end Lox
