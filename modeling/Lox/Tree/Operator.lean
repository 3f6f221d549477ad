import Lox.Token.Basic

/-!
# Operators

The operators of the language, the kinds of the tokens that stand for them, and how tightly they
bind.
-/

namespace Lox

/-- The operators that stand before their operand. -/
inductive UnaryOp where
  | negate
  | not
deriving DecidableEq, Repr

/-- The operators that combine the values of both of their operands. -/
inductive BinaryOp where
  | multiply | divide
  | add | subtract
  | greater | greaterEqual | less | lessEqual
  | equal | notEqual
deriving DecidableEq, Repr

/-- The operators that need their right operand only if the left one does not settle the result. -/
inductive LogicalOp where
  | and
  | or
deriving DecidableEq, Repr

/-- The operators that stand between two operands.  A token of any other kind stands for none: see
`Operator.ofKind?`. -/
inductive Operator where
  | binary (op : BinaryOp)
  | logical (op : LogicalOp)
deriving DecidableEq, Repr

namespace UnaryOp

/-- The kind of the token that stands for an operator. -/
def kind : UnaryOp → Kind
  | .negate => .minus
  | .not => .bang

/-- The operator that a kind of token stands for before an operand. -/
def ofKind? : Kind → Option UnaryOp
  | .minus => some .negate
  | .bang => some .not
  | _ => none

theorem ofKind?_eq_some_iff {kind : Kind} {op : UnaryOp} :
    ofKind? kind = some op ↔ kind = op.kind := by
  cases op <;> cases kind <;> simp [ofKind?, UnaryOp.kind]

end UnaryOp

namespace Operator

/-- The kind of the token that stands for an operator. -/
def kind : Operator → Kind
  | .binary .multiply => .star
  | .binary .divide => .slash
  | .binary .add => .plus
  | .binary .subtract => .minus
  | .binary .greater => .greater
  | .binary .greaterEqual => .greaterEqual
  | .binary .less => .less
  | .binary .lessEqual => .lessEqual
  | .binary .equal => .equalEqual
  | .binary .notEqual => .bangEqual
  | .logical .and => .and
  | .logical .or => .or

/-- The operator that a kind of token stands for between two operands. -/
def ofKind? : Kind → Option Operator
  | .star => some (.binary .multiply)
  | .slash => some (.binary .divide)
  | .plus => some (.binary .add)
  | .minus => some (.binary .subtract)
  | .greater => some (.binary .greater)
  | .greaterEqual => some (.binary .greaterEqual)
  | .less => some (.binary .less)
  | .lessEqual => some (.binary .lessEqual)
  | .equalEqual => some (.binary .equal)
  | .bangEqual => some (.binary .notEqual)
  | .and => some (.logical .and)
  | .or => some (.logical .or)
  | _ => none

theorem ofKind?_eq_some_iff {kind : Kind} {op : Operator} :
    ofKind? kind = some op ↔ kind = op.kind := by
  rcases op with op | op <;> cases op <;> cases kind <;> simp [ofKind?, Operator.kind]

/-- The rank of an operator.  One of lower rank binds more tightly. -/
def rank : Operator → Nat
  | .binary .multiply | .binary .divide => 1
  | .binary .add | .binary .subtract => 2
  | .binary .greater | .binary .greaterEqual | .binary .less | .binary .lessEqual => 3
  | .binary .equal | .binary .notEqual => 4
  | .logical .and => 5
  | .logical .or => 6

/-- The rank of the operators that bind least tightly. -/
def lastRank : Nat := 6

end Operator

end Lox
