import LiveTemplate.Expr.Basic

/-!
# LiveTemplate.Expr.Chain

Operands joined by binary operators, and the expression that such a chain stands for: a higher
level binds tighter, and operators of one level group to the left.
-/

namespace LiveTemplate

/-- How tightly an operator binds. -/
def BinaryOp.level : BinaryOp → Nat
  | .or => 1
  | .and => 2
  | .strictEq | .strictNe | .eq | .ne => 3
  | .lt | .le | .gt | .ge => 4
  | .add | .sub => 5
  | .mul | .div | .rem => 6

/-- An operand and the operators and operands that follow it. -/
structure Chain where
  first : Expr
  rest : List (BinaryOp × Expr)

namespace Chain

/-- Left operands whose operator still waits for its right one, the innermost first. -/
abbrev Pending := List (Expr × BinaryOp)

/-- Gives `right` to every waiting operator that binds at least as tightly as `level`. -/
def close (level : Nat) : Pending → Expr → Pending × Expr
  | [], right => ([], right)
  | (left, op) :: outer, right =>
    if level ≤ op.level then close level outer (.binary op left right)
    else ((left, op) :: outer, right)

def resolveFrom (pending : Pending) (last : Expr) : List (BinaryOp × Expr) → Expr
  | [] => (close 0 pending last).2
  | (op, next) :: rest =>
    let (outer, left) := close op.level pending last
    resolveFrom ((left, op) :: outer) next rest

def resolve (chain : Chain) : Expr := resolveFrom [] chain.first chain.rest

end Chain
end LiveTemplate
