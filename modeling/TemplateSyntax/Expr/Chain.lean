import TemplateSyntax.Expr.Error
import TemplateSyntax.Expr.Tree

/-!
# Operator chains

Operands joined by operators form a chain, which becomes one tree. Reading it from left to right, an operand whose
operator does not have its right side yet is held back; a new operator first lets all held operators take effect to
which it yields. Assignments are held to the end, so a wrong target is found only once the chain is complete, the
rightmost one first.
-/

namespace TemplateSyntax.Expr

/-- Left operands that wait with their operators, the innermost first. -/
abbrev Held := List (Expr × InfixOp)

/-- The operation on two operands. Only a variable, field or element can be assigned to. -/
def join? (op : InfixOp) (left right : Expr) : Except ExprError Expr :=
  if op.isAssign && !left.isAssignable then .error ⟨.assignTarget, left.span⟩
  else .ok (.join op left right (left.span.upTo right.span))

/-- Gives `right` to the held operators to which `op` yields. -/
def release (op : InfixOp) : Held → (right : Expr) → Except ExprError (Held × Expr)
  | [], right => .ok ([], right)
  | (left, held) :: rest, right =>
    if op.yieldsTo held then
      match join? held left right with
      | .error e => .error e
      | .ok e => release op rest e
    else .ok ((left, held) :: rest, right)

/-- Gives `right` to all held operators. -/
def releaseAll : Held → (right : Expr) → Except ExprError Expr
  | [], right => .ok right
  | (left, op) :: rest, right =>
    match join? op left right with
    | .error e => .error e
    | .ok e => releaseAll rest e

/-- The tree of a chain that goes on after `operand`. -/
def resolve : Held → (operand : Expr) → (chain : List (InfixOp × Expr)) → Except ExprError Expr
  | held, operand, [] => releaseAll held operand
  | held, operand, (op, next) :: chain =>
    match release op held operand with
    | .error e => .error e
    | .ok (held, left) => resolve ((left, op) :: held) next chain

end TemplateSyntax.Expr
