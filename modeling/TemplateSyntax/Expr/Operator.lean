/-!
# Operators

Operators between two operands bind with one of eight strengths. Assignments are weakest and group to the right, all
others group to the left. A comparison may be written by a word, which keeps `>` free to end a tag.
-/

namespace TemplateSyntax

inductive AssignOp where
  | set
  | add
  | sub
  | mul
  | div
  | mod
deriving DecidableEq, Inhabited

inductive LogicalOp where
  | and
  | or
deriving DecidableEq, Inhabited

inductive BinaryOp where
  | add
  | sub
  | mul
  | div
  | mod
  | eq
  | ne
  | lt
  | gt
  | le
  | ge
deriving DecidableEq, Inhabited

inductive UnaryOp where
  | not
  | minus
  | plus
deriving DecidableEq, Inhabited

inductive UpdateOp where
  | increment
  | decrement
deriving DecidableEq, Inhabited

/-- An operator between two operands. The last kind, written `?`, applies a built-in. -/
inductive InfixOp where
  | assign (op : AssignOp)
  | logical (op : LogicalOp)
  | binary (op : BinaryOp)
  | builtIn
deriving DecidableEq, Inhabited

/-! ### Spelling -/

def AssignOp.symbol : AssignOp → String
  | .set => "="
  | .add => "+="
  | .sub => "-="
  | .mul => "*="
  | .div => "/="
  | .mod => "%="

def LogicalOp.symbol : LogicalOp → String
  | .and => "&&"
  | .or => "||"

def BinaryOp.symbol : BinaryOp → String
  | .add => "+"
  | .sub => "-"
  | .mul => "*"
  | .div => "/"
  | .mod => "%"
  | .eq => "=="
  | .ne => "!="
  | .lt => "<"
  | .gt => ">"
  | .le => "<="
  | .ge => ">="

def UnaryOp.symbol : UnaryOp → String
  | .not => "!"
  | .minus => "-"
  | .plus => "+"

def UpdateOp.symbol : UpdateOp → String
  | .increment => "++"
  | .decrement => "--"

/-! ### Binding -/

namespace InfixOp

/-- How tightly the operator binds. -/
def strength : InfixOp → Nat
  | .assign _ => 1
  | .logical .or => 2
  | .logical .and => 3
  | .binary .eq | .binary .ne => 4
  | .binary .lt | .binary .gt | .binary .le | .binary .ge => 5
  | .binary .add | .binary .sub => 6
  | .binary .mul | .binary .div | .binary .mod => 7
  | .builtIn => 8

def isAssign : InfixOp → Bool
  | .assign _ => true
  | _ => false

/-- To the right of `held`, the operator lets `held` take its right operand first. Between two of one strength that is
so except for assignments. -/
def yieldsTo (op held : InfixOp) : Bool :=
  if op.isAssign then decide (op.strength < held.strength) else decide (op.strength ≤ held.strength)

/-- How a message names the operator that lacks its right operand. -/
def describe : InfixOp → String
  | .assign .set => "\"=\""
  | .assign _ => "assignment operator"
  | .logical .and => "\"&&\""
  | .logical .or => "\"||\""
  | .binary _ => "operator"
  | .builtIn => "\"?\""

theorem strength_pos (op : InfixOp) : 0 < op.strength := by
  rcases op with o | o | o | _ <;> (try cases o) <;> decide

/-- Assignments are the operators of least strength. -/
theorem isAssign_iff {op : InfixOp} : op.isAssign = true ↔ op.strength ≤ 1 := by
  rcases op with o | o | o | _ <;> (try cases o) <;> decide

/-- An assignment waits for everything to its right. -/
theorem not_yieldsTo_assign (op : InfixOp) (a : AssignOp) : op.yieldsTo (.assign a) = false := by
  cases a <;> rcases op with o | o | o | _ <;> (try cases o) <;> decide

end InfixOp

end TemplateSyntax
