import TemplateSyntax.Span
import TemplateSyntax.Decimal.Binary64
import TemplateSyntax.Expr.Operator

/-!
# Expression tokens

The parameters of a tag are a sequence of numbers, strings, names and punctuation. A token keeps the text that it
was read from; the value of a number or string goes with its kind.
-/

namespace TemplateSyntax.Expr

open Decimal (Binary64)

inductive Punctuator where
  | eqEq
  | notEq
  | ltEq
  | gtEq
  | and
  | or
  | plusPlus
  | minusMinus
  | plusEq
  | minusEq
  | starEq
  | slashEq
  | percentEq
  | plus
  | minus
  | star
  | slash
  | percent
  | lt
  | gt
  | not
  | eq
  | parenOpen
  | parenClose
  | bracketOpen
  | bracketClose
  | braceOpen
  | braceClose
  | dot
  | comma
  | colon
  | semicolon
  | question
deriving DecidableEq, Inhabited

namespace Punctuator

def text : Punctuator → List Char
  | .eqEq => ['=', '=']
  | .notEq => ['!', '=']
  | .ltEq => ['<', '=']
  | .gtEq => ['>', '=']
  | .and => ['&', '&']
  | .or => ['|', '|']
  | .plusPlus => ['+', '+']
  | .minusMinus => ['-', '-']
  | .plusEq => ['+', '=']
  | .minusEq => ['-', '=']
  | .starEq => ['*', '=']
  | .slashEq => ['/', '=']
  | .percentEq => ['%', '=']
  | .plus => ['+']
  | .minus => ['-']
  | .star => ['*']
  | .slash => ['/']
  | .percent => ['%']
  | .lt => ['<']
  | .gt => ['>']
  | .not => ['!']
  | .eq => ['=']
  | .parenOpen => ['(']
  | .parenClose => [')']
  | .bracketOpen => ['[']
  | .bracketClose => [']']
  | .braceOpen => ['{']
  | .braceClose => ['}']
  | .dot => ['.']
  | .comma => [',']
  | .colon => [':']
  | .semicolon => [';']
  | .question => ['?']

/-- All punctuators, those of two characters first. -/
def all : List Punctuator :=
  [.eqEq, .notEq, .ltEq, .gtEq, .and, .or, .plusPlus, .minusMinus, .plusEq, .minusEq, .starEq, .slashEq, .percentEq,
    .plus, .minus, .star, .slash, .percent, .lt, .gt, .not, .eq, .parenOpen, .parenClose, .bracketOpen, .bracketClose,
    .braceOpen, .braceClose, .dot, .comma, .colon, .semicolon, .question]

/-- The operator that the punctuator is between two operands. -/
def infix? : Punctuator → Option InfixOp
  | .eq => some (.assign .set)
  | .plusEq => some (.assign .add)
  | .minusEq => some (.assign .sub)
  | .starEq => some (.assign .mul)
  | .slashEq => some (.assign .div)
  | .percentEq => some (.assign .mod)
  | .or => some (.logical .or)
  | .and => some (.logical .and)
  | .eqEq => some (.binary .eq)
  | .notEq => some (.binary .ne)
  | .lt => some (.binary .lt)
  | .gt => some (.binary .gt)
  | .ltEq => some (.binary .le)
  | .gtEq => some (.binary .ge)
  | .plus => some (.binary .add)
  | .minus => some (.binary .sub)
  | .star => some (.binary .mul)
  | .slash => some (.binary .div)
  | .percent => some (.binary .mod)
  | .question => some .builtIn
  | _ => none

/-- The operator that the punctuator is in front of an operand, updates apart. -/
def unary? : Punctuator → Option UnaryOp
  | .not => some .not
  | .minus => some .minus
  | .plus => some .plus
  | _ => none

def update? : Punctuator → Option UpdateOp
  | .plusPlus => some .increment
  | .minusMinus => some .decrement
  | _ => none

theorem mem_all (p : Punctuator) : p ∈ all := by
  cases p <;> decide

theorem text_injective {p q : Punctuator} (h : p.text = q.text) : p = q := by
  revert h; cases p <;> cases q <;> decide

end Punctuator

inductive TokenKind where
  | number (value : Binary64)
  | string (value : String)
  | identifier (name : String)
  | punctuator (p : Punctuator)
  | eof
deriving DecidableEq, Inhabited

namespace TokenKind

/-- A period after a token of this kind is an access to a field and not the start of a number. -/
def endsOperand : TokenKind → Bool
  | .number _ | .string _ | .identifier _ => true
  | .punctuator .parenClose | .punctuator .bracketClose | .punctuator .braceClose => true
  | _ => false

/-- The operator that the token is between two operands. Four names are such operators too. -/
def infix? : TokenKind → Option InfixOp
  | .punctuator p => p.infix?
  | .identifier "lt" => some (.binary .lt)
  | .identifier "lte" => some (.binary .le)
  | .identifier "gt" => some (.binary .gt)
  | .identifier "gte" => some (.binary .ge)
  | _ => none

def unary? : TokenKind → Option UnaryOp
  | .punctuator p => p.unary?
  | _ => none

def update? : TokenKind → Option UpdateOp
  | .punctuator p => p.update?
  | _ => none

end TokenKind

structure Token where
  kind : TokenKind
  text : String
  span : Span
deriving DecidableEq, Inhabited

def Token.is (p : Punctuator) (t : Token) : Bool :=
  t.kind == .punctuator p

end TemplateSyntax.Expr
