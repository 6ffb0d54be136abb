import TemplateSyntax.Span
import TemplateSyntax.Expr.Token

/-!
# Expression errors

What can be wrong with the parameters of a tag: first the faults of single tokens, then those of their order. Each
fault has one wording.
-/

namespace TemplateSyntax

namespace Expr

/-- A pair of brackets around a group. -/
inductive Bracket where
  | paren
  | square
  | brace
deriving DecidableEq, Inhabited

namespace Bracket

def opener : Bracket → Punctuator
  | .paren => .parenOpen
  | .square => .bracketOpen
  | .brace => .braceOpen

def closer : Bracket → Punctuator
  | .paren => .parenClose
  | .square => .bracketClose
  | .brace => .braceClose

def openerText (b : Bracket) : String :=
  String.ofList b.opener.text

end Bracket

inductive Fault where
  | missingExponent
  | nameAfterNumber
  | strayPeriod
  | unclosedQuote (value : String)
  | unexpectedCharacter (c : Char)
  | missingOperand (op : InfixOp)
  | unexpectedEnd
  | unexpectedToken (text : String)
  | missingProperty
  | unclosed (bracket : Bracket)
  | missingCloser (bracket : Bracket)
  | missingSeparator (bracket : Bracket)
  | missingColon
  | missingEntryEnd
  | updateTarget
  | assignTarget
deriving DecidableEq, Inhabited

def Fault.message : Fault → String
  | .missingExponent => "Expected exponent"
  | .nameAfterNumber => "Variable names cannot start with a number"
  | .strayPeriod => "Unexpected period"
  | .unclosedQuote value => "Unclosed quote after \"" ++ value ++ "\""
  | .unexpectedCharacter c => "Unexpected character: '" ++ c.toString ++ "'"
  | .missingOperand op => "Expected expression after " ++ op.describe
  | .unexpectedEnd => "Unexpected end of expression"
  | .unexpectedToken text => "Unexpected \"" ++ text ++ "\""
  | .missingProperty => "Expected property name after \".\""
  | .unclosed bracket => "Unclosed \"" ++ bracket.openerText ++ "\""
  | .missingCloser bracket => "Expected closing bracket for \"" ++ bracket.openerText ++ "\""
  | .missingSeparator bracket => "Expected \",\" or closing bracket for \"" ++ bracket.openerText ++ "\""
  | .missingColon => "Expected \":\" after map key"
  | .missingEntryEnd => "Expected \",\" or \"\x7d\""
  | .updateTarget => "Invalid update target"
  | .assignTarget => "Invalid assignment target"

end Expr

structure ExprError where
  fault : Expr.Fault
  span : Span
deriving DecidableEq, Inhabited

namespace ExprError

def message (e : ExprError) : String := e.fault.message

def display (e : ExprError) : String :=
  "Expression error at offset " ++ e.span.start.repr ++ ": " ++ e.message

end ExprError

end TemplateSyntax
