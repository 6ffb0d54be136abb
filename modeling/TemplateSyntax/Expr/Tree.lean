import TemplateSyntax.Span
import TemplateSyntax.Decimal.Binary64
import TemplateSyntax.Expr.Operator

/-!
# Expression trees

An expression covers a span of the template. Parentheses leave no trace: the tree below them keeps its own span.
Several expressions side by side, as in `users as user`, are the items of a compound, which occurs at the top only.
-/

namespace TemplateSyntax

open Decimal (Binary64)

inductive Literal where
  | number (value : Binary64)
  | string (value : String)
  | boolean (value : Bool)
  | null
deriving DecidableEq, Inhabited

inductive Expr where
  /-- A literal, with the text it was written as. -/
  | literal (value : Literal) (raw : String) (span : Span)
  | identifier (name : String) (span : Span)
  /-- `object.name`. -/
  | field (object : Expr) (name : String) (nameSpan : Span) (span : Span)
  /-- `object[key]`. -/
  | index (object key : Expr) (span : Span)
  | call (callee : Expr) (arguments : List Expr) (span : Span)
  | array (elements : List Expr) (span : Span)
  | map (entries : List (Expr × Expr)) (span : Span)
  | unary (op : UnaryOp) (argument : Expr) (span : Span)
  /-- `++x` when `leading`, else `x++`. -/
  | update (op : UpdateOp) (argument : Expr) (leading : Bool) (span : Span)
  | join (op : InfixOp) (left right : Expr) (span : Span)
  | compound (items : List Expr) (span : Span)
deriving Inhabited

namespace Expr

def span : Expr → Span
  | .literal _ _ s | .identifier _ s | .field _ _ _ s | .index _ _ s | .call _ _ s | .array _ s | .map _ s
  | .unary _ _ s | .update _ _ _ s | .join _ _ _ s | .compound _ s => s

/-- The items of a compound; any other expression is its own only item. -/
def items : Expr → List Expr
  | .compound items _ => items
  | e => [e]

def identifier? : Expr → Option String
  | .identifier name _ => some name
  | _ => none

def isIdentifier (name : String) (e : Expr) : Bool :=
  e.identifier? == some name

/-- A variable, field or element: what an assignment or update can change. -/
def isAssignable : Expr → Bool
  | .identifier _ _ | .field _ _ _ _ | .index _ _ _ => true
  | _ => false

theorem isAssignable_iff {e : Expr} :
    e.isAssignable = true ↔
      (∃ name s, e = .identifier name s) ∨ (∃ object name nameSpan s, e = .field object name nameSpan s) ∨
        ∃ object key s, e = .index object key s := by
  cases e <;> simp [isAssignable]

end Expr

end TemplateSyntax
