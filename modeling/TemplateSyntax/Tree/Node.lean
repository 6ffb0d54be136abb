import TemplateSyntax.Directive.Kind
import TemplateSyntax.Expr.Tree

/-!
# Nodes of a template

A node is a head, which says what stands there, over at most two lists of children: a body, and a branch that is
taken instead of the body. A list that a node does not have differs from an empty one: a macro call may end in its
tag or wrap a body, and a condition may lack its alternative.

The children of a switch are its cases, and the alternative of a condition is one node: an `<#else>`, or the condition
of an `<#elseif>`.
-/

namespace TemplateSyntax

inductive Head where
  | text (content : String)
  | comment (content : String)
  | interpolation (value : Expr)
  | condition (test : Expr)
  | otherwise
  | list (params : Expr)
  | attempt
  | switch (subject : Expr)
  | case (value : Expr)
  | default
  | assign (scope : Scope) (params : Expr)
  | callable (sort : Callable) (name : String) (params : List Expr)
  | macroCall (name : String) (params : Option Expr)
  | block (sort : Block) (params : Option Expr)
  | single (sort : Single) (params : Option Expr)
deriving Inhabited

def Head.kind : Head → Kind
  | .text _ => .text
  | .comment _ => .comment
  | .interpolation _ => .interpolation
  | .condition _ => .condition
  | .otherwise => .otherwise
  | .list _ => .list
  | .attempt => .attempt
  | .switch _ => .switch
  | .case _ => .case
  | .default => .default
  | .assign scope _ => .assign scope
  | .callable sort _ _ => .callable sort
  | .macroCall _ _ => .macroCall
  | .block sort _ => .block sort
  | .single sort _ => .single sort

structure Node where
  head : Head
  span : Span
  body : Option (List Node)
  branch : Option (List Node)
deriving Inhabited

namespace Node

def kind (n : Node) : Kind := n.head.kind

/-- The children in the order of the template. -/
def children (n : Node) : List Node :=
  n.body.getD [] ++ n.branch.getD []

/-- The node with its end moved to `stop`. -/
def endAt (stop : Nat) (n : Node) : Node :=
  { n with span := ⟨n.span.start, stop⟩ }

@[simp] theorem endAt_head (stop : Nat) (n : Node) : (n.endAt stop).head = n.head := rfl

@[simp] theorem endAt_children (stop : Nat) (n : Node) : (n.endAt stop).children = n.children := rfl

@[simp] theorem endAt_endAt (s t : Nat) (n : Node) : (n.endAt s).endAt t = n.endAt t := rfl

end Node

end TemplateSyntax
