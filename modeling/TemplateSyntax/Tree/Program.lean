import TemplateSyntax.Tree.Error
import TemplateSyntax.Tree.Node

/-!
# Programs

A program is the tree of a whole template, with the structural errors in the order in which they were found. It covers
the template from its first byte to the end, `stop`.
-/

namespace TemplateSyntax

structure Program where
  stop : Nat
  body : List Node
  errors : List StructuralError
deriving Inhabited

def Program.span (p : Program) : Span := ⟨0, p.stop⟩

end TemplateSyntax
