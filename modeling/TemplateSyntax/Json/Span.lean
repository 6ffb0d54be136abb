import TemplateSyntax.Json.Value
import TemplateSyntax.Span

/-!
# Spans as JSON

Printed objects carry their span as two fields of their own, or, where the span is a value by itself, as an object
of these two.
-/

namespace TemplateSyntax

/-- The ends of a span as the last fields of an object. -/
def Span.fields (s : Span) : List (String × Json) :=
  [("start", .nat s.start), ("end", .nat s.stop)]

def Span.toJson (s : Span) : Json :=
  .obj s.fields

end TemplateSyntax
