import TemplateSyntax.Json.Span
import TemplateSyntax.Markup.Token

/-!
# Markup tokens as JSON

A token is an object with its kind, span and text; a tag name and parameters are there only if the token has them.
-/

namespace TemplateSyntax.Markup

def Fragment.toJson (f : Fragment) : Json :=
  .obj (("text", .str f.text) :: f.span.fields)

def Params.toJson (p : Params) : Json :=
  .obj (("text", .str p.text) :: p.span.fields ++ [("fragments", .arr (p.fragments.map Fragment.toJson))])

def Token.toJson (t : Token) : Json :=
  .obj (("kind", .str t.kind.name) :: t.span.fields ++ [("raw", .str t.raw)] ++ Json.field? "tag" (t.tag.map .str) ++
    Json.field? "params" (t.params.map Params.toJson) ++
    [("is_closing", .bool t.closing), ("self_closing", .bool t.selfClosing)])

end TemplateSyntax.Markup
