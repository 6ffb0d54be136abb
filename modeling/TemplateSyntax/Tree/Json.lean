import TemplateSyntax.Expr.Json
import TemplateSyntax.Tree.Program

/-!
# Trees as JSON

A node is an object with its type and span, what its head holds, and its lists of children. What the lists are called
depends on the kind; a list that a node lacks is left out, an empty one is not.
-/

namespace TemplateSyntax

namespace Head

/-- The fields for what the head holds. -/
def fields : Head → List (String × Json)
  | .text content | .comment content => [("text", .str content)]
  | .interpolation e | .condition e | .list e | .switch e | .case e | .assign _ e => [("params", e.toJson)]
  | .otherwise | .attempt | .default => []
  | .callable _ name params => [("name", .str name), ("params", .arr (Expr.listToJson params))]
  | .macroCall name params => ("name", .str name) :: Json.field? "params" (params.map Expr.toJson)
  | .block _ params | .single _ params => Json.field? "params" (params.map Expr.toJson)

def bodyKey : Head → String
  | .condition _ | .case _ | .default => "consequent"
  | .switch _ => "cases"
  | _ => "body"

def branchKey : Head → String
  | .condition _ => "alternate"
  | _ => "fallback"

end Head

namespace Node

mutual

def toJson : Node → Json
  | ⟨head, span, body, branch⟩ =>
    .obj (("type", .str head.kind.name) :: span.fields ++ head.fields ++ Json.field? head.bodyKey (slotToJson body) ++
      Json.field? head.branchKey (slotToJson branch))

def slotToJson : Option (List Node) → Option Json
  | none => none
  | some ns => some (.arr (listToJson ns))

def listToJson : List Node → List Json
  | [] => []
  | n :: ns => n.toJson :: listToJson ns

end

end Node

def StructuralError.toJson (e : StructuralError) : Json :=
  .obj (("message", .str e.message) :: e.span.fields)

/-- The errors are there only if there are any. -/
def Program.toJson (p : Program) : Json :=
  .obj (p.span.fields ++ [("body", .arr (Node.listToJson p.body))] ++
    match p.errors with
    | [] => []
    | errors => [("errors", .arr (errors.map StructuralError.toJson))])

end TemplateSyntax
