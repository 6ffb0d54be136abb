import TemplateSyntax.Json.Span
import TemplateSyntax.Expr.Error
import TemplateSyntax.Expr.Tree

/-!
# Expressions as JSON

An object for each expression: its type, what the type holds, and the two ends of its span.
-/

namespace TemplateSyntax

def Literal.toJson : Literal → Json
  | .number value => .double value
  | .string value => .str value
  | .boolean value => .bool value
  | .null => .null

namespace Expr

def identifierJson (name : String) (span : Span) : Json :=
  .obj ([("type", .str "Identifier"), ("name", .str name)] ++ span.fields)

/-- The fields of an operation: its type, its operator unless that goes without saying, and its sides. -/
def joinFields (op : InfixOp) (left right : Json) : List (String × Json) :=
  (match op with
    | .assign op => [("type", .str "AssignmentExpression"), ("operator", .str op.symbol)]
    | .logical op => [("type", .str "LogicalExpression"), ("operator", .str op.symbol)]
    | .binary op => [("type", .str "BinaryExpression"), ("operator", .str op.symbol)]
    | .builtIn => [("type", .str "BuiltInExpression")]) ++
    [("left", left), ("right", right)]

mutual

def toJson : Expr → Json
  | .literal value raw s => .obj ([("type", .str "Literal"), ("value", value.toJson), ("raw", .str raw)] ++ s.fields)
  | .identifier name s => identifierJson name s
  | .field object name nameSpan s =>
    .obj ([("type", .str "MemberExpression"), ("object", object.toJson), ("property", identifierJson name nameSpan),
      ("computed", .bool false)] ++ s.fields)
  | .index object key s =>
    .obj ([("type", .str "MemberExpression"), ("object", object.toJson), ("property", key.toJson),
      ("computed", .bool true)] ++ s.fields)
  | .call callee arguments s =>
    .obj ([("type", .str "CallExpression"), ("callee", callee.toJson), ("arguments", .arr (listToJson arguments))] ++
      s.fields)
  | .array elements s => .obj ([("type", .str "ArrayExpression"), ("elements", .arr (listToJson elements))] ++ s.fields)
  | .map entries s => .obj ([("type", .str "MapExpression"), ("entries", .arr (entriesToJson entries))] ++ s.fields)
  | .unary op argument s =>
    .obj ([("type", .str "UnaryExpression"), ("operator", .str op.symbol), ("argument", argument.toJson)] ++ s.fields)
  | .update op argument leading s =>
    .obj ([("type", .str "UpdateExpression"), ("operator", .str op.symbol), ("argument", argument.toJson),
      ("prefix", .bool leading)] ++ s.fields)
  | .join op left right s => .obj (joinFields op left.toJson right.toJson ++ s.fields)
  | .compound items s => .obj ([("type", .str "Compound"), ("body", .arr (listToJson items))] ++ s.fields)

def listToJson : List Expr → List Json
  | [] => []
  | e :: es => e.toJson :: listToJson es

def entriesToJson : List (Expr × Expr) → List Json
  | [] => []
  | (key, value) :: es => .obj [("key", key.toJson), ("value", value.toJson)] :: entriesToJson es

end

theorem listToJson_eq_map (es : List Expr) : listToJson es = es.map toJson := by
  induction es with
  | nil => rfl
  | cons e es ih => rw [listToJson, ih, List.map_cons]

end Expr

end TemplateSyntax
