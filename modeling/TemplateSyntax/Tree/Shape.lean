import TemplateSyntax.Tree.Error
import TemplateSyntax.Tree.Node

/-!
# From a tag to its node

Some directives want their parameters in a form of their own. This module says which form, and makes the head and the
first lists of children of the node that a tag begins.
-/

namespace TemplateSyntax

namespace Expr

/-! ### Forms of parameters -/

/-- `<sequence> as <name>`, or `<map> as <key>, <value>`. -/
def isListing (params : Expr) : Bool :=
  match params.items with
  | [_, link, x] => link.isIdentifier "as" && x.identifier?.isSome
  | [_, link, x, y] => link.isIdentifier "as" && x.identifier?.isSome && y.identifier?.isSome
  | _ => false

/-- `<name> as <expression>`. -/
def isReplacement (params : Expr) : Bool :=
  match params.items with
  | [name, link, _] => link.isIdentifier "as" && name.identifier?.isSome
  | _ => false

/-- `<path> as <namespace>`. -/
def isImport (params : Expr) : Bool :=
  match params.items with
  | [_, link, name] => link.isIdentifier "as" && name.identifier?.isSome
  | _ => false

def isStringLiteral : Expr → Bool
  | .literal (.string _) _ _ => true
  | _ => false

/-- `name = value`. -/
def isSetting : Expr → Bool
  | .join (.assign .set) left _ _ => left.identifier?.isSome
  | _ => false

/-- An assignment, or a step up or down. -/
def isChange : Expr → Bool
  | .join (.assign _) _ _ _ | .update _ _ _ _ => true
  | _ => false

/-- The items in front of a final `in <namespace>`, if there is at least one. -/
def dropNamespace : List Expr → List Expr
  | [] => []
  | [a] => [a]
  | [a, b] => [a, b]
  | [a, b, c] => if b.isIdentifier "in" then [a] else [a, b, c]
  | a :: es => a :: dropNamespace es

/-- How a tag gives values to its variables. -/
inductive Setter where
  /-- One bare name, whose value is the body. -/
  | capture
  | changes
deriving DecidableEq, Inhabited

def setter? (params : Expr) : Option Setter :=
  match dropNamespace params.items with
  | [] => none
  | [e] => if e.identifier?.isSome then some .capture else if e.isChange then some .changes else none
  | es => if es.all isChange then some .changes else none

/-- The name and the parameters of a definition, from `name x y=1` or `name(x, y=1)`. -/
def signature? (params : Expr) : Option (String × List Expr) :=
  match params.items with
  | .identifier name _ :: rest => some (name, rest)
  | .call (.identifier name _) arguments _ :: rest => some (name, arguments ++ rest)
  | _ => none

end Expr

/-! ### Heads -/

/-- `head`, if the form of the parameters is right. -/
def Head.given (ok : Bool) (fault : StructuralFault) (head : Head) : Except StructuralFault Head :=
  if ok then .ok head else .error fault

/-- The head of the node that an opening tag begins. Tags that only continue a node begin none. -/
def Head.ofTag (kind : Kind) (t : Markup.Token) (params : Option Expr) : Except StructuralFault Head :=
  match kind, params with
  | .text, _ => .ok (.text t.raw)
  | .comment, _ => .ok (.comment (t.commentBody?.getD ""))
  | .interpolation, some e => .ok (.interpolation e)
  | .condition, some e => .ok (.condition e)
  | .list, some e => given e.isListing .listShape (.list e)
  | .attempt, _ => .ok .attempt
  | .switch, some e => .ok (.switch e)
  | .assign scope, some e => given e.setter?.isSome (.assignShape scope) (.assign scope e)
  | .callable sort, some e =>
    match e.signature? with
    | some (name, declared) => .ok (.callable sort name declared)
    | none => .error (.missingName sort)
  | .macroCall, _ => .ok (.macroCall (t.tag.getD "") params)
  | .block .escape, some e => given e.isReplacement .escapeShape (.block .escape params)
  | .block .outputFormat, some e => given e.isStringLiteral .outputFormatShape (.block .outputFormat params)
  | .block .noEscape, _ => .ok (.block .noEscape none)
  | .block .compress, _ => .ok (.block .compress none)
  | .single .import, some e => given e.isImport .importShape (.single .import params)
  | .single .setting, some e => given e.isSetting .settingShape (.single .setting params)
  | .single .import, none | .single .setting, none => .error (.missingParams t.label)
  | .single sort, _ => .ok (.single sort params)
  | .program, _ | .elseIf, _ | .otherwise, _ | .recover, _ | .case, _ | .default, _ => .error (.misplaced t.label)
  | _, none => .error (.missingParams t.label)

/-- The node wraps what stands between its tags. A variable does so when its value is captured, a macro call unless it
ends in its tag. -/
def Head.wraps (selfClosing : Bool) : Head → Bool
  | .assign _ params => params.setter? == some .capture
  | .macroCall _ _ => !selfClosing
  | head => head.kind.hasBody

/-- The node that an opening tag begins, before any of its content. -/
def Node.ofTag (kind : Kind) (t : Markup.Token) (params : Option Expr) : Except StructuralFault Node :=
  (Head.ofTag kind t params).map fun head =>
    ⟨head, t.span, if head.wraps t.selfClosing then some [] else none, none⟩

end TemplateSyntax
