import TemplateSyntax.Directive.Kind

/-!
# Structural errors

What can be wrong with the order of the tags of a template, or with the form of their parameters. Such an error does
not end the reading of a template: its tag is left out and the next one is taken.
-/

namespace TemplateSyntax

/-- A fault names its tag by the tag's label. -/
inductive StructuralFault where
  /-- No directive has this name. -/
  | unsupported (label : String)
  | missingParams (label : String)
  | unexpectedParams (label : String)
  /-- The tag continues a directive that is not open. -/
  | misplaced (label : String)
  | contentBeforeCase
  | elseIfAfterElse
  | duplicateElse (kind : Kind)
  | duplicateRecover
  | duplicateDefault
  | missingRecover
  | listShape
  | assignShape (scope : Scope)
  | missingName (sort : Callable)
  | escapeShape
  | outputFormatShape
  | importShape
  | settingShape
  /-- A closing tag where nothing is open. -/
  | strayClose (label : String)
  | mismatchedClose (label expected : String)
  | unclosed (label : String)
deriving DecidableEq, Inhabited

namespace StructuralFault

/-- The opening tag of a kind, as a message quotes it. -/
def quotedTag (kind : Kind) : String :=
  "`<#" ++ kind.directiveName ++ ">`"

def message : StructuralFault → String
  | .unsupported label => "directive not supported: `" ++ label ++ "`"
  | .missingParams label => "`" ++ label ++ "` requires parameters"
  | .unexpectedParams label => "`" ++ label ++ "` does not take parameters"
  | .misplaced label => "`" ++ label ++ "` is not allowed here"
  | .contentBeforeCase => "unexpected content in `<#switch>` before the first `<#case>`"
  | .elseIfAfterElse => "`<#elseif>` after `<#else>`"
  | .duplicateElse kind => "duplicate `<#else>` in " ++ quotedTag kind
  | .duplicateRecover => "duplicate `<#recover>` in `<#attempt>`"
  | .duplicateDefault => "duplicate `<#default>` in `<#switch>`"
  | .missingRecover => "`<#attempt>` requires a `<#recover>` branch"
  | .listShape => "`<#list>` expects `<sequence> as <name>`"
  | .assignShape scope => quotedTag (.assign scope) ++ " expects assignments such as `x = 1`"
  | .missingName sort => quotedTag (.callable sort) ++ " expects a name"
  | .escapeShape => "`<#escape>` expects `<name> as <expression>`"
  | .outputFormatShape => "`<#outputformat>` expects a single string literal"
  | .importShape => "`<#import>` expects `<path> as <namespace>`"
  | .settingShape => "`<#setting>` expects `name = value`"
  | .strayClose label => "unexpected close tag `" ++ label ++ "`"
  | .mismatchedClose label expected => "unexpected close tag `" ++ label ++ "`, expected `" ++ expected ++ "`"
  | .unclosed label => "unclosed tag `" ++ label ++ "`"

end StructuralFault

structure StructuralError where
  fault : StructuralFault
  span : Span
deriving DecidableEq, Inhabited

namespace StructuralError

def message (e : StructuralError) : String := e.fault.message

def display (e : StructuralError) : String :=
  "Structural error at offset " ++ e.span.start.repr ++ ": " ++ e.message

end StructuralError

end TemplateSyntax
