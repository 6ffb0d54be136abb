import TemplateSyntax.Markup.Token

/-!
# Kinds of nodes

The tags of a template make nodes of thirty-five kinds. Most kinds are directives with a name of their own; text,
comments, interpolations and macro calls come from the other tokens. For each kind this module says by which name
it goes, whether it takes parameters, whether it opens a body, and whether it continues a directive that is already
open.
-/

namespace TemplateSyntax

/-- Where a variable is set. -/
inductive Scope where
  | template
  | everywhere
  | call
deriving DecidableEq, Inhabited

/-- What a definition defines. -/
inductive Callable where
  | macroDef
  | function
deriving DecidableEq, Inhabited

/-- Directives that do no more than wrap a body. -/
inductive Block where
  | escape
  | noEscape
  | compress
  | outputFormat
deriving DecidableEq, Inhabited

/-- Directives that are complete in one tag. -/
inductive Single where
  | include
  | import
  | break
  | return
  | setting
  | flush
  | stop
  | nested
  | lt
  | rt
  | nt
  | t
deriving DecidableEq, Inhabited

inductive Kind where
  | program
  | text
  | comment
  | interpolation
  | condition
  | elseIf
  | otherwise
  | list
  | attempt
  | recover
  | switch
  | case
  | default
  | assign (scope : Scope)
  | callable (sort : Callable)
  | macroCall
  | block (sort : Block)
  | single (sort : Single)
deriving DecidableEq, Inhabited

namespace Kind

/-- The name of the kind in printed trees. -/
def name : Kind → String
  | .program => "Program"
  | .text => "Text"
  | .comment => "Comment"
  | .interpolation => "Interpolation"
  | .condition => "Condition"
  | .elseIf => "ConditionElse"
  | .otherwise => "Else"
  | .list => "List"
  | .attempt => "Attempt"
  | .recover => "Recover"
  | .switch => "Switch"
  | .case => "SwitchCase"
  | .default => "SwitchDefault"
  | .assign .template => "Assign"
  | .assign .everywhere => "Global"
  | .assign .call => "Local"
  | .callable .macroDef => "Macro"
  | .callable .function => "Function"
  | .macroCall => "MacroCall"
  | .block .escape => "Escape"
  | .block .noEscape => "NoEscape"
  | .block .compress => "Compress"
  | .block .outputFormat => "OutputFormat"
  | .single .include => "Include"
  | .single .import => "Import"
  | .single .break => "Break"
  | .single .return => "Return"
  | .single .setting => "Setting"
  | .single .flush => "Flush"
  | .single .stop => "Stop"
  | .single .nested => "Nested"
  | .single .lt => "Lt"
  | .single .rt => "Rt"
  | .single .nt => "Nt"
  | .single .t => "T"

/-- The name of the directive, as a tag and as messages have it. -/
def directiveName : Kind → String
  | .program => "program"
  | .text => "text"
  | .comment => "comment"
  | .interpolation => "interpolation"
  | .condition => "if"
  | .elseIf => "elseif"
  | .otherwise => "else"
  | .list => "list"
  | .attempt => "attempt"
  | .recover => "recover"
  | .switch => "switch"
  | .case => "case"
  | .default => "default"
  | .assign .template => "assign"
  | .assign .everywhere => "global"
  | .assign .call => "local"
  | .callable .macroDef => "macro"
  | .callable .function => "function"
  | .macroCall => "macro call"
  | .block .escape => "escape"
  | .block .noEscape => "noescape"
  | .block .compress => "compress"
  | .block .outputFormat => "outputformat"
  | .single .include => "include"
  | .single .import => "import"
  | .single .break => "break"
  | .single .return => "return"
  | .single .setting => "setting"
  | .single .flush => "flush"
  | .single .stop => "stop"
  | .single .nested => "nested"
  | .single .lt => "lt"
  | .single .rt => "rt"
  | .single .nt => "nt"
  | .single .t => "t"

/-- The kinds that a directive tag can have. -/
def directives : List Kind :=
  [.condition, .elseIf, .otherwise, .list, .attempt, .recover, .switch, .case, .default, .single .break,
    .assign .template, .assign .everywhere, .assign .call, .callable .macroDef, .callable .function,
    .single .return, .single .include, .single .import, .block .escape, .block .noEscape, .block .compress,
    .block .outputFormat, .single .setting, .single .flush, .single .stop, .single .nested, .single .lt,
    .single .rt, .single .nt, .single .t]

/-- All kinds. -/
def all : List Kind :=
  [.program, .text, .comment, .interpolation, .macroCall] ++ directives

/-- The kind of the directive with the given tag name. -/
def ofName? (tag : String) : Option Kind :=
  directives.find? fun k => k.directiveName == tag

/-- The kind of a token; a tag with an unknown name has none. -/
def ofToken? (t : Markup.Token) : Option Kind :=
  match t.kind with
  | .text => some .text
  | .comment => some .comment
  | .interpolation => some .interpolation
  | .macroTag => some .macroCall
  | .directive => t.tag.bind ofName?

/-- An opening tag of this kind starts a list of children. A variable can be set from a body too, but its tag decides
that by its parameters. -/
def hasBody : Kind → Bool
  | .program | .condition | .elseIf | .otherwise | .list | .attempt | .recover | .switch | .case | .default
  | .callable _ | .macroCall | .block _ => true
  | .text | .comment | .interpolation | .assign _ | .single _ => false

def isAssign : Kind → Bool
  | .assign _ => true
  | _ => false

/-- A tag of this kind goes on with the directive that is open, and opens no node of its own. -/
def isContinuation : Kind → Bool
  | .elseIf | .otherwise | .recover | .case | .default => true
  | _ => false

/-- Whether a tag must, may or must not have parameters. -/
inductive ParamRule where
  | required
  | optional
  | forbidden
deriving DecidableEq, Inhabited

def paramRule : Kind → ParamRule
  | .interpolation | .condition | .elseIf | .list | .switch | .case | .assign _ | .callable _ => .required
  | .block .escape | .block .outputFormat => .required
  | .single .include | .single .import | .single .setting => .required
  | .macroCall | .single .return | .single .stop | .single .nested => .optional
  | .program | .text | .comment | .otherwise | .attempt | .recover | .default => .forbidden
  | .block .noEscape | .block .compress => .forbidden
  | .single .break | .single .flush | .single .lt | .single .rt | .single .nt | .single .t => .forbidden

theorem mem_all (k : Kind) : k ∈ all := by
  cases k with
  | assign scope => cases scope <;> decide
  | callable sort => cases sort <;> decide
  | block sort => cases sort <;> decide
  | single sort => cases sort <;> decide
  | _ => decide

/-- Distinct directives have distinct names. -/
theorem ofName?_directiveName {k : Kind} (h : k ∈ directives) : ofName? k.directiveName = some k := by
  revert k
  decide

end Kind

end TemplateSyntax
