import TemplateSyntax.Markup.Json
import TemplateSyntax.Markup.Scan
import TemplateSyntax.Tree.Builder
import TemplateSyntax.Tree.Json

/-!
# Templates

Parsing a template scans its source and builds the tree of its tokens. An error of the scanner, or inside an
expression, leaves no tree; structural errors go with the tree.
-/

namespace TemplateSyntax

structure Template where
  program : Program
  tokens : List Markup.Token
  /-- Where the template was found. Parsing hands it on as it is. -/
  basePath : Option String
deriving Inhabited

/-- What leaves a template without a tree. -/
inductive Template.Error where
  | scan (e : Markup.ScanError)
  | expr (e : ExprError)
deriving DecidableEq, Inhabited

namespace Template

namespace Error

def message : Error → String
  | .scan e => e.message
  | .expr e => e.message

def span : Error → Span
  | .scan e => e.span
  | .expr e => e.span

def display : Error → String
  | .scan e => e.display
  | .expr e => e.display

end Error

def parse (source : String) (basePath : Option String) : Except Error Template :=
  match Markup.tokenize source with
  | .error e => .error (.scan e)
  | .ok tokens =>
    match Program.ofTokens tokens source.utf8ByteSize with
    | .error e => .error (.expr e)
    | .ok program => .ok ⟨program, tokens, basePath⟩

def toJson (t : Template) : Json :=
  .obj ([("ast", t.program.toJson), ("tokens", .arr (t.tokens.map Markup.Token.toJson))] ++
    Json.field? "base_path" (t.basePath.map .str))

end Template

end TemplateSyntax
