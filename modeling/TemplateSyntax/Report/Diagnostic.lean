import TemplateSyntax.Report.Position
import TemplateSyntax.Template

/-!
# Diagnostics

A diagnostic is an error as a reader is told of it: its message and span, with the position of its start in the
source. It is rendered on one line, after the path of the template.
-/

namespace TemplateSyntax

structure Diagnostic where
  message : String
  span : Span
  position : Option Position
deriving DecidableEq, Inhabited

namespace Diagnostic

def new (source message : String) (span : Span) : Diagnostic :=
  ⟨message, span, Position.at? source span.start⟩

def ofStructural (source : String) (e : StructuralError) : Diagnostic :=
  new source e.message e.span

/-- What the program of a source has wrong, in the order of its errors. -/
def ofProgram (source : String) (p : Program) : List Diagnostic :=
  p.errors.map (ofStructural source)

def ofError (source : String) (e : Template.Error) : Diagnostic :=
  new source e.message e.span

/-- `path:line:column: message`. A span that has no position is told by its offset. -/
def render (path : String) (d : Diagnostic) : String :=
  let place :=
    match d.position with
    | some p => p.line.repr ++ ":" ++ p.column.repr
    | none => d.span.start.repr
  path ++ ":" ++ place ++ ": " ++ d.message

def toJson (d : Diagnostic) : Json :=
  .obj (("message", .str d.message) :: d.span.fields ++
    Json.field? "line" (d.position.map fun p => .nat p.line) ++
    Json.field? "column" (d.position.map fun p => .nat p.column))

end Diagnostic

end TemplateSyntax
