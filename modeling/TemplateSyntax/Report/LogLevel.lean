import TemplateSyntax.Text.Blank

/-!
# Log levels

How much a run reports about itself. A level is named without regard to case or to blanks around it, and `warning`
is another name of `warn`.
-/

namespace TemplateSyntax

inductive LogLevel where
  | trace
  | debug
  | info
  | warn
  | error
deriving DecidableEq, Inhabited

namespace LogLevel

def name : LogLevel → String
  | .trace => "trace"
  | .debug => "debug"
  | .info => "info"
  | .warn => "warn"
  | .error => "error"

/-- The level that a text names. No character outside ASCII becomes a letter of one of these names on its own in lower
case, so lower case is taken in ASCII. -/
def ofString? (text : String) : Option LogLevel :=
  match String.ofList ((Text.trim text.toList).map Char.toLower) with
  | "trace" => some .trace
  | "debug" => some .debug
  | "info" => some .info
  | "warn" => some .warn
  | "warning" => some .warn
  | "error" => some .error
  | _ => none

/-- What a text that names no level is told. -/
def unknownMessage (text : String) : String :=
  "unknown log level '" ++ text ++ "', expected one of: trace, debug, info, warn, error"

/-- At level `self` the lines of level `line` are printed: those that matter at least as much. -/
def prints (self line : LogLevel) : Bool :=
  decide (self.ctorIdx ≤ line.ctorIdx)

theorem ofString?_name (l : LogLevel) : ofString? l.name = some l := by
  cases l <;> rfl

end LogLevel

end TemplateSyntax
