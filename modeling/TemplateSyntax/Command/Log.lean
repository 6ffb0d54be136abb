import TemplateSyntax.Report.LogLevel
import TemplateSyntax.Template
import TemplateSyntax.Text.Control

/-!
# Log

While a template is read, a run can report what it finds: the tokens one by one, then how many there are, then the
structural errors and the size of the tree. Each event has a level, and a line that begins with it. What a line quotes
of the template cannot steer a terminal.
-/

namespace TemplateSyntax.Command

inductive LogEvent where
  | token (t : Markup.Token)
  /-- The whole template was scanned. -/
  | tokenized (tokens bytes : Nat)
  | structuralError (e : StructuralError)
  /-- The tree was built, with `nodes` nodes at its top. -/
  | built (nodes errors : Nat)
  | checkFailed (errors : Nat)
deriving DecidableEq, Inhabited

namespace LogEvent

def level : LogEvent → LogLevel
  | .token _ => .trace
  | .tokenized _ _ | .structuralError _ | .built _ _ => .debug
  | .checkFailed _ => .info

/-- The part of the program that reports the event. -/
def source : LogEvent → String
  | .token _ | .tokenized _ _ => "ftl_lexer::scanner"
  | .structuralError _ | .built _ _ => "ftl_parser::builder"
  | .checkFailed _ => "ftl"

/-- A number with its name. -/
def count (name : String) (n : Nat) : String :=
  " " ++ name ++ "=" ++ n.repr

def extent (s : Span) : String :=
  count "start" s.start ++ count "end" s.stop

def text : LogEvent → String
  | .token t => "token kind=" ++ t.kind.name ++ extent t.span
  | .tokenized tokens bytes => "tokenized template" ++ count "tokens" tokens ++ count "bytes" bytes
  | .structuralError e => "structural error " ++ e.message ++ extent e.span
  | .built nodes errors => "built template tree" ++ count "nodes" nodes ++ count "errors" errors
  | .checkFailed errors => "check failed" ++ count "errors" errors

/-- The name of a level in five columns. -/
def levelColumn : LogLevel → String
  | .trace => "TRACE"
  | .debug => "DEBUG"
  | .info => " INFO"
  | .warn => " WARN"
  | .error => "ERROR"

def line (e : LogEvent) : String :=
  levelColumn e.level ++ " " ++ e.source ++ ": " ++ Text.disarmed e.text

/-! ### Events of a template -/

/-- What is reported while a source is scanned. The tokens in front of an error are found all the same. -/
def ofScan (source : String) : List LogEvent :=
  match Markup.scan source with
  | (tokens, some _) => tokens.map .token
  | (tokens, none) => tokens.map .token ++ [.tokenized tokens.length source.utf8ByteSize]

/-- What is reported while a tree is built. The structural errors in front of an error in an expression are found all
the same. -/
def ofBuild (tokens : List Markup.Token) (stop : Nat) : List LogEvent :=
  match (Builder.new stop).pushAll tokens with
  | (some _, b) => b.errors.map .structuralError
  | (none, b) =>
    let p := b.finish
    p.errors.map .structuralError ++ [.built p.body.length p.errors.length]

def ofParse (source : String) : List LogEvent :=
  ofScan source ++
    match Markup.tokenize source with
    | .ok tokens => ofBuild tokens source.utf8ByteSize
    | .error _ => []

end LogEvent

end TemplateSyntax.Command
