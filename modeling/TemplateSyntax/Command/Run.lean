import TemplateSyntax.Command.FileTree
import TemplateSyntax.Command.Log
import TemplateSyntax.Command.Usage
import TemplateSyntax.Report.Diagnostic

/-!
# Running a command

A run is a function of its arguments, the variable with the log level and the file it reads. Its outcome is an exit
code and two texts: results go to the output, while log lines, notices and errors that leave no result go to the error
output.
-/

namespace TemplateSyntax.Command

structure Outcome where
  code : Nat
  output : String
  errors : String
deriving DecidableEq, Inhabited

/-! ### Before a command -/

def Detour.outcome : Detour → Outcome
  | .help topic => ⟨0, helpText topic, ""⟩
  | .version => ⟨0, versionText, ""⟩
  | .nothing => ⟨2, "", helpText none⟩
  | .fault f => ⟨2, "", f.text⟩

/-- What stops a command, reported with an exit code. -/
inductive Trouble where
  | configuration (message : String)
  | unreadable (path : String) (fault : ReadFault)
deriving DecidableEq, Inhabited

namespace Trouble

def message : Trouble → String
  | .configuration message => "invalid configuration: " ++ message
  | .unreadable path fault => "cannot read " ++ path ++ ": " ++ fault.reason

def code : Trouble → Nat
  | .configuration _ => 2
  | .unreadable _ _ => 1

def outcome (t : Trouble) : Outcome :=
  ⟨t.code, "", joinLines ["Error: " ++ t.message]⟩

end Trouble

/-- The level that the variable sets; without the variable only warnings and errors are logged. -/
def variableLevel : Option String → Except Trouble LogLevel
  | none => .ok .warn
  | some text =>
    match LogLevel.ofString? text with
    | some l => .ok l
    | none => .error (.configuration (LogLevel.unknownMessage text))

/-- The command that the arguments ask for and its log level, or the outcome when there is no command to run. The level
of the arguments wins over that of the variable, which has to name one nevertheless. -/
def start (arguments : List String) (setting : Option String) : Except Outcome (Invocation × LogLevel) :=
  match Invocation.ofStrings arguments with
  | .error d => .error d.outcome
  | .ok i =>
    match variableLevel setting with
    | .error t => .error t.outcome
    | .ok l => .ok (i, i.level.getD l)

/-! ### Commands -/

/-- The lines of the events that a level prints. -/
def logLines (level : LogLevel) (events : List LogEvent) : List String :=
  (events.filter fun e => level.prints e.level).map LogEvent.line

/-- The program and its errors as one object, the errors with their positions. -/
def parseOutput (source : String) (p : Program) : Json :=
  .obj [("ast", p.toJson), ("errors", .arr ((Diagnostic.ofProgram source p).map Diagnostic.toJson))]

/-- What is wrong with a template; an error that leaves no tree stands alone. -/
def diagnostics (source : String) : List Diagnostic :=
  match Template.parse source none with
  | .ok t => Diagnostic.ofProgram source t.program
  | .error e => [Diagnostic.ofError source e]

def parse (compact : Bool) (path source : String) (level : LogLevel) : Outcome :=
  let log := logLines level (LogEvent.ofParse source)
  match Template.parse source none with
  | .error e => ⟨1, "", joinLines (log ++ [(Diagnostic.ofError source e).render path])⟩
  | .ok t =>
    let json := parseOutput source t.program
    ⟨if t.program.errors.isEmpty then 0 else 1, joinLines [if compact then json.compact else json.pretty],
      joinLines log⟩

def tokens (path source : String) (level : LogLevel) : Outcome :=
  let log := logLines level (LogEvent.ofScan source)
  match Markup.tokenize source with
  | .error e => ⟨1, "", joinLines (log ++ [(Diagnostic.ofError source (.scan e)).render path])⟩
  | .ok ts => ⟨0, joinLines [(Json.arr (ts.map Markup.Token.toJson)).pretty], joinLines log⟩

def check (path source : String) (level : LogLevel) : Outcome :=
  let events := LogEvent.ofParse source
  match diagnostics source with
  | [] => ⟨0, "", joinLines (logLines level events ++ ["OK: " ++ path])⟩
  | found =>
    ⟨1, joinLines (found.map (Diagnostic.render path)),
      joinLines (logLines level (events ++ [.checkFailed found.length]))⟩

/-- The outcome of a command on the text of its file. -/
def perform (i : Invocation) (level : LogLevel) (content : Except ReadFault String) : Outcome :=
  match content with
  | .error f => (Trouble.unreadable i.path f).outcome
  | .ok source =>
    match i.action with
    | .parse compact => parse compact i.path source level
    | .tokens => tokens i.path source level
    | .check => check i.path source level

/-- A run in the directory `files`. -/
def run (arguments : List String) (setting : Option String) (files : FileTree) : Outcome :=
  match start arguments setting with
  | .error o => o
  | .ok (i, level) => perform i level (files.read i.path)

end TemplateSyntax.Command
