import TemplateSyntax.Report.LogLevel

/-!
# Command-line arguments

A command line names a command and the template it works on. The log level may be given before or after the command,
once at each place, and the later one counts; after `--` every argument is a path, even if it starts with a dash. The
arguments are judged from left to right, so of two faults the first is told, and a request for help wins over what
comes after it.
-/

namespace TemplateSyntax.Command

inductive Action where
  /-- Print the tree, on one line if `compact`. -/
  | parse (compact : Bool)
  | tokens
  | check
deriving DecidableEq, Inhabited

structure Invocation where
  action : Action
  path : String
  level : Option LogLevel
deriving DecidableEq, Inhabited

inductive UsageFault where
  | unknownCommand (name : String)
  | missingCommand
  | unexpected (argument : String)
  | missingPath
  | emptyPath
  | missingLevel
  | unknownLevel (text : String)
  | repeated (option : String)
deriving DecidableEq, Inhabited

/-- What is done in place of a command. -/
inductive Detour where
  /-- Help is asked for, on the whole or on one command. -/
  | help (topic : Option Action)
  | version
  /-- Nothing is asked for. -/
  | nothing
  | fault (f : UsageFault)
deriving DecidableEq, Inhabited

def Action.name : Action → String
  | .parse _ => "parse"
  | .tokens => "tokens"
  | .check => "check"

def Action.ofName? (name : String) : Option Action :=
  [.parse false, .tokens, .check].find? fun a => a.name == name

/-! ### Single arguments -/

/-- An argument by its form. -/
inductive Argument where
  | plain (text : String)
  /-- The option for the log level, with the text of the level, if there is one. -/
  | level (text : Option String)
  | compact
  | help
  | version
  | terminator
  /-- Anything else that starts with a dash. -/
  | unknown (text : String)
deriving DecidableEq, Inhabited

def levelOption : String := "--log-level"

/-- A dash with something after it. -/
def startsOption (text : String) : Bool :=
  match text.toList with
  | '-' :: _ :: _ => true
  | _ => false

/-- The form of an argument that stands by itself. Short options may be joined, and the first one decides. -/
def Argument.ofString (text : String) : Argument :=
  match (levelOption ++ "=").toList.isPrefixOf? text.toList with
  | some value => .level (some (String.ofList value))
  | none =>
    match text with
    | "--compact" => .compact
    | "--help" => .help
    | "--version" => .version
    | "--" => .terminator
    | _ =>
      match text.toList with
      | '-' :: 'h' :: _ => .help
      | '-' :: 'V' :: _ => .version
      | '-' :: _ :: _ => .unknown text
      | _ => .plain text

/-- The forms of a list of arguments. The option for the log level takes the next argument with it. -/
def Argument.ofStrings : List String → List Argument
  | [] => []
  | "--" :: rest => .terminator :: rest.map .plain
  | "--log-level" :: value :: rest =>
    if startsOption value then .level none :: ofStrings (value :: rest) else .level (some value) :: ofStrings rest
  | "--log-level" :: [] => [.level none]
  | text :: rest => ofString text :: ofStrings rest

/-- The argument as a message quotes it. -/
def Argument.text : Argument → String
  | .plain text => text
  | .level _ => levelOption
  | .compact => "--compact"
  | .help => "--help"
  | .version => "--version"
  | .terminator => "--"
  | .unknown text => text

/-! ### Reading a command line -/

/-- The level that an option gives, in a place where `given` is the level so far. -/
def readLevel (given : Option LogLevel) (text : Option String) : Except Detour LogLevel :=
  match text, given with
  | none, _ => .error (.fault .missingLevel)
  | some _, some _ => .error (.fault (.repeated levelOption))
  | some text, none =>
    match LogLevel.ofString? text with
    | some l => .ok l
    | none => .error (.fault (.unknownLevel text))

/-- The arguments after the command. -/
def readCommand (action : Action) (path : Option String) (level : Option LogLevel) :
    List Argument → Except Detour Invocation
  | [] =>
    match path with
    | some path => .ok ⟨action, path, level⟩
    | none => .error (.fault .missingPath)
  | .plain text :: rest =>
    if path.isSome then .error (.fault (.unexpected text))
    else if text.isEmpty then .error (.fault .emptyPath)
    else readCommand action (some text) level rest
  | .level text :: rest =>
    match readLevel level text with
    | .ok l => readCommand action path (some l) rest
    | .error d => .error d
  | .compact :: rest =>
    match action with
    | .parse false => readCommand (.parse true) path level rest
    | .parse true => .error (.fault (.repeated "--compact"))
    | _ => .error (.fault (.unexpected "--compact"))
  | .help :: _ => .error (.help (some action))
  | .terminator :: rest => readCommand action path level rest
  | argument :: _ => .error (.fault (.unexpected argument.text))

/-- The arguments after the word `help`. -/
def readTopic : List Argument → Detour
  | [] => .help none
  | [topic] =>
    match Action.ofName? topic.text with
    | some action => .help (some action)
    | none => .fault (.unknownCommand topic.text)
  | _ :: extra :: _ => .fault (.unknownCommand extra.text)

/-- The arguments from the first one on. -/
def readLine (level : Option LogLevel) : List Argument → Except Detour Invocation
  | [] => .error (if level.isSome then .fault .missingCommand else .nothing)
  | .plain "help" :: rest => .error (readTopic rest)
  | .plain text :: rest =>
    match Action.ofName? text with
    | some action =>
      (readCommand action none none rest).map fun i => { i with level := i.level.or level }
    | none => .error (.fault (.unknownCommand text))
  | .level text :: rest =>
    match readLevel level text with
    | .ok l => readLine (some l) rest
    | .error d => .error d
  | .help :: _ => .error (.help none)
  | .version :: _ => .error .version
  | .terminator :: [] => readLine level []
  | .terminator :: extra :: _ => .error (.fault (.unexpected extra.text))
  | argument :: _ => .error (.fault (.unexpected argument.text))

/-- What a command line asks for. -/
def Invocation.ofStrings (arguments : List String) : Except Detour Invocation :=
  readLine none (Argument.ofStrings arguments)

end TemplateSyntax.Command
