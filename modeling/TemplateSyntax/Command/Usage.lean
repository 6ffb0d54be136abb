import TemplateSyntax.Command.Arguments

/-!
# Help

The texts that a user gets who asks for help, or whose command line is at fault.
-/

namespace TemplateSyntax.Command

def joinLines (lines : List String) : String :=
  lines.foldr (fun line text => line ++ "\n" ++ text) ""

def versionText : String := joinLines ["ftl 0.3.0"]

def Action.summary : Action → String
  | .parse _ => "Print the syntax tree and structural errors as JSON"
  | .tokens => "Print the markup token stream as JSON"
  | .check => "Report every error as `path:line:col: message`"

def Action.usage (a : Action) : String :=
  "Usage: ftl " ++ a.name ++ " [OPTIONS] <PATH>"

def usage : String := "Usage: ftl [OPTIONS] <COMMAND>"

def levelHelp : String :=
  "      --log-level <LOG_LEVEL>  Log level (trace, debug, info, warn, error). Overrides FTL_LOG_LEVEL"

def helpHelp : String :=
  "  -h, --help                   Print help"

def Action.help (a : Action) : List String :=
  [a.summary, "", a.usage, "", "Arguments:", "  <PATH>  Input template", "", "Options:"] ++
    (match a with
      | .parse _ => ["      --compact                Single-line JSON instead of pretty-printed"]
      | _ => []) ++
    [levelHelp, helpHelp]

/-- Help on one command, or on all of them. -/
def helpText : Option Action → String
  | some a => joinLines a.help
  | none =>
    joinLines ["Inspect and check FreeMarker templates", "", usage, "", "Commands:",
      "  parse   " ++ (Action.parse false).summary,
      "  tokens  " ++ Action.tokens.summary,
      "  check   " ++ Action.check.summary,
      "  help    Print this message or the help of the given subcommand(s)", "", "Options:", levelHelp, helpHelp,
      "  -V, --version                Print version"]

def UsageFault.message : UsageFault → String
  | .unknownCommand name => "unrecognized subcommand '" ++ name ++ "'"
  | .missingCommand => "'ftl' requires a subcommand but one was not provided"
  | .unexpected argument => "unexpected argument '" ++ argument ++ "' found"
  | .missingPath => "the following required arguments were not provided:\n  <PATH>"
  | .emptyPath => "a value is required for '<PATH>' but none was supplied"
  | .missingLevel => "a value is required for '--log-level <LOG_LEVEL>' but none was supplied"
  | .unknownLevel text =>
    "invalid value '" ++ text ++ "' for '--log-level <LOG_LEVEL>': invalid configuration: " ++
      LogLevel.unknownMessage text
  | .repeated option => "the argument '" ++ option ++ "' cannot be used multiple times"

def UsageFault.text (f : UsageFault) : String :=
  joinLines ["error: " ++ f.message, "", usage, "", "For more information, try '--help'."]

end TemplateSyntax.Command
