import TapeLang.Command.Settings
import TapeLang.Service.App

/-!
Starting the service from a command line.
-/

namespace TapeLang.Service

open Command (Given Grammar Setting OptionError)

/-- What an option of the service is about. -/
inductive Key where
  | help
  | host
  | portNumber
  | maxSteps
  | verbose
  deriving DecidableEq, Repr

/-- The command line of the service, which has no operands. -/
def grammar : Grammar Key where
  options :=
    [⟨.help, ["-h", "--help"], false⟩,
     ⟨.host, ["--host"], true⟩,
     ⟨.portNumber, ["--port"], true⟩,
     ⟨.maxSteps, ["--max-steps"], true⟩,
     ⟨.verbose, ["-v"], false⟩]
  operands := false

/-- How the service is to be run. -/
structure Settings where
  host : Given String
  portNumber : Given Int
  /-- The bound on step budgets, if one is set. -/
  maxSteps : Option (Given Int)
  verbose : Bool
  deriving DecidableEq, Repr

/-- The settings of a command line without arguments. -/
def Settings.default : Settings := ⟨.value "127.0.0.1", .value 8000, none, false⟩

/-- Change the settings by one option; of an option given twice the last one counts. -/
def Settings.apply (s : Settings) : Setting Key → Except OptionError (Option Settings)
  | .operands _ => .ok (some s)
  | .option spec value =>
    match spec.key with
    | .help => .ok none
    | .host => .ok (some { s with host := Command.textValue value })
    | .portNumber =>
      do return some { s with portNumber := ← Command.integerValue spec value }
    | .maxSteps => do return some { s with maxSteps := some (← Command.integerValue spec value) }
    | .verbose => .ok (some { s with verbose := true })

/-- The level from which the service puts things on record. -/
def Settings.level (s : Settings) : Level := if s.verbose then .debug else .info

/-- The service that the settings describe; a void bound is none. -/
def Settings.app (s : Settings) : App :=
  .create <| match s.maxSteps with
    | some (.value n) => some n
    | _ => none

/-- What a command line of the service asks for. -/
def parse (arguments : List String) : Command.Request Settings :=
  (grammar.read arguments).request .default Settings.apply

/-- How the service is called. -/
def usage : String :=
  "usage: __main__.py [-h] [--host HOST] [--port PORT] [--max-steps MAX_STEPS]\n" ++
  "                   [-v]\n"

/-- All about how the service is called. -/
def help : String :=
  usage ++ "\n" ++
  "Run the bfasm translation API server\n\n" ++
  "options:\n" ++
  "  -h, --help            show this help message and exit\n" ++
  "  --host HOST           Bind address (default: 127.0.0.1)\n" ++
  "  --port PORT           Port to listen on (default: 8000)\n" ++
  "  --max-steps MAX_STEPS\n" ++
  "                        Upper bound on interpreter steps for /api/run requests\n" ++
  "  -v                    Enable debug logging\n"

/-- What is said of a command line that is wrong. -/
def errorText (e : OptionError) : String := usage ++ "__main__.py: error: " ++ e.message ++ "\n"

end TapeLang.Service
