import TapeLang.Command.Option
import TapeLang.Text.Integer
import TapeLang.TapeSize

/-!
The options of the compiler, and what they say.
-/

namespace TapeLang.Command

/-- What an option of the compiler is about. -/
inductive Key where
  | help
  | output
  | verbose
  | assembly
  | object
  | tapeSize
  | run
  | input
  | maxSteps
  deriving DecidableEq, Repr

/-- The command line of the compiler. -/
def grammar : Grammar Key where
  options :=
    [⟨.help, ["-h", "--help"], false⟩,
     ⟨.output, ["-o"], true⟩,
     ⟨.verbose, ["-v"], false⟩,
     ⟨.assembly, ["-S"], false⟩,
     ⟨.object, ["-c"], false⟩,
     ⟨.tapeSize, ["-s"], true⟩,
     ⟨.run, ["--run"], false⟩,
     ⟨.input, ["--input"], true⟩,
     ⟨.maxSteps, ["--max-steps"], true⟩]
  operands := true

/-- What an option with a value is set to: two dashes in place of the value leave it void. -/
inductive Given (α : Type) where
  | value (a : α)
  | void
  deriving DecidableEq, Repr

/-- The settings of one invocation. -/
structure Settings where
  sources : List String
  output : Option String
  verbose : Bool
  assembly : Bool
  object : Bool
  tapeSize : Given Int
  run : Bool
  input : String
  /-- The step budget, if one is set. -/
  maxSteps : Option (Given Int)
  deriving DecidableEq, Repr

/-- The settings of an invocation without arguments. -/
def Settings.default : Settings :=
  ⟨[], none, false, false, false, .value defaultTapeSize, false, "", none⟩

/-- What a command line asks for: help, or something with settings; or what is wrong with it. -/
inductive Request (σ : Type) where
  | help
  | invalid (e : OptionError)
  | proceed (settings : σ)
  deriving Repr

/-- The value of an option that takes text. -/
def textValue : Option String → Given String
  | some s => .value s
  | none => .void

/-- The value of an option that takes an integer. -/
def integerValue {κ : Type} (spec : OptionSpec κ) : Option String → Except OptionError (Given Int)
  | none => .ok .void
  | some s =>
    match Text.readInt? s with
    | some n => .ok (.value n)
    | none => .error (.invalidInteger spec.names s)

/-- What a reading asks for, where `apply` changes the settings by one option, or asks for help
by returning none. -/
def Reading.request {κ σ : Type} (r : Reading κ) (initial : σ)
    (apply : σ → Setting κ → Except OptionError (Option σ)) : Request σ :=
  go r.settings.toList initial
where
  go : List (Setting κ) → σ → Request σ
    | [], settings =>
      match r.ending with
      | .error e => .invalid e
      | .ok [] => .proceed settings
      | .ok extras => .invalid (.unrecognized extras)
    | s :: rest, settings =>
      match apply settings s with
      | .error e => .invalid e
      | .ok none => .help
      | .ok (some settings) => go rest settings

/-- Change the settings by one option; of an option given twice the last one counts. -/
def Settings.apply (s : Settings) : Setting Key → Except OptionError (Option Settings)
  | .operands arguments => .ok (some { s with sources := arguments })
  | .option spec value =>
    match spec.key with
    | .help => .ok none
    | .output => .ok (some { s with output := value })
    | .verbose => .ok (some { s with verbose := true })
    | .assembly => .ok (some { s with assembly := true })
    | .object => .ok (some { s with object := true })
    | .tapeSize => do return some { s with tapeSize := ← integerValue spec value }
    | .run => .ok (some { s with run := true })
    | .input => .ok (some { s with input := value.getD "" })
    | .maxSteps => do return some { s with maxSteps := some (← integerValue spec value) }

/-- What a command line of the compiler asks for. -/
def parse (arguments : List String) : Request Settings :=
  (grammar.read arguments).request .default Settings.apply

/-- How the compiler is called. -/
def usage : String :=
  "usage: bfasm [-h] [-o OUTPUT] [-v] [-S] [-c] [-s TAPE_SIZE] [--run]\n" ++
  "             [--input INPUT] [--max-steps MAX_STEPS]\n" ++
  "             [sources ...]\n"

/-- All about how the compiler is called. -/
def help : String :=
  usage ++ "\n" ++
  "Compile tape-language programs to x86-64 Linux executables\n\n" ++
  "positional arguments:\n" ++
  "  sources               Source files with .bf extension\n\n" ++
  "options:\n" ++
  "  -h, --help            show this help message and exit\n" ++
  "  -o OUTPUT             Name of the output file (source name without .bf by\n" ++
  "                        default); ignored when more than one source file is\n" ++
  "                        given\n" ++
  "  -v                    Enable verbose output\n" ++
  "  -S                    Generate .s files with the GNU assembly translation\n" ++
  "  -c                    Generate object files\n" ++
  "  -s TAPE_SIZE          Size of the tape in bytes (default: 30720)\n" ++
  "  --run                 Execute the program with the reference interpreter\n" ++
  "                        instead of building it\n" ++
  "  --input INPUT         Input string supplied to the program with --run\n" ++
  "  --max-steps MAX_STEPS\n" ++
  "                        Step budget for --run\n"

end TapeLang.Command
