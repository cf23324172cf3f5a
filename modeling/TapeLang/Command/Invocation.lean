import TapeLang.Assembly.Listing
import TapeLang.Build.Artifact
import TapeLang.Command.Settings
import TapeLang.Execution
import TapeLang.File.Stream

/-!
One invocation of the compiler.

The sources are processed one after the other, each on the files that the one before left, and a
source that fails does not keep the others from being processed.  A compiled source is read while
its code is generated; a source that is run is read as a whole first.  What a source has to say is
collected as notices, of which the details are shown only if asked for.
-/

namespace TapeLang.Command

open File (Tree Location Path FileError)
open Build (Environment OutputKind BuildError)

/-- Something shown to the user: a record or the report of a failure. -/
inductive Notice where
  | log (e : LogEntry)
  | error (text : String)
  deriving DecidableEq, Repr

/-- The lines that notices appear as; details only in a verbose invocation. -/
def Notice.lines (verbose : Bool) : Notice → List String
  | log e => if verbose || e.level = .info then [e.message] else []
  | error text => [text]

/-- Why a source fails. -/
inductive SourceFailure where
  /-- Its name has another suffix. -/
  | wrongSuffix
  /-- There is no file to run. -/
  | absent
  | file (e : FileError)
  | decoding (e : Text.DecodeError)
  | invalid (e : SourceError)
  | building (e : BuildError)
  | stepLimit
  /-- A move or an access on a tape without cells. -/
  | emptyTape
  /-- It has no step budget and did not end within the fuel of the invocation. -/
  | unsettled
  deriving DecidableEq, Repr

/-- A setting that is needed and void, which ends the invocation. -/
inductive Gap where
  | tapeSize
  | maxSteps
  deriving DecidableEq, Repr

/-- A gap in words. -/
def Gap.message : Gap → String
  | tapeSize => "'<' not supported between instances of 'list' and 'int'"
  | maxSteps => "'>=' not supported between instances of 'int' and 'list'"

/-- How a source or a whole invocation ends. -/
inductive Ending where
  | success
  | failure
  | gap (g : Gap)
  deriving DecidableEq, Repr

/-- The report of a failure: where in the source it lies or which source it is, unless the message
says so itself. -/
def SourceFailure.report (path : String) : SourceFailure → String
  | invalid e =>
    path ++ ":" ++ toString e.position.line ++ ":" ++ toString e.position.column ++ ": error: " ++
      e.message
  | absent => "Source file not found: " ++ path
  | file e => ofFile e
  | building (.file e) => ofFile e
  | building e => path ++ ": error: " ++ e.message
  | wrongSuffix => path ++ ": error: " ++ Build.wrongSuffixMessage
  | decoding e => path ++ ": error: " ++ e.message
  | stepLimit => path ++ ": error: " ++ stepLimitMessage
  | emptyTape => path ++ ": error: integer modulo by zero"
  | unsettled => path ++ ": error: program did not end"
where
  ofFile (e : FileError) : String :=
    if e.fault = .notFound then e.message else path ++ ": error: " ++ e.message

/-- What became of one source. -/
structure Outcome where
  tree : Tree
  commands : List (List String)
  notices : List Notice
  /-- The bytes that the program wrote. -/
  output : Array UInt8
  ending : Ending

/-- A detail of an invocation. -/
def detail (message : String) : Notice := .log ⟨.debug, .command, message⟩

/-- The notice at the end of a source that did not fail. -/
def completed (path : String) : Notice := detail ("Compilation of '" ++ path ++ "' completed")

/-- The kinds of output that were asked for. -/
def Settings.kinds (s : Settings) : List OutputKind :=
  match s.assembly, s.object with
  | false, false => [.executable]
  | a, o => (if a then [.assembly] else []) ++ (if o then [.object] else [])

/-- The outcome of a source that fails before anything was built. -/
def Outcome.failure (tree : Tree) (path : String) (notices : List Notice) (f : SourceFailure) :
    Outcome :=
  ⟨tree, [], notices ++ [.error (f.report path)], #[], .failure⟩

/-- Compile one source. -/
def compileSource (env : Environment) (s : Settings) (tape : TapeConfig) (multiple : Bool)
    (tree : Tree) (path : String) : Outcome :=
  match Build.outputPath? env.cwd.path path s.output multiple with
  | none => .failure tree path [] .wrongSuffix
  | some output =>
    let opening := [detail ("Opening '" ++ path ++ "'")]
    match tree.read env.cwd path with
    | .error e => .failure tree path opening (.file e)
    | .ok content =>
      let l := Assembly.Listing.ofSource tape.size (File.stream content)
      match l.result with
      | .error (.interrupted (.invalid e)) => .failure tree path opening (.invalid e)
      | .error (.interrupted (.failed e)) => .failure tree path opening (.decoding e)
      | .error .emptyTape => .failure tree path opening .emptyTape
      | .ok _ =>
        let generated := opening ++ l.log.map .log ++
          [detail ("Parsing '" ++ path ++ "' and generating assembly completed")]
        let built := Build.build env tree l.text output s.kinds
        let notices := generated ++ built.log.map .log
        match built.result with
        | .error e =>
          ⟨built.tree, built.commands, notices ++ [.error ((SourceFailure.building e).report path)],
            #[], .failure⟩
        | .ok artifacts =>
          let wrote := artifacts.map fun a => detail ("Wrote '" ++ a.render ++ "'")
          ⟨built.tree, built.commands, notices ++ wrote ++ [completed path], #[], .success⟩

/-- The text of a source that is to be run.  It is found by its path in normal form. -/
def readSource (cwd : Location) (tree : Tree) (path : String) : Except SourceFailure String :=
  let normal := (Path.ofString path).render
  match tree.resolve cwd normal with
  | .error .nameTooLong => .error (.file ⟨.nameTooLong, normal⟩)
  | .error _ => .error .absent
  | .ok _ =>
    match tree.read cwd normal with
    | .error e => .error (.file e)
    | .ok content =>
      match Text.decodeAll content with
      | .error e => .error (.decoding e)
      | .ok text => .ok text

/-- The input of a program: every character stands for the byte it is congruent to. -/
def inputBytes (input : String) : List Int :=
  input.toList.map fun c => ((c.toNat % 256 : Nat) : Int)

/-- The step budget of an execution.  A void one does for a program without instructions, and no
other. -/
def Settings.budget (s : Settings) : Option Int :=
  s.maxSteps.map fun
    | .value n => n
    | .void => 0

/-- Execute one source. -/
def runSource (cwd : Location) (s : Settings) (tape : TapeConfig) (fuel : Nat) (tree : Tree)
    (path : String) : Outcome :=
  match readSource cwd tree path with
  | .error f => .failure tree path [] f
  | .ok text =>
    let source : Source Empty := .ofString text
    let e := execute tape.size.toNat source (inputBytes s.input) s.budget fuel
    match e.result with
    | .error (.interrupted (.invalid err)) => .failure tree path [] (.invalid err)
    | .error .stepLimit =>
      if s.maxSteps = some .void then ⟨tree, [], [], #[], .gap .maxSteps⟩
      else .failure tree path [] .stepLimit
    | .error (.fault _) => .failure tree path [] .emptyTape
    | .error .unsettled => .failure tree path [] .unsettled
    | .ok _ => ⟨tree, [], [completed path], e.machine.output, .success⟩

/-- What an invocation leaves behind. -/
structure Report where
  /-- The exit status, unless the invocation broke off. -/
  exit : Except Gap Int
  stdout : String
  stderr : String
  tree : Tree
  commands : List (List String)

/-- The outcomes of sources that are processed one after the other, up to a gap. -/
def processAll (process : Tree → String → Outcome) (tree : Tree) : List String → List Outcome
  | [] => []
  | path :: rest =>
    let o := process tree path
    match o.ending with
    | .gap _ => [o]
    | _ => o :: processAll process o.tree rest

/-- The exit status of an invocation: zero if no source failed. -/
def exitStatus (outcomes : List Outcome) : Except Gap Int :=
  outcomes.foldlM (fun status o =>
    match o.ending with
    | .success => .ok status
    | .failure => .ok 1
    | .gap g => .error g) 0

/-- Lines as text. -/
def textOfLines (lines : List String) : String := lines.foldl (fun s l => s ++ l ++ "\n") ""

/-- Process the sources of an invocation on a tape of the requested size. -/
def Settings.process (s : Settings) (requested : Int) (env : Environment) (fuel : Nat)
    (tree : Tree) : Report :=
  let tape := TapeConfig.ofRequested requested
  let start := tape.log.map Notice.log
  if s.run && maxRunTapeSize < tape.size then
    let refusal := Notice.error ("error: --run supports tapes of at most " ++
      toString maxRunTapeSize ++ " bytes, got " ++ toString tape.size)
    ⟨.ok 1, "", textOfLines ((start ++ [refusal]).flatMap (·.lines s.verbose)), tree, []⟩
  else
    let each := if s.run then runSource env.cwd s tape fuel
      else compileSource env s tape (1 < s.sources.length)
    let outcomes := processAll each tree s.sources
    { exit := exitStatus outcomes
      stdout := outcomes.foldl (fun out o => out ++ textOfBytes o.output) ""
      stderr := textOfLines
        ((start ++ outcomes.flatMap (·.notices)).flatMap (·.lines s.verbose))
      tree := (outcomes.getLast?.map (·.tree)).getD tree
      commands := outcomes.flatMap (·.commands) }

/-- Call the compiler.  `fuel` bounds the steps of programs that run without a budget. -/
def invoke (env : Environment) (fuel : Nat) (tree : Tree) (arguments : List String) : Report :=
  match parse arguments with
  | .help => ⟨.ok 0, help, "", tree, []⟩
  | .invalid e => ⟨.ok 2, "", usage ++ "bfasm: error: " ++ e.message ++ "\n", tree, []⟩
  | .proceed s =>
    if s.sources.isEmpty then ⟨.ok 0, "Nothing to do. Try 'bfasm -h'\n", "", tree, []⟩
    else
      match s.tapeSize with
      | .value size => s.process size env fuel tree
      | .void => ⟨.error .tapeSize, "", "", tree, []⟩

end TapeLang.Command
