import TapeLang.File.Tree
import TapeLang.Log

/-!
External tools.

A toolbox says of every command name what starting it leads to: it cannot be started, or it exits
with a status.  A tool that is asked for output by `-o` and exits with status zero has written the
file named by its last argument; if that file cannot be written its status is one.  Any other tool
leaves the files alone.  What a tool writes is its own affair, and a tool that has nothing of its
own to write leaves its mark.
-/

namespace TapeLang.Build

open File (Path Tree Location)

/-- Why a tool cannot be started. -/
inductive StartFailure where
  | missing
  | denied
  deriving DecidableEq, Repr

/-- What starting a tool leads to. -/
inductive Behaviour where
  | cannotStart (f : StartFailure)
  /-- It exits with a status; `product` is what it writes then, if that is not its mark. -/
  | exits (status : Int) (product : Option ByteArray := none)

/-- The tools there are, by name. -/
abbrev Toolbox := String → Behaviour

/-- Why a command did not do its work. -/
inductive CommandError where
  | cannotStart (args : List String) (f : StartFailure)
  | badStatus (args : List String) (status : Int)
  /-- The name of its output holds a zero character. -/
  | zeroCharacter
  /-- It names no tool. -/
  | nameless
  deriving DecidableEq, Repr

/-- A command as it is shown. -/
def commandText (args : List String) : String := String.intercalate " " args

/-- The name of the tool that a command starts. -/
def toolName (args : List String) : String := args.head?.getD ""

/-- The error in words. -/
def CommandError.message : CommandError → String
  | cannotStart args f =>
    let reason := match f with
      | .missing => "[Errno 2] No such file or directory"
      | .denied => "[Errno 13] Permission denied"
    "unable to execute '" ++ commandText args ++ "': " ++ reason ++ ": " ++
      Text.quoted (toolName args)
  | badStatus args status =>
    toolName args ++ ": '" ++ commandText args ++ "' exited with status " ++ toString status
  | zeroCharacter => "embedded null byte"
  | nameless => "list index out of range"

/-- The mark of a tool. -/
def toolMark (name : String) : ByteArray := ("made by " ++ name ++ "\n").toUTF8

/-- Run a tool that writes `content` and exits with status zero if all goes well: the files then,
and its status.  The name of its output is taken as a path in normal form. -/
def runTool (cwd : Location) (tree : Tree) (args : List String) (content : ByteArray) :
    Tree × Except CommandError Int :=
  if args.contains "-o" then
    let output := (Path.ofString (args.getLast?.getD "")).render
    match tree.write cwd output content with
    | .ok tree => (tree, .ok 0)
    | .error e => (tree, if e.fault = .zeroCharacter then .error .zeroCharacter else .ok 1)
  else (tree, .ok 0)

/-- Start the tool that a command names: the files then, and its exit status. -/
def startTool (tools : Toolbox) (cwd : Location) (tree : Tree) (args : List String) :
    Tree × Except CommandError Int :=
  if args.isEmpty then (tree, .error .nameless)
  else
    match tools (toolName args) with
    | .cannotStart f => (tree, .error (.cannotStart args f))
    | .exits status product =>
      if status = 0 then runTool cwd tree args (product.getD (toolMark (toolName args)))
      else (tree, .ok status)

/-- Run a command, which must exit with status zero. -/
def runCommand (tools : Toolbox) (cwd : Location) (tree : Tree) (args : List String) :
    Tree × Except CommandError Unit :=
  match startTool tools cwd tree args with
  | (tree, .error e) => (tree, .error e)
  | (tree, .ok status) =>
    (tree, if status = 0 then .ok () else .error (.badStatus args status))

/-- A command is put on record before it is run. -/
def commandLog (args : List String) : LogEntry :=
  ⟨.debug, .building, "Executing '" ++ commandText args ++ "'"⟩

end TapeLang.Build
