import TapeLang.Build.Tool
import TapeLang.Build.Output

/-!
Building artifacts from assembly text.

The text is written into a temporary directory; from there it is copied out, assembled, copied out
as an object file and linked, in this order and as far as the requested kinds ask for it.  The
first step that fails ends the build.  Whatever happens, the temporary directory is gone
afterwards.
-/

namespace TapeLang.Build

open File (Tree Location Path FileError)

/-- What can be built. -/
inductive OutputKind where
  | assembly
  | object
  | executable
  deriving DecidableEq, Repr

/-- The surroundings of a build. -/
structure Environment where
  tools : Toolbox
  /-- The current directory. -/
  cwd : Location
  /-- The temporary directory of the build. -/
  temp : Location

/-- Why a build ends early. -/
inductive BuildError where
  | command (e : CommandError)
  | file (e : FileError)
  /-- The output has no name to which a suffix could be added. -/
  | emptyName (p : Path)
  deriving DecidableEq, Repr

/-- The error in words. -/
def BuildError.message : BuildError → String
  | command e => e.message
  | file e => e.message
  | emptyName p => "PosixPath(" ++ Text.quoted p.render ++ ") has an empty name"

/-- What a build has done so far. -/
structure Progress where
  tree : Tree
  /-- The commands that were run, those that could not be started included. -/
  commands : Array (List String)
  log : Array LogEntry
  /-- The artifacts produced. -/
  produced : Array Path

/-- A step of a build: what it has done is kept if it fails. -/
abbrev BuildM := ExceptT BuildError (StateM Progress)

/-- The place of a file in the temporary directory. -/
def Environment.tempFile (env : Environment) (name : String) : Location := env.temp ++ [name]

/-- Put something on record. -/
def record (message : String) : BuildM Unit :=
  modify fun s => { s with log := s.log.push ⟨.debug, .building, message⟩ }

/-- Run a command. -/
def command (env : Environment) (args : List String) : BuildM Unit := do
  modify fun s => { s with log := s.log.push (commandLog args), commands := s.commands.push args }
  let s ← get
  let (tree, result) := runCommand env.tools env.cwd s.tree args
  set { s with tree }
  match result with
  | .ok () => pure ()
  | .error e => throw (.command e)

/-- Copy a file out of the temporary directory, next to the output and with a suffix added. -/
def copyOut (env : Environment) (name suffix : String) (output : Path) : BuildM Unit := do
  match output.withName? (output.name ++ suffix) with
  | none => throw (.emptyName output)
  | some target =>
    let source := (env.tempFile name).path.render
    record ("Copying '" ++ source ++ "' to '" ++ target.render ++ "'")
    let s ← get
    match (s.tree.read env.cwd source).bind (s.tree.write env.cwd target.render) with
    | .error e => throw (.file e)
    | .ok tree => set { s with tree, produced := s.produced.push target }

/-- The name of the assembly text in the temporary directory. -/
def assemblyName : String := "program.s"

/-- The name of the object file in the temporary directory. -/
def objectName : String := "program.o"

/-- The steps of a build, in a temporary directory that exists. -/
def steps (env : Environment) (assembly : String) (output : Path) (kinds : List OutputKind) :
    BuildM Unit := do
  let source := env.tempFile assemblyName
  let object := (env.tempFile objectName).path.render
  record ("Creating '" ++ source.path.render ++ "'")
  modify fun s => { s with tree := s.tree.put source (.file assembly.toUTF8) }
  if kinds.contains .assembly then
    copyOut env assemblyName ".s" output
  if kinds.contains .object || kinds.contains .executable then
    command env ["as", source.path.render, "-o", object]
    if kinds.contains .object then
      copyOut env objectName ".o" output
    if kinds.contains .executable then
      command env ["ld", object, "-o", output.render]
      modify fun s => { s with produced := s.produced.push output }
  record ("Removing '" ++ env.temp.path.render ++ "'")

/-- What a build did, and the artifacts it produced unless it failed. -/
structure Report where
  tree : Tree
  commands : List (List String)
  log : List LogEntry
  result : Except BuildError (List Path)

/-- Build the requested kinds of output from an assembly text. -/
def build (env : Environment) (tree : Tree) (assembly : String) (output : Path)
    (kinds : List OutputKind) : Report :=
  let start : Progress := ⟨tree.makeDirectories env.temp, #[], #[], #[]⟩
  let (result, s) := (steps env assembly output kinds).run.run start
  ⟨s.tree.removeAll env.temp, s.commands.toList, s.log.toList,
    result.map fun _ => s.produced.toList⟩

end TapeLang.Build
