import TapeLang.Command.Invocation

/-!
The compiler as a program.

The files that the command line names are read into a tree, the invocation is computed on it, and
what it wrote is carried out.  No other program is started from here: the assembler and the linker
count as missing, so that listings are written and programs run, and nothing is assembled.
-/

namespace TapeLang.Main

open File (Location Tree Path)

/-- More steps than a program without a budget will take. -/
def fuel : Nat := 1000000000000000000

/-- The tree with directories on the way to a path, and the location the path leads to. -/
def reach (cwd : Location) (tree : Tree) (text : String) : Tree × Location :=
  (Path.ofString text).parts.foldl
    (fun (tree, l) part =>
      if part = ".." then (tree, l.dropLast) else (tree.makeDirectories l, l ++ [part]))
    (tree, Tree.origin cwd text)

/-- The tree with a file at a path. -/
def withFile (cwd : Location) (tree : Tree) (text : String) (content : ByteArray) : Tree :=
  let (tree, l) := reach cwd tree text
  tree.put l (.file content)

/-- The tree with a directory at a path. -/
def withDirectory (cwd : Location) (tree : Tree) (text : String) : Tree :=
  let (tree, l) := reach cwd tree text
  tree.makeDirectories l

/-- The files of a tree that another tree does not hold. -/
def newFiles (before after : Tree) : List (Location × ByteArray) :=
  after.entries.filterMap fun (l, e) =>
    match e, before.get? l with
    | .file c, some (.file b) => if b.data == c.data then none else some (l, c)
    | .file c, _ => some (l, c)
    | .directory, _ => none

/-- Read the files and directories that settings name. -/
def gather (cwd : Location) (s : Command.Settings) : IO Tree := do
  let here ← IO.currentDir
  let mut tree := Tree.empty.makeDirectories cwd
  for source in s.sources do
    if ← (here / source).isDir then
      tree := withDirectory cwd tree source
    else if ← (here / source).pathExists then
      tree := withFile cwd tree source (← IO.FS.readBinFile (here / source))
  for output in s.output.toList do
    let above : String :=
      ({ Path.ofString output with parts := (Path.ofString output).parts.dropLast }).render
    if ← (here / above).isDir then
      tree := withDirectory cwd tree above
  return tree

end TapeLang.Main

open TapeLang in
def main (arguments : List String) : IO UInt32 := do
  let cwd := (File.Path.ofString (← IO.currentDir).toString).parts
  let env : Build.Environment := ⟨fun _ => .cannotStart .missing, cwd, cwd ++ [".listing"]⟩
  let tree ← match Command.parse arguments with
    | .proceed s => Main.gather cwd s
    | _ => pure File.Tree.empty
  let report := Command.invoke env Main.fuel tree arguments
  IO.print report.stdout
  IO.eprint report.stderr
  for (l, content) in Main.newFiles tree report.tree do
    IO.FS.writeBinFile l.path.render content
  match report.exit with
  | .ok status => return status.toNat.toUInt32
  | .error gap =>
    IO.eprintln gap.message
    return 1
