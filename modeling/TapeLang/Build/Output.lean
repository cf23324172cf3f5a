import TapeLang.File.Path

/-!
Where the results of a compilation go.

An output that was asked for is taken as it is, if it is for one source only.  Otherwise the output
is named like the source without its suffix, and lies in the current directory.
-/

namespace TapeLang.Build

open File (Path)

/-- The suffix of a source file. -/
def sourceSuffix : String := ".bf"

/-- What is said of a source file with another suffix. -/
def wrongSuffixMessage : String :=
  "this file does not have " ++ sourceSuffix ++ " extension; only " ++ sourceSuffix ++
    " source files are accepted"

/-- The output of a source; none if it is to be named like the source and that has another
suffix. -/
def outputPath? (cwd : Path) (source : String) (output : Option String) (multiple : Bool) :
    Option Path :=
  match output, multiple with
  | some o, false => if o = "" then derived else some (.ofString o)
  | _, _ => derived
where
  derived : Option Path :=
    let (stem, suffix) := File.splitName (Path.ofString source).name
    if suffix = sourceSuffix then some (cwd.child stem) else none

end TapeLang.Build
