import TapeLang.Text.Quoted

/-!
Paths in normal form.

A path is an anchor and a list of parts.  Reading one drops empty parts and single dots, so that
repeated and trailing slashes leave no trace; two dots stay, since they mean what the file system
says.  Exactly two leading slashes are an anchor of their own, and the empty path is written as a
dot.
-/

namespace TapeLang.File

/-- Where a path starts. -/
inductive Anchor where
  /-- In the current directory. -/
  | relative
  /-- At the root. -/
  | root
  /-- At the root, written with two slashes. -/
  | doubleRoot
  deriving DecidableEq, Repr

/-- How an anchor is written. -/
def Anchor.render : Anchor → String
  | relative => ""
  | root => "/"
  | doubleRoot => "//"

/-- A path in normal form. -/
structure Path where
  anchor : Anchor
  parts : List String
  deriving DecidableEq, Repr

/-- The parts of a text between its slashes. -/
def splitSlashes (text : String) : List String :=
  (text.toList.splitOnP (· == '/')).map String.ofList

namespace Path

/-- The anchor of a text. -/
def anchorOf (text : String) : Anchor :=
  match text.toList.takeWhile (· == '/') with
  | [] => .relative
  | [_, _] => .doubleRoot
  | _ => .root

/-- A part that says nothing. -/
def isVoid (part : String) : Bool := part == "" || part == "."

/-- The parts of a text that say something. -/
def partsOf (text : String) : List String := (splitSlashes text).filter fun part => !isVoid part

/-- Read a path. -/
def ofString (text : String) : Path := ⟨anchorOf text, partsOf text⟩

/-- Write a path. -/
def render (p : Path) : String :=
  match p.anchor, p.parts with
  | .relative, [] => "."
  | a, parts => a.render ++ String.intercalate "/" parts

/-- The last part, empty if there is none. -/
def name (p : Path) : String := p.parts.getLast?.getD ""

/-- The path followed by a name, which may be void. -/
def child (p : Path) (name : String) : Path :=
  ⟨p.anchor, p.parts ++ [name].filter fun part => !isVoid part⟩

/-- The path with another last part; a path without parts has none to replace. -/
def withName? (p : Path) (name : String) : Option Path :=
  if p.parts.isEmpty then none else some ⟨p.anchor, p.parts.dropLast ++ [name]⟩

end Path

/-- A name split at its last dot: stem and suffix.  The dot belongs to the suffix, and a dot at
either end of the name is not one that splits. -/
def splitName (name : String) : String × String :=
  let cs := name.toList
  let tail := (cs.reverse.takeWhile (· != '.')).reverse
  let head := cs.take (cs.length - tail.length - 1)
  if tail.length < cs.length && !head.isEmpty && !tail.isEmpty then
    (String.ofList head, String.ofList ('.' :: tail))
  else (name, "")

end TapeLang.File
