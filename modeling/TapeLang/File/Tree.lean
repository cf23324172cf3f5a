import TapeLang.File.Path

/-!
A file tree, and how paths lead through it.

A location is the list of names on the way from the root.  A path is followed part by part: each
part but the last must lead to a directory, dots stay where they are or go up, and a trailing slash
asks for a directory.  Every operation returns the tree it found unless it succeeds.
-/

namespace TapeLang.File

/-- The names on the way from the root. -/
abbrev Location := List String

/-- What a location holds. -/
inductive Entry where
  | directory
  | file (content : ByteArray)

/-- A file tree: what its locations hold.  The root is a directory and is not listed. -/
structure Tree where
  entries : List (Location × Entry)

/-- Why a path leads nowhere. -/
inductive Fault where
  | notFound
  | notDirectory
  | isDirectory
  | nameTooLong
  /-- The path contains a zero character, with which no path can be written. -/
  | zeroCharacter
  deriving DecidableEq, Repr

/-- A path that could not be used, and why. -/
structure FileError where
  fault : Fault
  path : String
  deriving DecidableEq, Repr

/-- The error in words. -/
def FileError.message (e : FileError) : String :=
  let numbered (n : Nat) (text : String) : String :=
    "[Errno " ++ toString n ++ "] " ++ text ++ ": " ++ Text.quoted e.path
  match e.fault with
  | .notFound => numbered 2 "No such file or directory"
  | .notDirectory => numbered 20 "Not a directory"
  | .isDirectory => numbered 21 "Is a directory"
  | .nameTooLong => numbered 36 "File name too long"
  | .zeroCharacter => "embedded null byte"

/-- The path of a location. -/
def Location.path (l : Location) : Path := ⟨.root, l⟩

namespace Tree

/-- Only the root. -/
def empty : Tree := ⟨[]⟩

/-- What a location holds. -/
def get? (t : Tree) (l : Location) : Option Entry :=
  if l = [] then some .directory else t.entries.lookup l

/-- Put something at a location, in place of what it held. -/
def put (t : Tree) (l : Location) (e : Entry) : Tree :=
  if t.entries.any (·.1 = l) then
    ⟨t.entries.map fun x => if x.1 = l then (l, e) else x⟩
  else ⟨t.entries ++ [(l, e)]⟩

/-- Take away a location and everything below it. -/
def removeAll (t : Tree) (l : Location) : Tree :=
  ⟨t.entries.filter fun x => !l.isPrefixOf x.1⟩

/-- Make sure that a location and everything above it are directories. -/
def makeDirectories (t : Tree) (l : Location) : Tree :=
  (List.range l.length).foldl (fun t i =>
    let above := l.take (i + 1)
    match t.get? above with
    | some .directory => t
    | _ => t.put above .directory) t

/-- Whether a name is longer than file systems allow. -/
def tooLong (name : String) : Bool := 255 < name.utf8ByteSize

/-- Follow one part of a path. -/
def follow (t : Tree) (l : Location) (part : String) : Except Fault Location :=
  match t.get? l with
  | none => .error .notFound
  | some (.file _) => .error .notDirectory
  | some .directory =>
    if Path.isVoid part then .ok l
    else if part = ".." then .ok l.dropLast
    else if tooLong part then .error .nameTooLong
    else
      match t.get? (l ++ [part]) with
      | some _ => .ok (l ++ [part])
      | none => .error .notFound

/-- Whether a text can be followed as a path at all. -/
def checkText (text : String) : Except Fault Unit :=
  if text.toList.contains '\x00' then .error .zeroCharacter
  else if text = "" then .error .notFound
  else if 4095 < text.utf8ByteSize then .error .nameTooLong
  else .ok ()

/-- Where following a path starts: at the root, or in the current directory. -/
def origin (cwd : Location) (text : String) : Location :=
  if Text.startsWith text "/" then [] else cwd

/-- The location a path leads to, which must hold something. -/
def resolve (t : Tree) (cwd : Location) (text : String) : Except Fault Location := do
  checkText text
  (splitSlashes text).foldlM t.follow (origin cwd text)

/-- The content of the file a path leads to. -/
def read (t : Tree) (cwd : Location) (text : String) : Except FileError ByteArray :=
  match t.resolve cwd text with
  | .error f => .error ⟨f, text⟩
  | .ok l =>
    match t.get? l with
    | some (.file content) => .ok content
    | some .directory => .error ⟨.isDirectory, text⟩
    | none => .error ⟨.notFound, text⟩

/-- Where a file can be written that a path leads to. -/
def target (t : Tree) (cwd : Location) (text : String) : Except Fault Location := do
  checkText text
  let parts := splitSlashes text
  let above ← parts.dropLast.foldlM t.follow (origin cwd text)
  match t.get? above with
  | none => .error .notFound
  | some (.file _) => .error .notDirectory
  | some .directory =>
    let name := parts.getLast?.getD ""
    if Path.isVoid name || name = ".." then .error .isDirectory
    else if tooLong name then .error .nameTooLong
    else
      match t.get? (above ++ [name]) with
      | some .directory => .error .isDirectory
      | _ => .ok (above ++ [name])

/-- Write a file, in place of the file that was there. -/
def write (t : Tree) (cwd : Location) (text : String) (content : ByteArray) :
    Except FileError Tree :=
  match t.target cwd text with
  | .error f => .error ⟨f, text⟩
  | .ok l => .ok (t.put l (.file content))

end Tree

end TapeLang.File
