import TapeLang.Text.Digit
import TapeLang.Text.Quoted

/-!
What a request is addressed to.

A target is a path, possibly behind a scheme and an authority and before a query and a fragment.
Unless it names both a scheme and a host, it is taken relative to the service.  Steps within the
path are walked, and octets may be written by their number, even the sign that announces a number;
two layers of such writing are undone.
-/

namespace TapeLang.Service

/-- Why a target leads nowhere. -/
inductive TargetError where
  | tooLong
  /-- It holds a control character, here by its place. -/
  | unprintable (c : Char) (place : Nat)
  /-- It starts with slashes and names no authority. -/
  | emptyAuthority
  /-- It starts with a colon and names no scheme. -/
  | emptyScheme
  | unknownScheme (scheme : String)
  deriving DecidableEq, Repr

/-- The error in words. -/
def TargetError.message : TargetError → String
  | tooLong => "URL too long"
  | unprintable c place =>
    "Invalid non-printable ASCII character in URL, " ++ Text.quoted c.toString ++
      " at position " ++ toString place ++ "."
  | emptyAuthority => "Relative URLs cannot have a path starting with '//'"
  | emptyScheme => "Relative URLs cannot have a path starting with ':'"
  | unknownScheme scheme => Text.quoted scheme

/-- The parts of a target that say where it leads. -/
structure Target where
  /-- The scheme in lower case, empty if there is none. -/
  scheme : List Char
  authority : List Char
  path : List Char
  deriving DecidableEq, Repr

namespace Target

/-- The greatest length of a target. -/
def maxLength : Nat := 65536

/-- A control character of ASCII. -/
def isControl (c : Char) : Bool := c.toNat < 0x20 || c.toNat == 0x7f

/-- A character that a scheme may have behind its first letter. -/
def isSchemeChar (c : Char) : Bool :=
  c.isAlphanum || c == '+' || c == '.' || c == '-'

/-- The scheme of a target, and what follows it. -/
def splitScheme (cs : List Char) : List Char × List Char :=
  let scheme := cs.takeWhile isSchemeChar
  match cs.dropWhile isSchemeChar with
  | ':' :: rest =>
    if scheme.head?.all Char.isAlpha then (scheme.map Char.toLower, rest) else ([], cs)
  | _ => ([], cs)

/-- The authority of what follows a scheme, and what follows that. -/
def splitAuthority : List Char → List Char × List Char
  | '/' :: '/' :: rest =>
    let ends (c : Char) : Bool := c == '/' || c == '?' || c == '#'
    (rest.takeWhile fun c => !ends c, rest.dropWhile fun c => !ends c)
  | cs => ([], cs)

/-- The parts of a target. -/
def ofChars (cs : List Char) : Target :=
  let (scheme, rest) := splitScheme cs
  let (authority, rest) := splitAuthority rest
  ⟨scheme, authority, rest.takeWhile fun c => c != '?' && c != '#'⟩

/-- The host of an authority, which stands behind an at sign and before a colon. -/
def host (t : Target) : List Char :=
  let rest := match t.authority.dropWhile (· != '@') with
    | _ :: rest => rest
    | [] => t.authority
  if rest.head? == some '[' then rest else rest.takeWhile (· != ':')

/-- Whether a target says itself which service it means. -/
def isAbsolute (t : Target) : Bool := !t.scheme.isEmpty && !t.host.isEmpty

/-- Walk one step of a path: a dot stays, two dots go back. -/
def walk (walked : List (List Char)) (step : List Char) : List (List Char) :=
  if step == ['.'] then walked
  else if step == ['.', '.'] then
    if walked == [[]] then walked else walked.dropLast
  else walked ++ [step]

/-- A path without dots. -/
def walked (path : List Char) : List Char :=
  ['/'].intercalate ((path.splitOnP (· == '/')).foldl walk [])

/-- Undo one layer of octets written by their numbers. -/
def decodeOctets : List UInt8 → List UInt8
  | p :: a :: b :: rest =>
    let digit? (o : UInt8) : Option Nat := Text.hexDigit? (Char.ofNat o.toNat)
    match p == 0x25, digit? a, digit? b with
    | true, some x, some y => UInt8.ofNat (x * 16 + y) :: decodeOctets rest
    | _, _, _ => p :: decodeOctets (a :: b :: rest)
  | short => short

/-- The schemes that the service is reached by. -/
def schemes : List String := ["http", "https"]

/-- The octets of the path a target leads to. -/
def resolve (target : String) : Except TargetError (List UInt8) := do
  let cs := target.toList
  if maxLength < cs.length then throw .tooLong
  if let some c := cs.find? isControl then
    throw (.unprintable c (cs.takeWhile (· != c)).length)
  let t := ofChars cs
  if t.scheme.isEmpty && t.authority.isEmpty then
    if ['/', '/'].isPrefixOf t.path then throw .emptyAuthority
    if [':'].isPrefixOf t.path then throw .emptyScheme
  if t.isAbsolute && !schemes.contains (String.ofList t.scheme) then
    throw (.unknownScheme (String.ofList t.scheme))
  let path := '/' :: t.path.dropWhile (· == '/')
  let octets := (String.ofList (walked (if t.isAbsolute then t.path else path))).toUTF8
  return decodeOctets (decodeOctets octets.data.toList)

end Target

end TapeLang.Service
