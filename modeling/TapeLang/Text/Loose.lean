import TapeLang.Text.Quoted

/-!
Text in which half a character may stand alone.

Where text travels in units of 16 bits, a character beyond the first plane is a pair of surrogates,
and nothing keeps one half of a pair from arriving without the other.  A loose text keeps such
halves: it is a string that is broken off at every half.  Each sequence of letters has exactly one
form, and a text without halves is a plain string.
-/

namespace TapeLang.Text

/-- Whether a unit of 16 bits is the first half of a pair. -/
def isHighHalf (unit : Nat) : Bool := 0xd800 ≤ unit && unit < 0xdc00

/-- Whether a unit of 16 bits is the second half of a pair. -/
def isLowHalf (unit : Nat) : Bool := 0xdc00 ≤ unit && unit < 0xe000

/-- The character that two halves make. -/
def joinHalves (high low : Nat) : Char :=
  Char.ofNat (0x10000 + (high - 0xd800) * 0x400 + (low - 0xdc00))

/-- A character, or half of one. -/
inductive Letter where
  | char (c : Char)
  | half (unit : Nat)
  deriving DecidableEq, Repr

namespace Letter

/-- The letter with a number; halves have the numbers that no character has. -/
def ofNat (n : Nat) : Letter :=
  if isHighHalf n || isLowHalf n then .half n else .char (Char.ofNat n)

/-- The letters of a string. -/
def ofString (s : String) : List Letter := s.toList.map .char

/-- A letter in quotes; a half is written by its number. -/
def quoted : Letter → String
  | .char c => Text.quoted c.toString
  | .half unit => "'\\u" ++ hex 4 unit ++ "'"

end Letter

/-- A text that may hold halves of characters. -/
structure Loose where
  /-- The parts that end with a half, and the halves. -/
  broken : Array (String × Nat)
  /-- What follows the last half. -/
  last : String
  deriving DecidableEq, Repr

/-- Why a text cannot be sent: halves that follow each other, the first ones of the text. -/
structure EncodeError where
  /-- How many letters stand before them. -/
  position : Nat
  first : Nat
  /-- The halves that follow the first one. -/
  more : List Nat
  deriving DecidableEq, Repr

/-- The error in words. -/
def EncodeError.message (e : EncodeError) : String :=
  let place := match e.more with
    | [] => "character " ++ (Letter.half e.first).quoted ++ " in position " ++ toString e.position
    | more => "characters in position " ++ toString e.position ++ "-" ++
        toString (e.position + more.length)
  "'utf-8' codec can't encode " ++ place ++ ": surrogates not allowed"

namespace Loose

/-- A string holds no halves. -/
def ofString (s : String) : Loose := ⟨#[], s⟩

/-- The text without letters. -/
def empty : Loose := ofString ""

/-- The text followed by a character. -/
def push : Loose → Char → Loose
  | ⟨broken, last⟩, c => ⟨broken, last.push c⟩

/-- The text followed by half a character. -/
def pushHalf : Loose → Nat → Loose
  | ⟨broken, last⟩, unit => ⟨broken.push (last, unit), ""⟩

/-- The text followed by a letter. -/
def pushLetter (t : Loose) : Letter → Loose
  | .char c => t.push c
  | .half unit => t.pushHalf unit

/-- The text followed by a string. -/
def append : Loose → String → Loose
  | ⟨broken, last⟩, s => ⟨broken, last ++ s⟩

/-- The letters of a text. -/
def letters (t : Loose) : List Letter :=
  t.broken.toList.flatMap (fun (start, unit) => Letter.ofString start ++ [.half unit]) ++
    Letter.ofString t.last

/-- The string a text is, unless it holds a half. -/
def toString? (t : Loose) : Option String := if t.broken.isEmpty then some t.last else none

/-- The text as a string in which every half is replaced by the mark of what cannot be shown. -/
def shown (t : Loose) : String :=
  t.broken.foldl (fun out (start, _) => out ++ start ++ "\ufffd") "" ++ t.last

/-- The text as it is sent, which takes characters only. -/
def encode (t : Loose) : Except EncodeError String :=
  match t.broken.toList with
  | [] => .ok t.last
  | (start, unit) :: rest =>
    .error ⟨start.length, unit, (rest.takeWhile (·.1 == "")).map (·.2)⟩

@[simp] theorem toString?_ofString (s : String) : (ofString s).toString? = some s := rfl

@[simp] theorem shown_ofString (s : String) : (ofString s).shown = s := by
  simp [shown, ofString]

@[simp] theorem encode_ofString (s : String) : (ofString s).encode = .ok s := rfl

@[simp] theorem letters_ofString (s : String) : (ofString s).letters = Letter.ofString s := rfl

end Loose

end TapeLang.Text
