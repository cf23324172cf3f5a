import TapeLang.Json.Value
import TapeLang.Text.Digit

/-!
Reading JSON.

The reader takes the text of one value with blanks around it and nothing else.  Besides the numbers
of the standard it knows `NaN`, `Infinity` and `-Infinity`, and it keeps halves of characters.  How
deep arrays and objects may be nested and how many digits an integer may have is limited; text
beyond a limit is told from text that is malformed.  Every value takes at least one letter of the
text, so the length of the text bounds the depth of the recursion.
-/

namespace TapeLang.Json

open Text (Letter Loose)

/-- What the reader takes at most. -/
structure Limits where
  /-- How many arrays and objects may be open at a time. -/
  depth : Nat
  /-- How many digits an integer may have. -/
  digits : Nat
  deriving DecidableEq, Repr

/-- Why a text cannot be read. -/
inductive ReadError where
  | malformed
  /-- Too many arrays and objects are open. -/
  | tooDeep
  /-- An integer has too many digits. -/
  | tooLong
  deriving DecidableEq, Repr

/-- A part of a text that was read, and what follows it. -/
abbrev Reads (α : Type) := Except ReadError (α × List Letter)

/-- Blanks between the parts of a text. -/
def isBlank : Letter → Bool
  | .char c => c == ' ' || c == '\t' || c == '\n' || c == '\r'
  | .half _ => false

/-- The text after its leading blanks. -/
def skipBlanks (cs : List Letter) : List Letter := cs.dropWhile isBlank

/-! ### Strings -/

/-- The number that four hexadecimal digits stand for. -/
def hexUnit? (a b c d : Char) : Option Nat := do
  return (← [a, b, c, d].mapM Text.hexDigit?).foldl (fun n digit => n * 16 + digit) 0

/-- The character of an escape that consists of one letter. -/
def letterEscape? : Char → Option Char
  | '"' => some '"'
  | '\\' => some '\\'
  | '/' => some '/'
  | 'b' => some '\x08'
  | 'f' => some '\x0c'
  | 'n' => some '\n'
  | 'r' => some '\r'
  | 't' => some '\t'
  | _ => none

/-- A string in the middle of being read: its text, and the first half of a pair that was written as
an escape and may still be joined by the second one. -/
structure Piece where
  text : Loose
  high : Option Nat

namespace Piece

/-- Nothing was read yet. -/
def start : Piece := ⟨.empty, none⟩

/-- The text, where a half that waited stands alone. -/
def settled : Piece → Loose
  | ⟨text, none⟩ => text
  | ⟨text, some h⟩ => text.pushHalf h

/-- Take a letter that is no escaped half. -/
def push (p : Piece) (l : Letter) : Piece := ⟨p.settled.pushLetter l, none⟩

/-- Take an escape with a number. -/
def pushUnit : Piece → Nat → Piece
  | ⟨text, some h⟩, n =>
    if Text.isLowHalf n then ⟨text.push (Text.joinHalves h n), none⟩
    else if Text.isHighHalf n then ⟨text.pushHalf h, some n⟩
    else ⟨(text.pushHalf h).pushLetter (.ofNat n), none⟩
  | ⟨text, none⟩, n =>
    if Text.isHighHalf n then ⟨text, some n⟩ else ⟨text.pushLetter (.ofNat n), none⟩

end Piece

/-- The rest of a string behind its opening quote, and the text after its closing one. -/
def readString : List Letter → Piece → Reads Loose
  | .char '\\' :: .char 'u' :: .char a :: .char b :: .char c :: .char d :: rest, p =>
    match hexUnit? a b c d with
    | none => .error .malformed
    | some n => readString rest (p.pushUnit n)
  | .char '\\' :: .char e :: rest, p =>
    match letterEscape? e with
    | none => .error .malformed
    | some c => readString rest (p.push (.char c))
  | .char c :: rest, p =>
    if c == '"' then .ok (p.settled, rest)
    else if c == '\\' || c.toNat < 0x20 then .error .malformed
    else readString rest (p.push (.char c))
  | .half n :: rest, p => readString rest (p.push (.half n))
  | [], _ => .error .malformed

/-! ### Numbers and words -/

/-- The value of a decimal digit. -/
def digit? : Letter → Option Nat
  | .char c => Text.asciiDigit? c
  | .half _ => none

/-- The leading digits of a text, and what follows them. -/
def spanDigits (cs : List Letter) : List Nat × List Letter :=
  ((cs.takeWhile fun c => (digit? c).isSome).filterMap digit?,
    cs.dropWhile fun c => (digit? c).isSome)

/-- The number that digits stand for, continuing from `n`. -/
def appendDigits (n : Nat) (digits : List Nat) : Nat := digits.foldl (fun n d => n * 10 + d) n

/-- A fraction, if there is one. -/
def readFraction (cs : List Letter) : Option (List Nat) × List Letter :=
  match cs with
  | .char '.' :: rest =>
    match spanDigits rest with
    | ([], _) => (none, cs)
    | (digits, rest) => (some digits, rest)
  | _ => (none, cs)

/-- A sign, if there is one: whether it is that of negative numbers, and what follows it. -/
def readSign : List Letter → Bool × List Letter
  | .char '+' :: rest => (false, rest)
  | .char '-' :: rest => (true, rest)
  | cs => (false, cs)

/-- An exponent, if there is one. -/
def readExponent (cs : List Letter) : Option Int × List Letter :=
  match cs with
  | .char e :: rest =>
    if e == 'e' || e == 'E' then
      let (negative, rest) := readSign rest
      match spanDigits rest with
      | ([], _) => (none, cs)
      | (digits, rest) =>
        let n : Int := appendDigits 0 digits
        (some (if negative then -n else n), rest)
    else (none, cs)
  | _ => (none, cs)

/-- A number behind its sign. -/
def readNumber (limits : Limits) (negative : Bool) (cs : List Letter) : Reads Number :=
  match spanDigits cs with
  | ([], _) => .error .malformed
  | (0 :: _ :: _, _) =>
    -- A leading zero is the whole number; the digit after it is left over.
    .ok (.integer 0, cs.drop 1)
  | (digits, rest) =>
    let (fraction, rest) := readFraction rest
    let (exponent, rest) := readExponent rest
    match fraction, exponent with
    | none, none =>
      if limits.digits < digits.length then .error .tooLong
      else
        let whole : Int := appendDigits 0 digits
        .ok (.integer (if negative then -whole else whole), rest)
    | _, _ =>
      let places := fraction.getD []
      let all := appendDigits (appendDigits 0 digits) places
      .ok (.decimal negative all (exponent.getD 0 - places.length), rest)

/-- The text behind a word it starts with. -/
def afterWord? (word : String) (cs : List Letter) : Option (List Letter) :=
  if (Letter.ofString word).isPrefixOf cs then some (cs.drop word.length) else none

/-- The words there are, and what they stand for. -/
def words : List (String × Value) :=
  [("null", .null), ("true", .bool true), ("false", .bool false),
   ("NaN", .number .notANumber), ("Infinity", .number (.infinite false)),
   ("-Infinity", .number (.infinite true))]

/-- A word or a number. -/
def readScalar (limits : Limits) (cs : List Letter) : Reads Value :=
  match words.findSome? fun (word, v) => (afterWord? word cs).map (v, ·) with
  | some found => .ok found
  | none =>
    (match cs with
      | .char '-' :: rest => readNumber limits true rest
      | _ => readNumber limits false cs).map fun (n, rest) => (.number n, rest)

/-! ### Values -/

mutual

/-- A value at the beginning of a text, within which `depth` arrays and objects may be open. -/
def readValue (limits : Limits) : (fuel depth : Nat) → List Letter → Reads Value
  | 0, _, _ => .error .malformed
  | fuel + 1, depth, cs =>
    match skipBlanks cs, depth with
    | .char '"' :: rest, _ => (readString rest .start).map fun (s, rest) => (.string s, rest)
    | .char '[' :: _, 0 => .error .tooDeep
    | .char '[' :: rest, depth + 1 =>
      match skipBlanks rest with
      | .char ']' :: rest => .ok (.array [], rest)
      | rest =>
        (readItems limits fuel depth rest []).map fun (items, rest) => (.array items, rest)
    | .char '\x7b' :: _, 0 => .error .tooDeep
    | .char '\x7b' :: rest, depth + 1 =>
      match skipBlanks rest with
      | .char '\x7d' :: rest => .ok (.object [], rest)
      | rest =>
        (readMembers limits fuel depth rest []).map fun (members, rest) => (.object members, rest)
    | cs, _ => readScalar limits cs

/-- The items of an array that is not empty, up to its end. -/
def readItems (limits : Limits) :
    (fuel depth : Nat) → List Letter → List Value → Reads (List Value)
  | 0, _, _, _ => .error .malformed
  | fuel + 1, depth, cs, before =>
    match readValue limits fuel depth cs with
    | .error e => .error e
    | .ok (v, rest) =>
      match skipBlanks rest with
      | .char ',' :: rest => readItems limits fuel depth rest (v :: before)
      | .char ']' :: rest => .ok ((v :: before).reverse, rest)
      | _ => .error .malformed

/-- The members of an object that is not empty, up to its end. -/
def readMembers (limits : Limits) : (fuel depth : Nat) → List Letter → Members → Reads Members
  | 0, _, _, _ => .error .malformed
  | fuel + 1, depth, cs, before =>
    match skipBlanks cs with
    | .char '"' :: rest =>
      match readString rest .start with
      | .error e => .error e
      | .ok (name, rest) =>
        match skipBlanks rest with
        | .char ':' :: rest =>
          match readValue limits fuel depth rest with
          | .error e => .error e
          | .ok (v, rest) =>
            match skipBlanks rest with
            | .char ',' :: rest => readMembers limits fuel depth rest ((name, v) :: before)
            | .char '\x7d' :: rest => .ok (((name, v) :: before).reverse, rest)
            | _ => .error .malformed
        | _ => .error .malformed
    | _ => .error .malformed

end

/-- Read a text that consists of one value. -/
def read (limits : Limits) (text : List Letter) : Except ReadError Value :=
  match readValue limits (2 * text.length + 2) limits.depth text with
  | .error e => .error e
  | .ok (v, rest) => if (skipBlanks rest).isEmpty then .ok v else .error .malformed

end TapeLang.Json
