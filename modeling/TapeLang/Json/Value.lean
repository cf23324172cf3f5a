import TapeLang.Text.Loose

/-!
JSON values.

Numbers keep the form they were written in: an integer is exact, and a number with a fraction or an
exponent keeps its decimal digits until somebody asks for its value.  Strings and names may hold
halves of characters, since they can be written as escapes.  Objects keep their members in order,
and of members with the same name the last one counts.
-/

namespace TapeLang.Json

open Text (Loose)

/-- A number as it is written. -/
inductive Number where
  | integer (n : Int)
  /-- `digits · 10 ^ exponent`, with its sign. -/
  | decimal (negative : Bool) (digits : Nat) (exponent : Int)
  | infinite (negative : Bool)
  | notANumber
  deriving DecidableEq, Repr

/-- A JSON value. -/
inductive Value where
  | null
  | bool (b : Bool)
  | number (n : Number)
  | string (s : Loose)
  | array (items : List Value)
  | object (members : List (Loose × Value))
  deriving Repr

/-- The members of an object. -/
abbrev Members := List (Loose × Value)

namespace Value

/-- An integer. -/
def int (n : Int) : Value := .number (.integer n)

/-- A string without halves of characters. -/
def text (s : String) : Value := .string (.ofString s)

/-- An object with plain names. -/
def record (members : List (String × Value)) : Value :=
  .object (members.map fun (name, v) => (.ofString name, v))

/-- The last member of an object with the given name. -/
def member? (members : Members) (name : String) : Option Value :=
  (members.reverse.find? (·.1 == .ofString name)).map (·.2)

end Value

end TapeLang.Json
