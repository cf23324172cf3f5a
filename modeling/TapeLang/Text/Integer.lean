import TapeLang.Text.Digit

/-!
Integers as people write them.

Blanks around the number, one sign, and single underscores between digits are allowed.  What counts
as a digit is a parameter: the digits of all scripts, or the ten of ASCII.
-/

namespace TapeLang.Text

/-- The digits of a number, with single underscores between them. -/
def readDigits? (digit? : Char → Option Nat) : List Char → Option (List Nat)
  | cs =>
    (cs.splitOnP (· == '_')).foldr
      (fun group rest => do
        let digits ← group.mapM digit?
        if digits.isEmpty then none
        let rest ← rest
        return digits ++ rest)
      (some [])

/-- The number that decimal digits stand for. -/
def ofDigits (digits : List Nat) : Nat := digits.foldl (fun n d => n * 10 + d) 0

/-- A sign and what follows it. -/
def splitSign : List Char → Bool × List Char
  | '+' :: cs => (false, cs)
  | '-' :: cs => (true, cs)
  | cs => (false, cs)

/-- A number with its sign. -/
def signed (negative : Bool) (n : Nat) : Int := if negative then -n else n

/-- The greatest number of digits that is read. -/
def maxDigits : Nat := 4300

/-- Read an integer written with the digits of any script. -/
def readInt? (s : String) : Option Int := do
  let (negative, cs) := splitSign (trimBlanks s.toList)
  let digits ← readDigits? digit? cs
  if maxDigits < digits.length then none
  return signed negative (ofDigits digits)

end TapeLang.Text
