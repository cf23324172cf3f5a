import TapeLang.Json.Binary
import TapeLang.Text.Digit
import TapeLang.Text.Integer

/-!
The integers that requests write.

A field that holds an integer may write it as a number, whose fraction must be zero, or as text.
Text is cleaned up first: the blanks around it, a sign, zeros in front, a fraction of zeros and
underscores between digits go, in this order.  What is left must be an integer in plain digits.
-/

namespace TapeLang.Service

open Json (Number)

/-- Why a number or a text stands for no integer. -/
inductive IntegerFault where
  | unreadable
  | oversized
  | fractional
  | notFinite
  deriving DecidableEq, Repr

/-- A digit that may lead a number. -/
def isLeading (c : Char) : Bool := '1' ≤ c && c ≤ '9'

/-- The text behind the zeros and underscores that follow a zero, which was preceded by `before`.
A zero before a point stays, and so does the last one of nothing but zeros. -/
def afterZeros? (before : Char) : List Char → Option (List Char)
  | [] => some [before]
  | c :: rest =>
    if c == '0' || c == '_' then afterZeros? c rest
    else if isLeading c || c == '-' then some (c :: rest)
    else if c == '.' then some (before :: c :: rest)
    else none

/-- A text that starts with a digit, without the zeros in front. -/
def withoutZeros? : List Char → Option (List Char)
  | [] => none
  | c :: rest =>
    if c == '0' then afterZeros? c rest
    else if isLeading c then some (c :: rest)
    else none

/-- A text without the fraction at its end, if that consists of zeros. -/
def withoutFraction (cs : List Char) : List Char :=
  match cs.dropWhile (· != '.') with
  | _ :: z :: zeros => if (z :: zeros).all (· == '0') then cs.takeWhile (· != '.') else cs
  | _ => cs

/-- Whether every underscore of a text stands alone between two other characters. -/
def underscoresSeparate (cs : List Char) : Bool :=
  (cs.splitOnP (· == '_')).all fun part => !part.isEmpty

/-- A text without its underscores, if they stand between other characters. -/
def withoutUnderscores (cs : List Char) : List Char :=
  if underscoresSeparate cs then cs.filter (· != '_') else cs

/-- A text cleaned up, up to plain digits behind at most one minus sign. -/
def plainDigits? (cs : List Char) : Option (List Char) := do
  let (negative, cs) := Text.splitSign (Text.trimBlanks cs)
  let cs ← withoutZeros? cs
  let cs := withoutUnderscores (withoutFraction cs)
  return if negative then '-' :: cs else cs

/-- The integer that plain digits stand for.  The sign counts as one of them. -/
def ofPlainDigits (cs : List Char) : Except IntegerFault Int :=
  let (negative, rest) := match cs with
    | '-' :: rest => (true, rest)
    | rest => (false, rest)
  let digits := rest.takeWhile fun c => (Text.asciiDigit? c).isSome
  match rest with
  | ['0'] => .ok 0
  | c :: _ =>
    if !isLeading c then .error .unreadable
    else if Text.maxDigits < digits.length + (if negative then 1 else 0) then .error .oversized
    else if digits.length < rest.length then .error .unreadable
    else .ok (Text.signed negative (Text.ofDigits (digits.filterMap Text.asciiDigit?)))
  | [] => .error .unreadable

/-- The integer that a text stands for. -/
def integerOfText (s : String) : Except IntegerFault Int :=
  match plainDigits? s.toList with
  | some cs => ofPlainDigits cs
  | none => .error .unreadable

/-- The integer that a number stands for.  A decimal is taken in double precision and must lie
within 64 bits. -/
def integerOfNumber : Number → Except IntegerFault Int
  | .integer n => .ok n
  | .infinite _ | .notANumber => .error .notFinite
  | .decimal negative digits exponent =>
    match Json.ofDecimal digits exponent with
    | .infinite => .error .notFinite
    | b =>
      match b.toNat? with
      | none => .error .fractional
      | some n =>
        if n < 9223372036854775808 then .ok (Text.signed negative n)
        else .error .oversized

end TapeLang.Service
