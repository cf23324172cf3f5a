import TapeLang.Json.Value

/-!
The value of a decimal number in double precision.

A decimal with a fraction or an exponent stands for the nearest number `m · 2 ^ e` with
`m ≤ 2 ^ 53` and `-1074 ≤ e`, ties going to the even `m`; from `2 ^ 1024` on it stands for infinity.
-/

namespace TapeLang.Json

/-- A magnitude in double precision. -/
inductive Binary where
  | finite (mantissa : Nat) (exponent : Int)
  | infinite
  deriving DecidableEq, Repr

/-- `num / den`, rounded to the nearest integer, a half to the even one. -/
def roundDiv (num den : Nat) : Nat :=
  let q := num / den
  let r := num % den
  if 2 * r < den then q
  else if den < 2 * r then q + 1
  else if q % 2 = 0 then q else q + 1

/-- `n · b ^ e` for a non-negative `e`, and `n` otherwise. -/
def scaleUp (b n : Nat) (e : Int) : Nat := n * Nat.pow b e.toNat

/-- The nearest number in double precision to `num / den`: its exponent is the least that leaves a
quotient below `2 ^ 53`. -/
def nearest (num den : Nat) : Binary :=
  if num = 0 then .finite 0 0
  else
    let guess : Int := max ((num.log2 : Int) - den.log2 - 53) (-1074)
    let quotient (e : Int) : Nat × Nat := (scaleUp 2 num (-e), scaleUp 2 den e)
    let (n, d) := quotient guess
    let e := if n / d < 9007199254740992 then guess else guess + 1
    let (n, d) := quotient e
    let m := roundDiv n d
    if Nat.pow 2 1024 ≤ scaleUp 2 m e then .infinite else .finite m e

/-- The magnitude of `digits · 10 ^ exponent`.  It lies between two powers of two, since `10` lies
between `2 ^ 3` and `2 ^ 4`, and far outside the range nothing else is computed. -/
def ofDecimal (digits : Nat) (exponent : Int) : Binary :=
  let low : Int := digits.log2 + min (3 * exponent) (4 * exponent)
  let high : Int := digits.log2 + 1 + max (3 * exponent) (4 * exponent)
  if digits = 0 || high < -1100 then .finite 0 0
  else if 1100 < low then .infinite
  else nearest (scaleUp 10 digits exponent) (scaleUp 10 1 (-exponent))

/-- The magnitude as an integer, if it is one. -/
def Binary.toNat? : Binary → Option Nat
  | finite m e =>
    if 0 ≤ e then some (scaleUp 2 m e)
    else if m % Nat.pow 2 (-e).toNat = 0 then some (m / Nat.pow 2 (-e).toNat) else none
  | infinite => none

end TapeLang.Json
