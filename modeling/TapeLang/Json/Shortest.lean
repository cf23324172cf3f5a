import TapeLang.Json.Binary

/-!
The decimal a number in double precision is written as.

It has the fewest digits that read back as the same number, and of those with that many digits it is
the nearest.  Seventeen digits always suffice.
-/

namespace TapeLang.Json

/-- A decimal: `digits · 10 ^ exponent`. -/
structure Decimal where
  digits : Nat
  exponent : Int
  deriving DecidableEq, Repr

namespace Binary

/-- The magnitude as a fraction. -/
def fraction (mantissa : Nat) (exponent : Int) : Nat × Nat :=
  (scaleUp 2 mantissa exponent, scaleUp 2 1 (-exponent))

/-- Whether two magnitudes are the same number, however it is split. -/
def same : Binary → Binary → Bool
  | infinite, infinite => true
  | finite m e, finite m' e' =>
    let (a, b) := fraction m e
    let (a', b') := fraction m' e'
    a * b' == a' * b
  | _, _ => false

end Binary

/-- How many digits a decimal with a magnitude of `num / den` has before its point, if that is
positive; otherwise the negated number of zeros behind it. -/
def decimalScale (num den : Nat) : Int :=
  let guess : Int := (Nat.toDigits 10 num).length - (Nat.toDigits 10 den).length
  -- The guess is right or one too small.
  if scaleUp 10 den guess ≤ scaleUp 10 num (-guess) then guess + 1 else guess

/-- The decimals next to `num / den` whose last digit stands for `10 ^ exponent`, the nearer one
first and of two equally near ones the even one. -/
def neighbours (num den : Nat) (exponent : Int) : List Decimal :=
  let n := scaleUp 10 num (-exponent)
  let d := scaleUp 10 den exponent
  let near := roundDiv n d
  let floor := n / d
  [⟨near, exponent⟩, ⟨if near = floor then floor + 1 else floor, exponent⟩]

/-- A decimal without zeros at its end. -/
def Decimal.trimmed : (fuel : Nat) → Decimal → Decimal
  | 0, d => d
  | fuel + 1, ⟨digits, exponent⟩ =>
    if digits ≠ 0 && digits % 10 = 0 then trimmed fuel ⟨digits / 10, exponent + 1⟩
    else ⟨digits, exponent⟩

/-- The shortest decimal that reads back as the number `mantissa · 2 ^ exponent`. -/
def shortest (mantissa : Nat) (exponent : Int) : Decimal :=
  if mantissa = 0 then ⟨0, 0⟩
  else
    let (num, den) := Binary.fraction mantissa exponent
    let scale := decimalScale num den
    let found := (List.range 17).findSome? fun i =>
      (neighbours num den (scale - (i + 1 : Nat))).find? fun d =>
        (ofDecimal d.digits d.exponent).same (.finite mantissa exponent)
    (found.getD ⟨0, 0⟩).trimmed 17

/-- A decimal in digits, with a point where its leading digit stands for `10 ^ -4` up to `10 ^ 15`,
and with an exponent of at least two digits otherwise. -/
def Decimal.render (d : Decimal) : String :=
  let digits := Nat.toDigits 10 d.digits
  let point : Int := digits.length + d.exponent
  let zeros (n : Int) : List Char := List.replicate n.toNat '0'
  if -4 < point && point ≤ 16 then
    let whole := digits.take point.toNat ++ zeros (point - digits.length)
    let places := zeros (-point) ++ digits.drop point.toNat
    let orZero (cs : List Char) : List Char := if cs.isEmpty then ['0'] else cs
    String.ofList (orZero whole ++ '.' :: orZero places)
  else
    let lead := point - 1
    let exponent := Nat.toDigits 10 lead.natAbs
    let rest := if digits.length ≤ 1 then [] else '.' :: digits.drop 1
    String.ofList (digits.take 1 ++ rest ++ ['e', if lead < 0 then '-' else '+'] ++
      zeros (2 - exponent.length) ++ exponent)

end TapeLang.Json
