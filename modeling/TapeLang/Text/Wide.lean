import TapeLang.Text.Loose

/-!
Text in units of 16 or 32 bits.

A unit is sent as two or four bytes in either order.  Two halves that follow each other in units of
16 bits make one character; any other half stands alone.
-/

namespace TapeLang.Text

/-- Which byte of a unit is sent first. -/
inductive ByteOrder where
  | greatestFirst
  | leastFirst
  deriving DecidableEq, Repr

/-- The number that bytes in an order stand for. -/
def ByteOrder.number (order : ByteOrder) (bytes : List UInt8) : Nat :=
  let ordered := match order with
    | .greatestFirst => bytes
    | .leastFirst => bytes.reverse
  ordered.foldl (fun n b => n * 256 + b.toNat) 0

/-- The units of 16 bits that bytes stand for; there are none if a byte is left over. -/
def units16? (order : ByteOrder) : List UInt8 → Option (List Nat)
  | [] => some []
  | [_] => none
  | a :: b :: rest => (units16? order rest).map (order.number [a, b] :: ·)

/-- The units of 32 bits that bytes stand for; there are none if bytes are left over. -/
def units32? (order : ByteOrder) : List UInt8 → Option (List Nat)
  | [] => some []
  | a :: b :: c :: d :: rest => (units32? order rest).map (order.number [a, b, c, d] :: ·)
  | _ => none

/-- The letters of units of 16 bits. -/
def lettersOfUnits : List Nat → List Letter
  | [] => []
  | [unit] => [.ofNat unit]
  | a :: b :: rest =>
    if isHighHalf a && isLowHalf b then .char (joinHalves a b) :: lettersOfUnits rest
    else .ofNat a :: lettersOfUnits (b :: rest)

/-- The letters that bytes in units of 16 bits stand for. -/
def decode16? (order : ByteOrder) (bytes : List UInt8) : Option (List Letter) :=
  (units16? order bytes).map lettersOfUnits

/-- The letters that bytes in units of 32 bits stand for; numbers beyond those of characters stand
for nothing. -/
def decode32? (order : ByteOrder) (bytes : List UInt8) : Option (List Letter) := do
  let units ← units32? order bytes
  if units.all (· < 0x110000) then some (units.map .ofNat) else none

end TapeLang.Text
