import TapeLang.Text.Wide

/-!
How a JSON text is encoded.

A JSON text starts with a character of ASCII, so the zeros among its first four bytes show whether
it comes in units of 8, 16 or 32 bits, and in which order.  Before a text in units of 8 bits, one
mark of the byte order is overlooked.
-/

namespace TapeLang.Json

open Text (Letter ByteOrder)

/-- How characters are made of bytes. -/
inductive Encoding where
  | units8
  | units16 (order : ByteOrder)
  | units32 (order : ByteOrder)
  deriving DecidableEq, Repr

/-- The encoding of a text with the given first four bytes, or with fewer bytes than that. -/
def Encoding.ofStart : List UInt8 → Encoding
  | a :: b :: c :: d :: _ =>
    if a = 0 then if b = 0 then .units32 .greatestFirst else .units16 .greatestFirst
    else if b = 0 then
      if c = 0 && d = 0 then .units32 .leastFirst else .units16 .leastFirst
    else .units8
  | [a, b] =>
    if a = 0 then .units16 .greatestFirst
    else if b = 0 then .units16 .leastFirst
    else .units8
  | _ => .units8

/-- A text in units of 8 bits without the mark of the byte order. -/
def withoutMark (s : String) : List Char :=
  match s.toList with
  | '\ufeff' :: rest => rest
  | cs => cs

/-- The letters of a JSON text that is sent as the bytes of a string. -/
def letters? (body : String) : Option (List Letter) :=
  let bytes := body.toUTF8
  match Encoding.ofStart (bytes.extract 0 4).data.toList with
  | .units8 => some ((withoutMark body).map .char)
  | .units16 order => Text.decode16? order bytes.data.toList
  | .units32 order => Text.decode32? order bytes.data.toList

end TapeLang.Json
