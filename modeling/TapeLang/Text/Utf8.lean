import TapeLang.Text.Quoted

/-!
Reading UTF-8, byte by byte and block by block.

The decoder holds the bytes of the character it is in the middle of, so a text may be cut into
blocks anywhere.  Errors are located by counting bytes from the beginning of the block, where the
bytes kept from the block before count as its first ones.  Line ends of all three kinds come out as
line feeds.
-/

namespace TapeLang.Text

/-- Why bytes are not UTF-8. -/
inductive DecodeReason where
  | invalidStart
  | invalidContinuation
  | unexpectedEnd
  deriving DecidableEq, Repr

def DecodeReason.message : DecodeReason → String
  | invalidStart => "invalid start byte"
  | invalidContinuation => "invalid continuation byte"
  | unexpectedEnd => "unexpected end of data"

/-- Bytes that are not UTF-8, and where they start. -/
structure DecodeError where
  position : Nat
  bytes : List UInt8
  reason : DecodeReason
  deriving DecidableEq, Repr

/-- The error in words. -/
def DecodeError.message (e : DecodeError) : String :=
  let place := match e.bytes with
    | [b] => "byte 0x" ++ hex 2 b.toNat ++ " in position " ++ toString e.position
    | bs => "bytes in position " ++ toString e.position ++ "-" ++
        toString (e.position + bs.length - 1)
  "'utf-8' codec can't decode " ++ place ++ ": " ++ e.reason.message

/-- How many bytes a character has whose first byte is `lead`; none starts with other bytes. -/
def sequenceLength? (lead : UInt8) : Option Nat :=
  if lead < 0x80 then some 1
  else if lead < 0xc2 then none
  else if lead < 0xe0 then some 2
  else if lead < 0xf0 then some 3
  else if lead < 0xf5 then some 4
  else none

/-- Whether `b` may follow the bytes of an unfinished character.  The second byte also rules out
overlong forms, surrogates and numbers that are too large. -/
def continues : List UInt8 → UInt8 → Bool
  | [lead], b =>
    let low : UInt8 := if lead = 0xe0 then 0xa0 else if lead = 0xf0 then 0x90 else 0x80
    let high : UInt8 := if lead = 0xed then 0x9f else if lead = 0xf4 then 0x8f else 0xbf
    low ≤ b && b ≤ high
  | _, b => 0x80 ≤ b && b ≤ 0xbf

/-- The character that complete bytes stand for. -/
def charOfBytes (bytes : List UInt8) : Char :=
  match bytes with
  | [a] => Char.ofNat a.toNat
  | [a, b] => Char.ofNat ((a.toNat - 0xc0) * 0x40 + (b.toNat - 0x80))
  | [a, b, c] =>
    Char.ofNat (((a.toNat - 0xe0) * 0x40 + (b.toNat - 0x80)) * 0x40 + (c.toNat - 0x80))
  | [a, b, c, d] =>
    Char.ofNat ((((a.toNat - 0xf0) * 0x40 + (b.toNat - 0x80)) * 0x40 + (c.toNat - 0x80)) * 0x40 +
      (d.toNat - 0x80))
  | _ => ' '

/-- The decoder between two bytes. -/
structure Decoder where
  chars : Array Char
  /-- The number of bytes of the block before the unfinished character. -/
  position : Nat
  /-- The bytes of the unfinished character. -/
  pending : List UInt8
  error : Option DecodeError
  deriving Repr

namespace Decoder

/-- A decoder that has kept some bytes of an unfinished character. -/
def resume (pending : List UInt8) : Decoder := ⟨#[], 0, pending, none⟩

/-- Take the last byte of a character, or another one on the way to it. -/
def extend (d : Decoder) (bytes : List UInt8) (length : Nat) : Decoder :=
  if bytes.length = length then
    { d with
      chars := d.chars.push (charOfBytes bytes)
      position := d.position + length
      pending := [] }
  else { d with pending := bytes }

/-- Take one byte. -/
def feed (d : Decoder) (b : UInt8) : Decoder :=
  match d.error with
  | some _ => d
  | none =>
    match d.pending with
    | [] =>
      match sequenceLength? b with
      | none => { d with error := some ⟨d.position, [b], .invalidStart⟩ }
      | some n => d.extend [b] n
    | lead :: more =>
      if continues (lead :: more) b then
        d.extend (lead :: more ++ [b]) ((sequenceLength? lead).getD 1)
      else { d with error := some ⟨d.position, lead :: more, .invalidContinuation⟩ }

/-- At the end of the data no character may be unfinished. -/
def finish (d : Decoder) : Decoder :=
  match d.error, d.pending with
  | none, b :: more => { d with error := some ⟨d.position, b :: more, .unexpectedEnd⟩ }
  | _, _ => d

end Decoder

/-- Turn carriage returns, alone or before a line feed, into line feeds. -/
def unifyLineEnds (cs : Array Char) : Array Char :=
  (cs.foldl (fun (out, afterReturn) c =>
    if c == '\r' then (out.push '\n', true)
    else if c == '\n' && afterReturn then (out, false)
    else (out.push c, false)) ((#[] : Array Char), false)).1

/-- Decode a whole text. -/
def decodeAll (bytes : ByteArray) : Except DecodeError String :=
  let d := (bytes.data.foldl Decoder.feed (Decoder.resume [])).finish
  match d.error with
  | some e => .error e
  | none => .ok (String.ofList (unifyLineEnds d.chars).toList)

end TapeLang.Text
