import TapeLang.Source
import TapeLang.Text.Utf8

/-!
A file as a source: read in blocks of bytes, handed out in chunks of characters.

A chunk has `chunkLength` characters, or fewer at the end of the file.  While decoded characters
are missing for it, another block is read: `blockLength` bytes, or as many as the missing
characters took up at the density of the block before, if that is more.  A carriage return at the
end of a block waits for the next block.  Bytes that are not UTF-8 make the read fail, and the
characters decoded for that chunk are lost with it.
-/

namespace TapeLang.File

open Text (Decoder DecodeError)

/-- The least number of bytes asked for at a time. -/
def blockLength : Nat := 8192

/-- A text file in the middle of being read. -/
structure Reader where
  /-- The bytes not read yet. -/
  rest : List UInt8
  /-- The bytes of an unfinished character at the end of the last block. -/
  pending : List UInt8
  /-- Whether the last block ended with a carriage return. -/
  heldReturn : Bool
  /-- The characters decoded and not handed out yet. -/
  buffer : List Char
  /-- How many bytes the last block had. -/
  lastBytes : Nat
  /-- How many characters came out of it. -/
  lastChars : Nat

namespace Reader

/-- A file that was just opened. -/
def opened (content : ByteArray) : Reader := ⟨content.data.toList, [], false, [], 0, 0⟩

/-- How many bytes are asked for when `wanted` characters are missing. -/
def request (r : Reader) (wanted : Nat) : Nat :=
  if r.lastChars = 0 then max blockLength wanted
  else max blockLength (max r.lastBytes r.lastChars * wanted / r.lastChars)

/-- Read one block.  The flag is false if there was nothing left to read or to hand out. -/
def readBlock (r : Reader) (wanted : Nat) : Except DecodeError (Bool × Reader) :=
  let block := r.rest.take (r.request wanted)
  let atEnd := block.isEmpty
  let fed := block.foldl Decoder.feed (Decoder.resume r.pending)
  let d := if atEnd then fed.finish else fed
  match d.error with
  | some e => .error e
  | none =>
    let all := if r.heldReturn && (atEnd || !d.chars.isEmpty) then #['\r'] ++ d.chars else d.chars
    let holds := !atEnd && (all.back? == some '\r' || (all.isEmpty && r.heldReturn))
    let chars := Text.unifyLineEnds (if all.back? == some '\r' && !atEnd then all.pop else all)
    .ok (!atEnd || !chars.isEmpty,
      { rest := r.rest.drop (r.request wanted)
        pending := d.pending
        heldReturn := holds
        buffer := r.buffer ++ chars.toList
        lastBytes := block.length
        lastChars := chars.size })

/-- Read blocks until a chunk is complete or the file is at its end. -/
def fill : (fuel : Nat) → Reader → Except DecodeError Reader
  | 0, r => .ok r
  | fuel + 1, r =>
    if chunkLength ≤ r.buffer.length then .ok r
    else
      match r.readBlock (chunkLength - r.buffer.length) with
      | .error e => .error e
      | .ok (true, r) => fill fuel r
      | .ok (false, r) => .ok r

/-- Hand out chunks until the file is at its end or cannot be decoded. -/
def chunks (fillFuel : Nat) : (fuel : Nat) → Reader → Array String → Source DecodeError
  | 0, _, out => ⟨out.toList, none⟩
  | fuel + 1, r, out =>
    match r.fill fillFuel with
    | .error e => ⟨out.toList, some e⟩
    | .ok r =>
      if r.buffer.isEmpty then ⟨out.toList, none⟩
      else
        chunks fillFuel fuel { r with buffer := r.buffer.drop chunkLength }
          (out.push (String.ofList (r.buffer.take chunkLength)))

end Reader

/-- The text of a file, as it is read while its symbols are being processed.  Every block but the
last takes a byte and every chunk a character, which bounds their number. -/
def stream (content : ByteArray) : Source DecodeError :=
  let fuel := content.size + 3
  (Reader.opened content).chunks fuel fuel #[]

end TapeLang.File
