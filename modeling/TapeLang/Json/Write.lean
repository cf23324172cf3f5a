import TapeLang.Json.Shortest
import TapeLang.Json.Value

/-!
Writing JSON without blanks.

A number with a fraction or an exponent is written by its value in double precision.  Strings keep
their halves of characters, so what is written is loose text; numbers beyond the finite ones have
words of their own, and `Value.isFinite` says whether a value does without them.
-/

namespace TapeLang.Json

open Text (Loose)

/-- How a character is written inside a string. -/
def escaped (c : Char) : String :=
  if c == '"' then "\\\""
  else if c == '\\' then "\\\\"
  else if c == '\n' then "\\n"
  else if c == '\r' then "\\r"
  else if c == '\t' then "\\t"
  else if c == '\x08' then "\\b"
  else if c == '\x0c' then "\\f"
  else if c.toNat < 0x20 then "\\u" ++ Text.hex 4 c.toNat
  else c.toString

/-- Write the characters of a string behind `out`. -/
def writeChars (out s : String) : String := s.toList.foldl (fun out c => out ++ escaped c) out

/-- Write a string behind `out`. -/
def writeString (out s : Loose) : Loose :=
  let part : Loose → String → Loose
    | ⟨broken, last⟩, s => ⟨broken, writeChars last s⟩
  let out := s.broken.foldl (fun out (start, unit) => (part out start).pushHalf unit) (out.push '"')
  (part out s.last).push '"'

/-- A number in digits. -/
def Number.render : Number → String
  | .integer n => toString n
  | .decimal negative digits exponent =>
    (if negative then "-" else "") ++
      match ofDecimal digits exponent with
      | .finite m e => (shortest m e).render
      | .infinite => "Infinity"
  | .infinite negative => if negative then "-Infinity" else "Infinity"
  | .notANumber => "NaN"

/-- Whether a number has a finite value. -/
def Number.isFinite : Number → Bool
  | .integer _ => true
  | .decimal _ digits exponent => ofDecimal digits exponent != .infinite
  | .infinite _ | .notANumber => false

mutual

/-- Write a value behind `out`. -/
def write (out : Loose) : Value → Loose
  | .null => out.append "null"
  | .bool b => out.append (if b then "true" else "false")
  | .number n => out.append n.render
  | .string s => writeString out s
  | .array items => (writeItems (out.push '[') items).push ']'
  | .object members => (writeMembers (out.push '\x7b') members).push '\x7d'

/-- Write the items of an array behind `out`. -/
def writeItems (out : Loose) : List Value → Loose
  | [] => out
  | [v] => write out v
  | v :: rest => writeItems ((write out v).push ',') rest

/-- Write the members of an object behind `out`. -/
def writeMembers (out : Loose) : List (Loose × Value) → Loose
  | [] => out
  | [(name, v)] => write ((writeString out name).push ':') v
  | (name, v) :: rest =>
    writeMembers ((write ((writeString out name).push ':') v).push ',') rest

end

/-- The text of a value. -/
def render (v : Value) : Loose := write .empty v

mutual

/-- Whether all numbers of a value are finite. -/
def Value.isFinite : Value → Bool
  | .number n => n.isFinite
  | .array items => itemsFinite items
  | .object members => membersFinite members
  | _ => true

/-- Whether all numbers of some values are finite. -/
def itemsFinite : List Value → Bool
  | [] => true
  | v :: rest => v.isFinite && itemsFinite rest

/-- Whether all numbers of some members are finite. -/
def membersFinite : List (Loose × Value) → Bool
  | [] => true
  | (_, v) :: rest => v.isFinite && membersFinite rest

end

end TapeLang.Json
