import TapeLang.Json.Write
import TapeLang.Log
import TapeLang.Service.Target
import TapeLang.Service.Validation

/-!
Answers of the service.

An answer is a status and a JSON body.  The answer to a request with bad fields repeats what was
sent, and if that cannot be written as JSON there is no answer but a breakdown.
-/

namespace TapeLang.Service

open Json (Value Members)
open Text (Loose Letter)

/-- An answer, and what was put on record on the way to it. -/
structure Response where
  status : Nat
  /-- The body, if it is JSON. -/
  body : Option Value
  log : List LogEntry

/-- Why a request is not answered. -/
inductive Breakdown where
  /-- It is addressed to nothing. -/
  | target (e : TargetError)
  /-- The answer would repeat a number that is not finite. -/
  | notFinite
  /-- The answer would repeat half a character. -/
  | brokenText (e : Text.EncodeError)
  deriving DecidableEq, Repr

/-- The breakdown in words. -/
def Breakdown.message : Breakdown → String
  | target e => e.message
  | notFinite => "Out of range float values are not JSON compliant"
  | brokenText e => e.message

/-- An answer with a body. -/
def Response.json (status : Nat) (body : Value) (log : List LogEntry) : Response :=
  ⟨status, some body, log⟩

/-- An answer that only says what went wrong. -/
def Response.refusal (status : Nat) (detail : Value) (log : List LogEntry) : Response :=
  .json status (.record [("detail", detail)]) log

/-! ### Repeating what was sent -/

/-- Put a member in the place of the one with its name, or behind all others. -/
def putMember (ms : Members) (name : Loose) (v : Value) : Members :=
  if ms.any (·.1 == name) then ms.map fun m => if m.1 == name then (name, v) else m
  else ms ++ [(name, v)]

/-- Names that start like this are never repeated. -/
def hiddenStart : String := "_sa"

/-- Whether a member with this name is repeated. -/
def isRepeated (name : Loose) : Bool :=
  !(Letter.ofString hiddenStart).isPrefixOf name.letters

mutual

/-- A value as an answer repeats it: of members with one name the last one, in the place of the
first. -/
def repeated : Value → Value
  | .array items => .array (repeatedItems items)
  | .object members => .object (repeatedMembers [] members)
  | v => v

/-- Values as an answer repeats them. -/
def repeatedItems : List Value → List Value
  | [] => []
  | v :: rest => repeated v :: repeatedItems rest

/-- Members as an answer repeats them, behind those that stand before them. -/
def repeatedMembers (before : Members) : List (Loose × Value) → Members
  | [] => before.filter fun m => isRepeated m.1
  | (name, v) :: rest => repeatedMembers (putMember before name (repeated v)) rest

end

/-- One entry of the answer to a request with bad fields. -/
def Complaint.detail (c : Complaint) : Value :=
  .record
    ([("type", .text c.flaw.kind),
      ("loc", .array (.text "body" :: (c.field.map Value.text).toList)),
      ("msg", .text c.flaw.message),
      ("input", repeated c.sent)] ++
      (c.flaw.context.map (("ctx", ·))).toList)

/-- The answer to a request with bad fields, if it can be written. -/
def complaintAnswer (cs : List Complaint) : Except Breakdown Response :=
  let body := Value.record [("detail", .array (cs.map Complaint.detail))]
  if !body.isFinite then .error .notFinite
  else
    match (Json.render body).encode with
    | .error e => .error (.brokenText e)
    | .ok _ => .ok (.json 422 body [])

end TapeLang.Service
