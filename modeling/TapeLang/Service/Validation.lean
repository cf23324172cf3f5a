import TapeLang.Json.Encoding
import TapeLang.Json.Read
import TapeLang.Service.Integer
import TapeLang.TapeSize

/-!
Reading requests of the service.

A request body is a JSON object with named fields.  Fields the service does not know are ignored,
and a field that is absent has its default, but for the source, which is required.  Integers are
taken from integers, from truth values, from decimals without a fraction and from text.  All fields
are checked, and every bad one is reported, in a fixed order and together with what was sent.
-/

namespace TapeLang.Service

open Json (Value Members)
open Text (Loose)

/-- What is wrong with a field or with the body as a whole. -/
inductive Flaw where
  | missing
  | malformed
  | notAnObject
  | notText
  /-- The input holds a character that is no byte. -/
  | notBytes
  | notAnInteger
  /-- The text of an integer holds half a character. -/
  | brokenText
  | badInteger (f : IntegerFault)
  | below (bound : Int)
  | above (bound : Int)
  deriving DecidableEq, Repr

namespace Flaw

/-- The kind of a flaw. -/
def kind : Flaw → String
  | missing => "missing"
  | malformed => "json_invalid"
  | notAnObject => "model_attributes_type"
  | notText => "string_type"
  | notBytes => "value_error"
  | notAnInteger => "int_type"
  | brokenText => "string_unicode"
  | badInteger .unreadable => "int_parsing"
  | badInteger .oversized => "int_parsing_size"
  | badInteger .fractional => "int_from_float"
  | badInteger .notFinite => "finite_number"
  | below _ => "greater_than_equal"
  | above _ => "less_than_equal"

/-- A flaw in words. -/
def message : Flaw → String
  | missing => "Field required"
  | malformed => "JSON decode error"
  | notAnObject => "Input should be a valid dictionary or object to extract fields from"
  | notText => "Input should be a valid string"
  | notBytes => "Value error, input must only contain characters in the range 0-255"
  | notAnInteger => "Input should be a valid integer"
  | brokenText =>
    "Input should be a valid string, unable to parse raw data as a unicode string"
  | badInteger .unreadable =>
    "Input should be a valid integer, unable to parse string as an integer"
  | badInteger .oversized =>
    "Unable to parse input string as an integer, exceeded maximum size"
  | badInteger .fractional =>
    "Input should be a valid integer, got a number with a fractional part"
  | badInteger .notFinite => "Input should be a finite number"
  | below n => "Input should be greater than or equal to " ++ toString n
  | above n => "Input should be less than or equal to " ++ toString n

/-- What a report adds to a flaw. -/
def context : Flaw → Option Value
  | notBytes => some (.record [("error", .record [])])
  | below n => some (.record [("ge", .int n)])
  | above n => some (.record [("le", .int n)])
  | _ => none

end Flaw

/-- A flaw, the field it lies in, which is none for the body as a whole, and what was sent there. -/
structure Complaint where
  field : Option String
  flaw : Flaw
  sent : Value

/-! ### Fields -/

/-- A field that holds text. -/
def textField : Value → Except Flaw Loose
  | .string s => .ok s
  | _ => .error .notText

/-- A field that holds bytes, written as the characters with their numbers. -/
def bytesField (v : Value) : Except Flaw String := do
  match (← textField v).toString? with
  | none => .error .notBytes
  | some s => if s.toList.any fun c => 255 < c.toNat then .error .notBytes else .ok s

/-- A field that holds an integer. -/
def integerField : Value → Except Flaw Int
  | .number n => (integerOfNumber n).mapError .badInteger
  | .bool b => .ok (if b then 1 else 0)
  | .string t =>
    match t.toString? with
    | none => .error .brokenText
    | some s => (integerOfText s).mapError .badInteger
  | _ => .error .notAnInteger

/-- A field that holds an integer within bounds. -/
def boundedField (low : Int) (high : Option Int) (v : Value) : Except Flaw Int := do
  let n ← integerField v
  if n < low then .error (.below low)
  else
    match high with
    | some h => if h < n then .error (.above h) else .ok n
    | none => .ok n

/-- A field that may be absent. -/
def optionalField {α : Type} (ms : Members) (name : String) (default : α)
    (read : Value → Except Flaw α) : Except Complaint α :=
  match Value.member? ms name with
  | none => .ok default
  | some v => (read v).mapError (⟨some name, ·, v⟩)

/-- A field that must be there. -/
def requiredField {α : Type} (ms : Members) (name : String) (read : Value → Except Flaw α) :
    Except Complaint α :=
  match Value.member? ms name with
  | none => .error ⟨some name, .missing, .object ms⟩
  | some v => (read v).mapError (⟨some name, ·, v⟩)

/-- What a check complains about. -/
def complaints {α : Type} : Except Complaint α → List Complaint
  | .ok _ => []
  | .error c => [c]

/-! ### Requests -/

/-- The step budget of a request that names none, and of a service that sets none. -/
def defaultMaxSteps : Int := 1000000

/-- Ask for the listing of a program. -/
structure ListingRequest where
  source : Loose
  tapeSize : Int
  deriving DecidableEq, Repr

/-- Ask for a program to be executed. -/
structure RunRequest where
  source : Loose
  input : String
  tapeSize : Int
  maxSteps : Int
  deriving DecidableEq, Repr

/-- The request for a listing that the members of a body make. -/
def ListingRequest.ofMembers (ms : Members) : Except (List Complaint) ListingRequest :=
  let source := requiredField ms "source" textField
  let tapeSize := optionalField ms "tape_size" defaultTapeSize integerField
  match source, tapeSize with
  | .ok source, .ok tapeSize => .ok ⟨source, tapeSize⟩
  | _, _ => .error (complaints source ++ complaints tapeSize)

/-- The request to execute that the members of a body make. -/
def RunRequest.ofMembers (ms : Members) : Except (List Complaint) RunRequest :=
  let source := requiredField ms "source" textField
  let input := optionalField ms "input" "" bytesField
  let tapeSize := optionalField ms "tape_size" defaultTapeSize
    (boundedField 1 (some maxRunTapeSize))
  let maxSteps := optionalField ms "max_steps" defaultMaxSteps (boundedField 1 none)
  match source, input, tapeSize, maxSteps with
  | .ok source, .ok input, .ok tapeSize, .ok maxSteps => .ok ⟨source, input, tapeSize, maxSteps⟩
  | _, _, _, _ =>
    .error (complaints source ++ complaints input ++ complaints tapeSize ++ complaints maxSteps)

/-! ### Bodies -/

/-- What the service reads of a body at most. -/
def bodyLimits : Json.Limits := ⟨968, Text.maxDigits⟩

/-- Why a body makes no request. -/
inductive BodyFault where
  /-- It cannot be decoded, or is beyond the limits. -/
  | unreadable
  | flawed (c : Complaint)

/-- The members of a body.  An empty body and `null` are no body at all. -/
def membersOfBody (body : String) : Except BodyFault Members :=
  if body = "" then .error (.flawed ⟨none, .missing, .null⟩)
  else
    match Json.letters? body with
    | none => .error .unreadable
    | some letters =>
      match Json.read bodyLimits letters with
      | .error .malformed => .error (.flawed ⟨none, .malformed, .record []⟩)
      | .error .tooDeep | .error .tooLong => .error .unreadable
      | .ok .null => .error (.flawed ⟨none, .missing, .null⟩)
      | .ok (.object ms) => .ok ms
      | .ok v => .error (.flawed ⟨none, .notAnObject, v⟩)

end TapeLang.Service
