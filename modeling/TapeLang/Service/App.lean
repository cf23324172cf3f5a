import TapeLang.Assembly.Listing
import TapeLang.Execution
import TapeLang.Service.Response
import TapeLang.Service.Route

/-!
The service: requests with a JSON body, answered with a status and a JSON body.

There are two actions, listing the code of a program and executing it.  The service sets an upper
bound on the step budget of executions, so every request comes to an end.  A program text that is
refused gets the same answer from both.
-/

namespace TapeLang.Service

open Json (Value Members)
open Text (Loose Letter)

/-- A service: the greatest step budget it grants. -/
structure App where
  stepCap : Int
  deriving DecidableEq, Repr

/-- A service with the given bound on step budgets; zero and none stand for the default. -/
def App.create (maxSteps : Option Int) : App :=
  match maxSteps with
  | none => ⟨defaultMaxSteps⟩
  | some n => ⟨if n = 0 then defaultMaxSteps else n⟩

/-- A request: what to do, with which body. -/
structure Request where
  method : String
  target : String
  body : String
  deriving Repr

/-! ### Programs -/

/-- The name of an error in answers. -/
def errorName : SourceError → String
  | .unexpectedToken _ _ => "UnexpectedToken"
  | .unmatchedClose _ => "UnmatchedLoopClose"
  | .unclosedLoop _ => "UnclosedLoop"

/-- The letter at a place of a text. -/
def letterAt? (text : Loose) (p : Position) : Option Letter :=
  ((text.letters.splitOnP (· == .char '\n'))[(p.line - 1).toNat]?).bind
    (·[(p.column - 1).toNat]?)

/-- An error in words.  The program was read with marks in place of halves of characters, so a mark
that was not expected may stand for one. -/
def errorMessage (source : Loose) (e : SourceError) : String :=
  match source.toString?, e with
  | none, .unexpectedToken c p =>
    "unexpected token " ++ ((letterAt? source p).getD (.char c)).quoted
  | _, e => e.message

@[simp] theorem errorMessage_ofString (s : String) (e : SourceError) :
    errorMessage (.ofString s) e = e.message := rfl

/-- The answer to a program text that is refused. -/
def sourceErrorDetail (source : Loose) (e : SourceError) : Value :=
  .record
    [("error", .text (errorName e)),
     ("message", .text (errorMessage source e)),
     ("line", .int e.position.line),
     ("column", .int e.position.column)]

/-- A program text that is given as a whole has no failing read. -/
def sourceErrorOf : Interruption Empty → SourceError
  | .invalid e => e

/-- List the code of a program. -/
def listingAnswer (r : ListingRequest) : Response :=
  let tape := TapeConfig.ofRequested r.tapeSize
  let l := Assembly.Listing.ofSource tape.size (.ofString r.source.shown : Source Empty)
  let log := tape.log ++ l.log
  match l.result with
  | .error (.interrupted i) => .refusal 422 (sourceErrorDetail r.source (sourceErrorOf i)) log
  | .error .emptyTape => .refusal 500 .null log
  | .ok s =>
    .json 200
      (.record
        [("assembly", .text l.text),
         ("tape_size", .int s.tapeSize),
         ("label_count", .int s.labelCount),
         ("run_count", .int s.runCount),
         ("final_pointer", .int s.finalPointer),
         ("notices", .array (tape.notices.map .text))])
      log

/-- Execute a program. -/
def runAnswer (app : App) (r : RunRequest) : Response :=
  let input := r.input.toList.map fun c => (c.toNat : Int)
  let e := execute r.tapeSize.toNat (.ofString r.source.shown : Source Empty) input
    (some (min r.maxSteps app.stepCap)) 0
  match e.result with
  | .error (.interrupted i) => .refusal 422 (sourceErrorDetail r.source (sourceErrorOf i)) []
  | .error .stepLimit | .error .unsettled => .refusal 409 (.text stepLimitMessage) []
  | .error (.fault _) => .refusal 500 .null []
  | .ok steps =>
    .json 200
      (.record [("output", .text (textOfBytes e.machine.output)), ("steps", .int steps)])
      [⟨.debug, .service, "ran program for " ++ toString steps ++ " steps"⟩]

/-! ### Requests -/

/-- Answer the request that a body makes. -/
def answer {ρ : Type} (body : String) (read : Members → Except (List Complaint) ρ)
    (act : ρ → Response) : Except Breakdown Response :=
  match membersOfBody body with
  | .error .unreadable => .ok (.refusal 400 (.text "There was an error parsing the body") [])
  | .error (.flawed c) => complaintAnswer [c]
  | .ok ms =>
    match read ms with
    | .error cs => complaintAnswer cs
    | .ok r => .ok (act r)

/-- Answer a request to a route. -/
def App.perform (app : App) (body : String) : Route → Except Breakdown Response
  | .listing => answer body ListingRequest.ofMembers listingAnswer
  | .run => answer body RunRequest.ofMembers (runAnswer app)
  | .page => .ok ⟨200, none, []⟩

/-- Answer a request.  Who asks for the head of an answer gets no body. -/
def App.handle (app : App) (r : Request) : Except Breakdown Response := do
  let octets ← (Target.resolve r.target).mapError .target
  let method := r.method.toUpper
  let response ← match route? octets with
    | none => pure (.refusal 404 (.text "Not Found") [])
    | some route =>
      if route.methods.contains method then app.perform r.body route
      else pure (.refusal 405 (.text "Method Not Allowed") [])
  return if method = "HEAD" then { response with body := none } else response

end TapeLang.Service
