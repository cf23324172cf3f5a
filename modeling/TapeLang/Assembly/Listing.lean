import TapeLang.Assembly.Emit
import TapeLang.Assembly.Print
import TapeLang.Log

/-!
The assembly listing of a program.

The prologue is followed by the code of the runs and, if every loop was closed, by the epilogue.
Errors surface in the order of the text: what the runs themselves get wrong comes before what ended
the text, and a loop that is still open is reported last.  The code written up to an error is kept.
-/

namespace TapeLang.Assembly

/-- What a complete listing is known by. -/
structure Summary where
  tapeSize : Int
  runCount : Nat
  labelCount : Nat
  /-- Where the cursor stands at the end. -/
  finalPointer : Int
  deriving DecidableEq, Repr

/-- Why a listing is not complete. -/
inductive ListingError (ε : Type) where
  | interrupted (i : Interruption ε)
  /-- A move on a tape without cells. -/
  | emptyTape
  deriving DecidableEq, Repr

/-- An error of the emitter ends the listing. -/
def ListingError.ofEmit {ε : Type} : EmitError → ListingError ε
  | .source e => .interrupted (.invalid e)
  | .emptyTape => .emptyTape

/-- The lines written for a program, and whether they are all of it. -/
structure Listing (ε : Type) where
  code : Array Line
  result : Except (ListingError ε) Summary

namespace Listing

variable {ε : Type}

/-- The listing of the runs of a source, for a tape of `size` cells. -/
def ofRuns (size : Int) (rs : Runs ε) : Listing ε :=
  let e := rs.runs.foldl Emitter.run ((Emitter.start size).append (prologue size))
  match e.error, rs.stop, e.labels.finish with
  | some err, _, _ => ⟨e.code, .error (.ofEmit err)⟩
  | none, some stop, _ => ⟨e.code, .error (.interrupted stop)⟩
  | none, none, .error err => ⟨e.code, .error (.interrupted (.invalid err))⟩
  | none, none, .ok _ =>
    ⟨(e.append epilogue).code, .ok ⟨size, rs.runs.length, e.labels.allocated, e.cursor.offset⟩⟩

/-- The listing of a source, for a tape of `size` cells. -/
def ofSource (size : Int) (source : Source ε) : Listing ε := ofRuns size (runsOf source)

/-- The text of the lines written. -/
def text (l : Listing ε) : String := render l.code

/-- A complete listing is put on record. -/
def log (l : Listing ε) : List LogEntry :=
  match l.result with
  | .error _ => []
  | .ok s =>
    [⟨.debug, .listing, "translated " ++ toString s.runCount ++ " runs, " ++
      toString s.labelCount ++ " loops, final pointer " ++ toString s.finalPointer⟩]

end Listing

end TapeLang.Assembly
