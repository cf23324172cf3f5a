import TapeLang.Assembly.Code
import TapeLang.Label
import TapeLang.Run

/-!
Generating code run by run.

The emitter holds the code written so far, the loop labels and the cursor.  It stops at the first
error and keeps what was written until then, also in the middle of a run of brackets.  A move inside
a loop makes the cursor uncertain for good, and from then on every move is corrected at run time.
-/

namespace TapeLang.Assembly

/-- Why no code can be generated for a run. -/
inductive EmitError where
  | source (error : SourceError)
  /-- A move on a tape without cells. -/
  | emptyTape
  deriving DecidableEq, Repr

/-- Code generation between two runs. -/
structure Emitter where
  size : Int
  code : Array Line
  labels : Labels
  cursor : Cursor
  error : Option EmitError
  deriving Repr

namespace Emitter

/-- Nothing was written yet. -/
def start (size : Int) : Emitter := ⟨size, #[], .empty, .start size, none⟩

/-- Write some lines. -/
def append (e : Emitter) (lines : List Line) : Emitter :=
  { e with code := e.code ++ lines }

/-- Write some lines `n` times. -/
def appendTimes (e : Emitter) (n : Nat) (lines : List Line) : Emitter :=
  e.append (List.replicate n lines).flatten

/-- Stop with an error. -/
def fail (e : Emitter) (error : EmitError) : Emitter := { e with error := some error }

/-- Move the cursor and write the code of the move. -/
def move (e : Emitter) (d : Direction) (count : Int) (checked : Bool) : Emitter :=
  match e.cursor.move? d count with
  | none => e.fail .emptyTape
  | some (m, cursor) => { e with cursor }.append (moveCode e.size d m checked)

/-- A move of the program: inside a loop the cursor loses its certainty first. -/
def runMove (e : Emitter) (d : Direction) (count : Nat) : Emitter :=
  let e := if e.labels.depth = 0 then e else { e with cursor := e.cursor.blur }
  e.move d count (!e.cursor.certain)

/-- Open a loop at a bracket. -/
def openLoop (e : Emitter) (t : Token) : Emitter :=
  let (n, labels) := e.labels.enter t.position
  { e with labels }.append (openCode n)

/-- Close a loop at a bracket, unless an earlier bracket of the run was refused. -/
def closeLoop (e : Emitter) (t : Token) : Emitter :=
  match e.error with
  | some _ => e
  | none =>
    match e.labels.leave t.position with
    | .error err => e.fail (.source err)
    | .ok (n, labels) => { e with labels }.append (closeCode n)

/-- Write the code of a run. -/
def run (e : Emitter) (r : Run) : Emitter :=
  match e.error with
  | some _ => e
  | none =>
    match r.symbol with
    | .increment => e.append (incrementCode r.count)
    | .decrement => e.append (decrementCode r.count)
    | .moveRight => e.runMove .right r.count
    | .moveLeft => e.runMove .left r.count
    | .read => e.appendTimes r.count readCode
    | .write => e.appendTimes r.count writeCode
    | .loopOpen => r.tokens.foldl openLoop e
    | .loopClose => r.tokens.foldl closeLoop e

end Emitter

/-- What is said of a kind of token that is not one of the eight symbols. -/
def unknownKindMessage (kind : String) : String := "unhandled token kind " ++ Text.quoted kind

end TapeLang.Assembly
