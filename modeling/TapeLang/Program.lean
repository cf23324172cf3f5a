import TapeLang.Label
import TapeLang.Run

/-!
Executable programs: one instruction for each run, one for each bracket, and a table that leads from
a bracket to its partner.
-/

namespace TapeLang

/-- A symbol to be executed `count` times. -/
structure Instruction where
  symbol : Symbol
  count : Nat
  deriving DecidableEq, Repr

/-- Instructions, with the partner of each bracket in a second array of the same length. -/
structure Program where
  code : Array Instruction
  jumps : Array (Option Nat)
  deriving Repr

namespace Program

/-- The partner of the bracket at an index. -/
def jump? (p : Program) (i : Nat) : Option Nat := p.jumps[i]?.join

/-- All pairs of a bracket and its partner, by the index of the bracket. -/
def jumpList (p : Program) : List (Nat × Nat) :=
  (List.range p.jumps.size).filterMap fun i => (p.jump? i).map (i, ·)

end Program

/-- The state of flattening runs into a program. -/
structure Flattening where
  code : Array Instruction
  jumps : Array (Option Nat)
  labels : Labels
  /-- The index of the opening bracket of each loop, by its number. -/
  starts : Array Nat
  error : Option SourceError
  deriving Repr

namespace Flattening

/-- Nothing was flattened yet. -/
def start : Flattening := ⟨#[], #[], .empty, #[], none⟩

/-- An instruction without a partner. -/
def push (f : Flattening) (i : Instruction) : Flattening :=
  { f with code := f.code.push i, jumps := f.jumps.push none }

/-- The instruction of an opening bracket, whose partner is not known yet. -/
def openLoop : Flattening → Token → Flattening
  | ⟨code, jumps, labels, starts, error⟩, t =>
    let here := code.size
    ⟨code.push ⟨.loopOpen, 1⟩, jumps.push none, (labels.enter t.position).2, starts.push here,
      error⟩

/-- The instruction of a closing bracket, which is now the partner of the bracket it closes. -/
def closeLoop : Flattening → Token → Flattening
  | ⟨code, jumps, labels, starts, some e⟩, _ => ⟨code, jumps, labels, starts, some e⟩
  | ⟨code, jumps, labels, starts, none⟩, t =>
    match labels.leave t.position with
    | .error e => ⟨code, jumps, labels, starts, some e⟩
    | .ok (n, labels) =>
      let start := starts[n]?.getD 0
      let here := code.size
      ⟨code.push ⟨.loopClose, 1⟩, (jumps.setIfInBounds start (some here)).push (some start),
        labels, starts, none⟩

/-- The instructions of a run. -/
def run (f : Flattening) (r : Run) : Flattening :=
  match f.error with
  | some _ => f
  | none =>
    match r.symbol with
    | .loopOpen => r.tokens.foldl openLoop f
    | .loopClose => r.tokens.foldl closeLoop f
    | s => f.push ⟨s, r.count⟩

end Flattening

/-- Flatten the runs of a source.  Errors surface in the order of the text, as in a listing. -/
def flatten {ε : Type} (rs : Runs ε) : Except (Interruption ε) Program :=
  let f := rs.runs.foldl Flattening.run Flattening.start
  match f.error, rs.stop, f.labels.finish with
  | some e, _, _ => .error (.invalid e)
  | none, some stop, _ => .error stop
  | none, none, .error e => .error (.invalid e)
  | none, none, .ok _ => .ok ⟨f.code, f.jumps⟩

/-- The program of a source. -/
def compile {ε : Type} (source : Source ε) : Except (Interruption ε) Program :=
  flatten (runsOf source)

end TapeLang
