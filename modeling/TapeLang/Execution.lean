import TapeLang.Machine

/-!
Whole executions: from a source to its output, under a step budget, observed or not.

An execution without a budget is allowed `fuel` steps, and if that does not suffice its outcome is
`unsettled`; with a budget no such outcome exists.  An observer gets a snapshot after every
instruction and a last one at the end, and may stop asking after any number of them.
-/

namespace TapeLang

/-- What an observer sees of a machine. -/
structure Snapshot where
  /-- How many instructions were executed. -/
  step : Nat
  pc : Nat
  /-- The symbol executed last; none in the snapshot taken at the end. -/
  symbol : Option Symbol
  pointer : Nat
  output : Array UInt8
  deriving Repr

/-- The snapshot of a machine. -/
def Machine.snapshot (m : Machine) (step : Nat) (symbol : Option Symbol) : Snapshot :=
  ⟨step, m.pc, symbol, m.pointer, m.output⟩

/-- Why an execution yields no output. -/
inductive RunError (ε : Type) where
  | interrupted (i : Interruption ε)
  | stepLimit
  | fault (f : Fault)
  /-- The execution has no budget and did not end within its fuel. -/
  | unsettled
  deriving Repr

/-- What is said when a budget is exceeded. -/
def stepLimitMessage : String := "program exceeded allowed step count"

/-- How many steps an execution may take: its budget, where a negative one is none at all, or its
fuel if it has no budget. -/
def allowance (budget : Option Int) (fuel : Nat) : Nat :=
  match budget with
  | some m => m.toNat
  | none => fuel

/-- The outcome of an execution that used up its allowance. -/
def exhaustion {ε : Type} (budget : Option Int) : RunError ε :=
  match budget with
  | some _ => .stepLimit
  | none => .unsettled

/-- What is left of an execution: the machine and, if it ended by itself, the number of its
steps. -/
structure Execution (ε : Type) where
  machine : Machine
  result : Except (RunError ε) Nat

/-- Execute a source on a fresh tape of `size` cells. -/
def execute {ε : Type} (size : Nat) (source : Source ε) (input : List Int) (budget : Option Int)
    (fuel : Nat) : Execution ε :=
  match compile source with
  | .error i => ⟨.start size [], .error (.interrupted i)⟩
  | .ok p =>
    match p.runFor (allowance budget fuel) (.start size input) with
    | (m, .ended, steps) => ⟨m, .ok steps⟩
    | (m, .fault f, _) => ⟨m, .error (.fault f)⟩
    | (m, .paused, _) => ⟨m, .error (exhaustion budget)⟩

/-- Execute at most `n` instructions with a snapshot after each of them. -/
def Program.traceFrom (p : Program) :
    (n done : Nat) → Machine → Array Snapshot → Machine × Program.Halt × Array Snapshot
  | 0, _, m, seen => (m, if m.pc < p.code.size then .paused else .ended, seen)
  | n + 1, done, m, seen =>
    let symbol := (p.code[m.pc]?).map (·.symbol)
    match p.step m with
    | (m, .running) => p.traceFrom n (done + 1) m (seen.push (m.snapshot (done + 1) symbol))
    | (m, .ended) => (m, .ended, seen)
    | (m, .fault f) => (m, .fault f, seen)

/-- The snapshots of an execution, the machine they leave behind and the error met, if any. -/
structure Observation (ε : Type) where
  snapshots : Array Snapshot
  machine : Machine
  error : Option (RunError ε)

/-- Observe the execution of a source on a fresh tape of `size` cells, for `take` snapshots at most.
Asked for no snapshot, the execution does not start, and the machine `before` it stays. -/
def observe {ε : Type} (before : Machine) (source : Source ε) (input : List Int)
    (budget : Option Int) (take : Option Nat) (fuel : Nat) : Observation ε :=
  if take = some 0 then ⟨#[], before, none⟩
  else
    let size := before.tape.size
    match compile source with
    | .error i => ⟨#[], .start size [], some (.interrupted i)⟩
    | .ok p =>
      let allowed := allowance budget fuel
      let n := match take with
        | some k => min k allowed
        | none => allowed
      match p.traceFrom n 0 (.start size input) #[] with
      | (m, .fault f, seen) => ⟨seen, m, some (.fault f)⟩
      | (m, .ended, seen) =>
        let last := m.snapshot seen.size none
        ⟨if take = some seen.size then seen else seen.push last, m, none⟩
      | (m, .paused, seen) =>
        ⟨seen, m, if take = some n then none else some (exhaustion budget)⟩

end TapeLang
