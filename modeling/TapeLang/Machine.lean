import TapeLang.Cursor
import TapeLang.Program

/-!
Executing a program.

A machine has a tape of byte cells closed to a ring, the data pointer, the bytes written, the input
that is left and the index of the next instruction.  `Program.step` executes one instruction;
`Program.runFor` and `Program.trace` repeat it at most a given number of times, so that a budget, a
partial execution and an execution without end are the same function at different counts.
-/

namespace TapeLang

/-- The state of an execution between two instructions. -/
structure Machine where
  tape : Array UInt8
  pointer : Nat
  output : Array UInt8
  input : List Int
  pc : Nat
  deriving Repr

namespace Machine

/-- A machine with `size` zero cells, ready to read `input`. -/
def start (size : Nat) (input : List Int) : Machine := ⟨Array.replicate size 0, 0, #[], input, 0⟩

/-- Sizes from here on are no index into memory. -/
def indexLimit : Int := 9223372036854775808

/-- Sizes from here on do not fit into memory. -/
def memoryLimit : Int := 68719476736

/-- Why there is no tape of some size. -/
inductive SizeFault where
  | negative
  | noIndex
  | noMemory
  deriving DecidableEq, Repr

/-- The fault in words. -/
def SizeFault.message : SizeFault → String
  | negative => "negative count"
  | noIndex => "cannot fit 'int' into an index-sized integer"
  | noMemory => ""

/-- The number of cells of a tape with the given size. -/
def cellCount (size : Int) : Except SizeFault Nat :=
  if size < -indexLimit || indexLimit ≤ size then .error .noIndex
  else if size < 0 then .error .negative
  else if memoryLimit ≤ size then .error .noMemory
  else .ok size.toNat

/-- The cells that are not zero, by index. -/
def nonZeroCells (m : Machine) : List (Nat × UInt8) :=
  (m.tape.foldl (fun (i, found) v => (i + 1, if v = 0 then found else (i, v) :: found))
    (0, [])).2.reverse

end Machine

/-- What an execution can stumble over; neither happens on a tape with at least one cell. -/
inductive Fault where
  /-- There is no cell under the pointer. -/
  | noCell
  /-- A move on a tape without cells. -/
  | emptyTape
  deriving DecidableEq, Repr

/-- What became of an instruction. -/
inductive Signal where
  /-- It was executed. -/
  | running
  /-- There was none left. -/
  | ended
  /-- It could not be executed. -/
  | fault (f : Fault)
  deriving DecidableEq, Repr

/-- Bytes as text, one character for each byte. -/
def textOfBytes (bytes : Array UInt8) : String :=
  bytes.foldl (fun s b => s.push (Char.ofNat b.toNat)) ""

/-- The byte an input item stands for. -/
def byteOf (x : Int) : UInt8 := UInt8.ofNat (x % 256).toNat

namespace Machine

/-- Apply a change to the cell under the pointer. -/
def changeCell (change : UInt8 → UInt8) : Machine → Machine × Signal
  | ⟨tape, pointer, output, input, pc⟩ =>
    if h : pointer < tape.size then
      let v := tape[pointer]
      (⟨tape.set pointer (change v), pointer, output, input, pc + 1⟩, .running)
    else (⟨tape, pointer, output, input, pc⟩, .fault .noCell)

/-- Move the pointer along the ring. -/
def shift (d : Direction) (count : Nat) : Machine → Machine × Signal
  | ⟨tape, pointer, output, input, pc⟩ =>
    if tape.size = 0 then (⟨tape, pointer, output, input, pc⟩, .fault .emptyTape)
    else
      let pointer := match d with
        | .right => (pointer + count) % tape.size
        | .left => (pointer + (tape.size - count % tape.size)) % tape.size
      (⟨tape, pointer, output, input, pc + 1⟩, .running)

/-- Write the cell under the pointer `count` times. -/
def write (count : Nat) : Machine → Machine × Signal
  | ⟨tape, pointer, output, input, pc⟩ =>
    match tape[pointer]? with
    | some v => (⟨tape, pointer, output ++ Array.replicate count v, input, pc + 1⟩, .running)
    | none => (⟨tape, pointer, output, input, pc⟩, .fault .noCell)

/-- Read up to `count` items: the last one read stays in the cell, and where none is left the cell
is not touched. -/
def read (count : Nat) : Machine → Machine × Signal
  | ⟨tape, pointer, output, input, pc⟩ =>
    match (input.take count).getLast? with
    | none => (⟨tape, pointer, output, input, pc + 1⟩, .running)
    | some x =>
      if h : pointer < tape.size then
        (⟨tape.set pointer (byteOf x), pointer, output, input.drop count, pc + 1⟩, .running)
      else (⟨tape, pointer, output, input, pc⟩, .fault .noCell)

/-- Go behind the partner of the current bracket if the cell under the pointer is as `takeJump`
asks, else to the next instruction. -/
def branch (takeJump : UInt8 → Bool) (partner : Nat) : Machine → Machine × Signal
  | ⟨tape, pointer, output, input, pc⟩ =>
    match tape[pointer]? with
    | some v => (⟨tape, pointer, output, input, (if takeJump v then partner else pc) + 1⟩, .running)
    | none => (⟨tape, pointer, output, input, pc⟩, .fault .noCell)

/-- Execute an instruction whose partner, if it is a bracket, is at index `partner`. -/
def exec (i : Instruction) (partner : Nat) (m : Machine) : Machine × Signal :=
  match i.symbol with
  | .increment => m.changeCell (· + UInt8.ofNat i.count)
  | .decrement => m.changeCell (· - UInt8.ofNat i.count)
  | .moveRight => m.shift .right i.count
  | .moveLeft => m.shift .left i.count
  | .read => m.read i.count
  | .write => m.write i.count
  | .loopOpen => m.branch (· == 0) partner
  | .loopClose => m.branch (· != 0) partner

end Machine

namespace Program

/-- Execute the next instruction, if there is one. -/
def step (p : Program) (m : Machine) : Machine × Signal :=
  match p.code[m.pc]? with
  | none => (m, .ended)
  | some i => m.exec i ((p.jump? m.pc).getD m.pc)

/-- How an execution that was allowed a number of steps ends. -/
inductive Halt where
  | ended
  | fault (f : Fault)
  /-- All steps were used and instructions are left. -/
  | paused
  deriving DecidableEq, Repr

/-- Execute at most `n` instructions: the machine then, how it ended and how many were executed,
counted from `done`. -/
def runFrom (p : Program) : (n : Nat) → (done : Nat) → Machine → Machine × Halt × Nat
  | 0, done, m => (m, if m.pc < p.code.size then .paused else .ended, done)
  | n + 1, done, m =>
    match p.step m with
    | (m, .running) => p.runFrom n (done + 1) m
    | (m, .ended) => (m, .ended, done)
    | (m, .fault f) => (m, .fault f, done)

/-- Execute at most `n` instructions. -/
def runFor (p : Program) (n : Nat) (m : Machine) : Machine × Halt × Nat := p.runFrom n 0 m

end Program

end TapeLang
