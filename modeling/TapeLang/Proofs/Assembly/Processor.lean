import Mathlib.Algebra.Group.Nat.Defs
import Mathlib.Logic.Function.Iterate
import TapeLang.Assembly.Code
import TapeLang.Proofs.Assembly.Reading

/-!
A 64-bit processor for listings.

A listing is loaded as an image: its instructions in order, the table of its labels and the number
of bytes it reserves for the tape.  The processor has the registers that generated code names, the
carry and the zero flag, byte memory, and the standard input and output of the process.  Registers
count modulo `2 ^ 64`; a name for the lower half of a register reads and clears the upper half away.
Additions, subtractions and comparisons set the flags, copies and address computations do not.

Two things are not decided by the listing: where the tape lies, and what a system call leaves in
`rax`, `rcx` and `r11`.  Both come from a `Host`, and every theorem is about all hosts.  What was in
registers, flags and other memory before the start is not fixed either; `Fresh` only asks for a
cleared tape.
-/

namespace TapeLang.Assembly

open Function

/-- The contents of a register, or an address. -/
abbrev Word := BitVec 64

/-! ### Images -/

/-- The instruction on a line, if there is one. -/
def Line.instr? : Line → Option Instr
  | .instr i => some i
  | _ => none

/-- The instructions of some lines. -/
def instrs (lines : List Line) : List Instr := lines.filterMap Line.instr?

/-- The labels of some lines, each with the index of the instruction it stands before, counted from
`n`. -/
def labelTable : Nat → List Line → List (Label × Nat)
  | _, [] => []
  | n, .label l :: rest => (l, n) :: labelTable n rest
  | n, .instr _ :: rest => labelTable (n + 1) rest
  | n, _ :: rest => labelTable n rest

/-- How many bytes the directives reserve for the tape. -/
def reserved? (lines : List Line) : Option Int :=
  if .reserveTape ∈ lines then
    lines.findSome? fun
      | .setTapeSize n => some n
      | _ => none
  else none

/-- A loaded listing. -/
structure Image where
  code : List Instr
  labels : List (Label × Nat)
  /-- How many bytes the tape has. -/
  cells : Int

namespace Image

/-- Load some lines.  No label may be defined twice. -/
def ofLines? (lines : List Line) : Option Image :=
  if ((labelTable 0 lines).map Prod.fst).Nodup then
    (reserved? lines).map fun n => ⟨instrs lines, labelTable 0 lines, n⟩
  else none

/-- Load a written listing. -/
def ofText? (text : String) : Option Image := (readListing? text).bind ofLines?

/-- Where a label leads to. -/
def target? (img : Image) (l : Label) : Option Nat := img.labels.lookup l

end Image

/-! ### The processor -/

/-- Whether a process still runs. -/
inductive Status where
  | running
  | exited (code : Word)
  /-- There is no instruction to execute, no place to jump to, or no such system call. -/
  | stuck
  deriving DecidableEq

/-- The state of the processor and its process between two instructions. -/
structure Cpu where
  /-- The whole register that a name stands for. -/
  regs : Reg → Word
  carry : Bool
  zero : Bool
  memory : Word → UInt8
  input : List UInt8
  output : List UInt8
  /-- How many system calls were made. -/
  calls : Nat
  pc : Nat
  status : Status

/-- What the process finds around it. -/
structure Host where
  /-- The address of the tape. -/
  base : Word
  /-- What a system call leaves in the registers it does not keep, by the number of the call. -/
  leftover : Nat → Reg → Word

/-- How many bits of its register a name stands for. -/
def Reg.width : Reg → Nat
  | .eax | .edi | .edx => 32
  | _ => 64

/-- The part of a value that goes through a register name. -/
def Reg.fit (r : Reg) (v : Word) : Word := (v.setWidth r.width).setWidth 64

namespace Cpu

/-- Read a register. -/
def get (c : Cpu) (r : Reg) : Word := r.fit (c.regs r)

/-- Write a register; writing the lower half clears the upper one. -/
def set (c : Cpu) (r : Reg) (v : Word) : Cpu := { c with regs := update c.regs r (r.fit v) }

/-- Set both flags. -/
def flag (c : Cpu) (carry zero : Bool) : Cpu := { c with carry, zero }

/-- Write a byte of memory. -/
def store (c : Cpu) (a : Word) (v : UInt8) : Cpu := { c with memory := update c.memory a v }

/-- Go on with the next instruction. -/
def next (c : Cpu) : Cpu := { c with pc := c.pc + 1 }

/-- The value of a source operand. -/
def value (c : Cpu) : Operand → Word
  | .imm n => .ofInt 64 n
  | .reg r => c.get r

/-- The address a memory operand stands for. -/
def address (h : Host) (c : Cpu) : Address → Word
  | .tape => h.base
  | .sum base index => c.regs base + c.regs index
  | .cell base index => c.regs base + c.regs index

/-- Go to a label. -/
def jump (img : Image) (c : Cpu) (l : Label) : Cpu :=
  match img.target? l with
  | some n => { c with pc := n }
  | none => { c with status := .stuck }

/-- Ask the host for something: `read` one byte from descriptor 0, `write` one byte to descriptor 1,
or `exit`.  At the end of the input a read stores nothing. -/
def call (h : Host) (c : Cpu) : Cpu :=
  let after : Cpu := { c with
    calls := c.calls + 1
    regs := fun r => if r = .eax ∨ r = .rcx ∨ r = .r11 then h.leftover c.calls r else c.regs r }
  if c.regs .eax = 0 ∧ c.regs .edi = 0 ∧ c.regs .edx = 1 then
    match c.input with
    | [] => after
    | b :: rest => { after with input := rest }.store (c.regs .rsi) b
  else if c.regs .eax = 1 ∧ c.regs .edi = 1 ∧ c.regs .edx = 1 then
    { after with output := c.output ++ [c.memory (c.regs .rsi)] }
  else if c.regs .eax = 60 then { c with status := .exited (c.regs .edi) }
  else { c with status := .stuck }

/-- Execute an instruction. -/
def exec (h : Host) (img : Image) (c : Cpu) : Instr → Cpu
  | .xor s t =>
    let v := c.get s ^^^ c.get t
    (c.next.set t v).flag false (v == 0)
  | .mov s t => c.next.set t (c.value s)
  | .movabs n t => c.next.set t (.ofInt 64 n)
  | .lea a t => c.next.set t (c.address h a)
  | .add s t =>
    let a := c.get t
    let b := t.fit (c.value s)
    (c.next.set t (a + b)).flag (2 ^ t.width ≤ a.toNat + b.toNat) (t.fit (a + b) == 0)
  | .sub s t =>
    let a := c.get t
    let b := t.fit (c.value s)
    (c.next.set t (a - b)).flag (a.toNat < b.toNat) (t.fit (a - b) == 0)
  | .cmovae s t => c.next.set t (if c.carry then c.get t else c.get s)
  | .cmovb s t => c.next.set t (if c.carry then c.get s else c.get t)
  | .addb n a =>
    let v := c.memory (c.address h a)
    let b := UInt8.ofInt n
    (c.next.store (c.address h a) (v + b)).flag (256 ≤ v.toNat + b.toNat) (v + b == 0)
  | .subb n a =>
    let v := c.memory (c.address h a)
    let b := UInt8.ofInt n
    (c.next.store (c.address h a) (v - b)).flag (v < b) (v - b == 0)
  | .cmpb n a =>
    let v := c.memory (c.address h a)
    let b := UInt8.ofInt n
    c.next.flag (v < b) (v == b)
  | .je l => if c.zero then c.jump img l else c.next
  | .jne l => if c.zero then c.next else c.jump img l
  | .syscall => c.next.call h

/-- Execute the next instruction.  A process that has ended stays as it is. -/
def step (h : Host) (img : Image) (c : Cpu) : Cpu :=
  match c.status with
  | .running =>
    match img.code[c.pc]? with
    | some i => c.exec h img i
    | none => { c with status := .stuck }
  | _ => c

/-- Execute `n` instructions. -/
def run (h : Host) (img : Image) (n : Nat) (c : Cpu) : Cpu := (step h img)^[n] c

end Cpu

/-- A process about to start: it stands at the entry point, nothing was read or written, and the
bytes reserved for the tape are zero. -/
structure Fresh (h : Host) (img : Image) (input : List UInt8) (c : Cpu) : Prop where
  running : c.status = .running
  entry : img.target? .start = some c.pc
  input : c.input = input
  output : c.output = []
  cleared : ∀ i : Nat, i < img.cells → c.memory (h.base + BitVec.ofNat 64 i) = 0

end TapeLang.Assembly
