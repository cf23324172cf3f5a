/-!
The assembly language that programs are compiled to.

A listing is a list of lines: the directives that set up tape and entry point, labels, and x86-64
instructions.  Only the registers and instruction forms that generated code uses exist here, with
the operands in source-before-destination order.  `r9` holds the data pointer as an offset from the
start of the tape and `r10` the address of the tape; `rcx` and `r11` are scratch.
-/

namespace TapeLang.Assembly

/-- A register, in the width it is written with. -/
inductive Reg where
  | r9
  | r10
  | r11
  | rcx
  | rsi
  | eax
  | edi
  | edx
  deriving DecidableEq, Repr

/-- A place in the code that can be jumped to. -/
inductive Label where
  /-- The entry point. -/
  | start
  /-- The beginning of a loop. -/
  | loopHead (n : Nat)
  /-- The code after a loop. -/
  | loopTail (n : Nat)
  deriving DecidableEq, Repr

/-- A memory operand. -/
inductive Address where
  /-- The first cell of the tape, relative to the instruction. -/
  | tape
  /-- The sum of two registers. -/
  | sum (base index : Reg)
  /-- The cell at an index, counted in bytes from a base. -/
  | cell (base index : Reg)
  deriving DecidableEq, Repr

/-- A source operand: a constant or a register. -/
inductive Operand where
  | imm (value : Int)
  | reg (r : Reg)
  deriving DecidableEq, Repr

/-- An instruction. -/
inductive Instr where
  | xor (source target : Reg)
  | mov (source : Operand) (target : Reg)
  | movabs (value : Int) (target : Reg)
  | lea (source : Address) (target : Reg)
  | add (source : Operand) (target : Reg)
  | sub (source : Operand) (target : Reg)
  /-- Copy if the carry flag is clear. -/
  | cmovae (source target : Reg)
  /-- Copy if the carry flag is set. -/
  | cmovb (source target : Reg)
  | addb (value : Int) (target : Address)
  | subb (value : Int) (target : Address)
  | cmpb (value : Int) (target : Address)
  | je (target : Label)
  | jne (target : Label)
  | syscall
  deriving DecidableEq, Repr

/-- A section of the object file. -/
inductive Section where
  | bss
  | text
  deriving DecidableEq, Repr

/-- A line of a listing. -/
inductive Line where
  | blank
  /-- Give the size of the tape a name. -/
  | setTapeSize (size : Int)
  | enter (s : Section)
  /-- Reserve the cells of the tape, all zero. -/
  | reserveTape
  /-- Make the entry point visible to the linker. -/
  | exportStart
  | label (l : Label)
  | instr (i : Instr)
  deriving DecidableEq, Repr

end TapeLang.Assembly
