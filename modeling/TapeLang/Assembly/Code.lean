import TapeLang.Assembly.Line
import TapeLang.Cursor

/-!
The code of each construct of the tape language.

Changes of a cell, transfers and loops have fixed code.  A move adds the reduced count to the
pointer or subtracts it, and is followed by a correction where one may be needed: after an addition
the pointer is replaced by itself less the size unless that borrows, after a subtraction that
borrowed the size is added back.  Constants that do not fit the immediate field of an addition are
loaded into a register first.
-/

namespace TapeLang.Assembly

open Instr

/-- The cell under the data pointer. -/
def currentCell : Address := .cell .r10 .r9

/-- The largest constant that additions and subtractions take as they are. -/
def maxImmediate : Int := 2147483647

/-- Set up the tape and enter the program. -/
def prologue (size : Int) : List Line :=
  [.setTapeSize size, .blank, .enter .bss, .reserveTape, .blank, .enter .text, .exportStart, .blank,
   .label .start, .instr (xor .r9 .r9), .instr (lea .tape .r10)]

/-- Leave the program with status zero. -/
def epilogue : List Line :=
  [.instr (mov (.imm 60) .eax), .instr (xor .edi .edi), .instr syscall]

/-- Add to the current cell, which counts modulo 256. -/
def incrementCode (count : Nat) : List Line := [.instr (addb (count % 256 : Nat) currentCell)]

/-- Subtract from the current cell, which counts modulo 256. -/
def decrementCode (count : Nat) : List Line := [.instr (subb (count % 256 : Nat) currentCell)]

/-- Read one byte into the current cell; at the end of the input nothing is stored. -/
def readCode : List Line :=
  [.instr (xor .eax .eax), .instr (xor .edi .edi), .instr (lea currentCell .rsi),
   .instr (mov (.imm 1) .edx), .instr syscall]

/-- Write the current cell. -/
def writeCode : List Line :=
  [.instr (mov (.imm 1) .eax), .instr (mov (.imm 1) .edi), .instr (lea currentCell .rsi),
   .instr (mov (.imm 1) .edx), .instr syscall]

/-- Enter loop `n`, or skip it if the current cell is zero. -/
def openCode (n : Nat) : List Line :=
  [.blank, .label (.loopHead n), .instr (cmpb 0 currentCell), .instr (je (.loopTail n))]

/-- Repeat loop `n`, or leave it if the current cell is zero. -/
def closeCode (n : Nat) : List Line :=
  [.instr (cmpb 0 currentCell), .instr (jne (.loopHead n)), .blank, .label (.loopTail n)]

/-- Change the pointer by a step without regard to the ends of the tape. -/
def shiftCode (d : Direction) (step : Int) : List Line :=
  let op (source : Operand) : Line := match d with
    | .right => .instr (add source .r9)
    | .left => .instr (sub source .r9)
  if step ≤ maxImmediate then [op (.imm step)]
  else [.instr (movabs step .rcx), op (.reg .rcx)]

/-- Bring the pointer back onto a tape of `size` cells after a shift. -/
def wrapCode (d : Direction) (size : Int) : List Line :=
  match d with
  | .right =>
    [.instr (movabs size .r11), .instr (mov (.reg .r9) .rcx), .instr (sub (.reg .r11) .rcx),
     .instr (cmovae .rcx .r9)]
  | .left =>
    [.instr (movabs size .r11), .instr (lea (.sum .r9 .r11) .rcx), .instr (cmovb .rcx .r9)]

/-- The code of a move.  If it is `checked`, it is corrected at run time whether or not the move is
known to wrap. -/
def moveCode (size : Int) (d : Direction) (m : Move) (checked : Bool) : List Line :=
  if m.step = 0 then []
  else shiftCode d m.step ++ (if m.wraps || checked then wrapCode d size else [])

end TapeLang.Assembly
