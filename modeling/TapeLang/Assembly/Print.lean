import TapeLang.Assembly.Line

/-!
The written form of a listing.

An instruction is indented by four columns, its mnemonic fills eight, and its first operand with the
comma fills sixteen.  Where the first operand is a computed constant the columns after it are not
adjusted: a fixed gap follows, whatever the length of the constant.
-/

namespace TapeLang.Assembly

/-- `n` blanks. -/
def blanks (n : Nat) : String := String.ofList (List.replicate n ' ')

/-- The text followed by blanks up to `width` columns. -/
def padded (width : Nat) (s : String) : String := s ++ blanks (width - s.length)

def Reg.render : Reg → String
  | r9 => "%r9"
  | r10 => "%r10"
  | r11 => "%r11"
  | rcx => "%rcx"
  | rsi => "%rsi"
  | eax => "%eax"
  | edi => "%edi"
  | edx => "%edx"

def Label.render : Label → String
  | start => "_start"
  | loopHead n => "loop" ++ toString n
  | loopTail n => "loop" ++ toString n ++ "_end"

def Address.render : Address → String
  | tape => "tape(%rip)"
  | sum base index => "(" ++ base.render ++ ", " ++ index.render ++ ")"
  | cell base index => "(" ++ base.render ++ ", " ++ index.render ++ ", 1)"

/-- A constant operand. -/
def renderImm (n : Int) : String := "$" ++ toString n

def Operand.render : Operand → String
  | imm n => renderImm n
  | reg r => r.render

/-- An instruction with two operands, the second in a column of its own. -/
def aligned (mnemonic first second : String) : String :=
  blanks 4 ++ padded 8 mnemonic ++ padded 16 (first ++ ",") ++ second

/-- An instruction with two operands, `gap` blanks apart. -/
def spaced (gap : Nat) (mnemonic first second : String) : String :=
  blanks 4 ++ padded 8 mnemonic ++ first ++ "," ++ blanks gap ++ second

/-- An instruction with one operand. -/
def unary (mnemonic operand : String) : String := blanks 4 ++ padded 8 mnemonic ++ operand

/-- A computed constant is followed by thirteen blanks. -/
def renderArith (mnemonic : String) (source : Operand) (target : Reg) : String :=
  match source with
  | .imm n => spaced 13 mnemonic (renderImm n) target.render
  | .reg r => aligned mnemonic r.render target.render

def Instr.render : Instr → String
  | xor s t => aligned "xor" s.render t.render
  | mov s t => aligned "mov" s.render t.render
  | movabs n t => spaced 5 "movabs" (renderImm n) t.render
  | lea s t => aligned "lea" s.render t.render
  | add s t => renderArith "add" s t
  | sub s t => renderArith "sub" s t
  | cmovae s t => aligned "cmovae" s.render t.render
  | cmovb s t => aligned "cmovb" s.render t.render
  | addb n t => spaced 13 "addb" (renderImm n) t.render
  | subb n t => spaced 13 "subb" (renderImm n) t.render
  | cmpb n t => aligned "cmpb" (renderImm n) t.render
  | je l => unary "je" l.render
  | jne l => unary "jne" l.render
  | syscall => blanks 4 ++ "syscall"

def Section.render : Section → String
  | bss => ".bss"
  | text => ".text"

/-- A line without its end. -/
def Line.render : Line → String
  | blank => ""
  | setTapeSize n => ".set tape_size, " ++ toString n
  | enter s => ".section " ++ s.render
  | reserveTape => ".lcomm tape, tape_size"
  | exportStart => ".global _start"
  | label l => l.render ++ ":"
  | instr i => i.render

/-- A listing: every line is ended by a line feed. -/
def render (lines : Array Line) : String :=
  lines.foldl (fun text line => text ++ line.render ++ "\n") ""

end TapeLang.Assembly
