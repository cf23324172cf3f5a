/-!
The eight symbols of the tape language.

A program is a sequence of symbols: two change the current cell, two move the data pointer, two
transfer a byte, and two delimit a loop.  Main statement: `ofChar?_eq_some_iff`, reading a
character as a symbol is the exact inverse of writing the symbol.
-/

namespace TapeLang

/-- A symbol of the tape language. -/
inductive Symbol where
  | increment
  | decrement
  | moveRight
  | moveLeft
  | read
  | write
  | loopOpen
  | loopClose
  deriving DecidableEq, Repr, Inhabited

namespace Symbol

/-- The character a symbol is written with. -/
def char : Symbol → Char
  | increment => '+'
  | decrement => '-'
  | moveRight => '>'
  | moveLeft => '<'
  | read => ','
  | write => '.'
  | loopOpen => '['
  | loopClose => ']'

/-- The symbol a character stands for, if it is one of the eight. -/
def ofChar? : Char → Option Symbol
  | '+' => some increment
  | '-' => some decrement
  | '>' => some moveRight
  | '<' => some moveLeft
  | ',' => some read
  | '.' => some write
  | '[' => some loopOpen
  | ']' => some loopClose
  | _ => none

/-- Both brackets get an instruction of their own; every other symbol is executed run by run. -/
def isBracket : Symbol → Bool
  | loopOpen | loopClose => true
  | _ => false

@[simp] theorem ofChar?_char (s : Symbol) : ofChar? s.char = some s := by
  cases s <;> rfl

theorem ofChar?_eq_some_iff {c : Char} {s : Symbol} : ofChar? c = some s ↔ c = s.char := by
  constructor
  · intro h
    unfold ofChar? at h
    split at h <;> simp_all [char] <;> (subst h; rfl)
  · rintro rfl
    exact ofChar?_char s

/-- A name is the symbol whose character it consists of. -/
def ofName? (name : String) : Option Symbol :=
  match name.toList with
  | [c] => ofChar? c
  | _ => none

/-- The one-character name of a symbol. -/
def name (s : Symbol) : String := s.char.toString

end Symbol

end TapeLang
