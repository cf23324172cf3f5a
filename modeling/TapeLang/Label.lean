import TapeLang.Error

/-!
Loop labels: every opening bracket gets a fresh number, and a closing bracket gets the number of the
bracket it closes.

`Labels` holds the next number and the loops that are open, innermost first, each with the place of
its bracket.  A request that fails leaves the labels as they are.
-/

namespace TapeLang

/-- The numbers handed out so far and the loops that are open, innermost first. -/
structure Labels where
  /-- The number of the next loop, which is also how many were handed out. -/
  allocated : Nat
  /-- The open loops: number and place of the opening bracket. -/
  stack : List (Nat × Position)
  deriving DecidableEq, Repr

namespace Labels

/-- No loop was opened yet. -/
def empty : Labels := ⟨0, []⟩

/-- How many loops are open. -/
def depth (l : Labels) : Nat := l.stack.length

/-- Open a loop: its number, and the labels with it open. -/
def enter (l : Labels) (place : Position) : Nat × Labels :=
  (l.allocated, ⟨l.allocated + 1, (l.allocated, place) :: l.stack⟩)

/-- Close the innermost open loop: its number, and the labels without it. -/
def leave (l : Labels) (place : Position) : Except SourceError (Nat × Labels) :=
  match l.stack with
  | [] => .error (.unmatchedClose place)
  | (n, _) :: rest => .ok (n, ⟨l.allocated, rest⟩)

/-- At the end no loop may be open; the outermost one is reported. -/
def finish (l : Labels) : Except SourceError Unit :=
  match l.stack.getLast? with
  | none => .ok ()
  | some (_, place) => .error (.unclosedLoop place)

end Labels

end TapeLang
