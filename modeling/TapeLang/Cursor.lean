/-!
The data pointer as far as it is known before the program runs.

A cursor stands on a ring of `size` cells.  Moving it by a count first reduces the count modulo the
size, so that one correction by the size brings the result back onto the ring; `Move.wraps` says
whether that correction is needed.  Remainders take the sign of the divisor, and a ring without
cells has no moves at all.
-/

namespace TapeLang

/-- The two ways to move along the tape. -/
inductive Direction where
  | right
  | left
  deriving DecidableEq, Repr

/-- What one move amounts to. -/
structure Move where
  /-- The count, reduced modulo the size. -/
  step : Int
  /-- Whether the step leads over the end of the tape. -/
  wraps : Bool
  before : Int
  after : Int
  deriving DecidableEq, Repr

/-- The data pointer on a ring of `size` cells, as tracked while code is generated. -/
structure Cursor where
  size : Int
  offset : Int
  /-- Whether the running program is certain to stand at `offset`. -/
  certain : Bool
  deriving DecidableEq, Repr

namespace Cursor

/-- The cursor of a program that has not moved yet. -/
def start (size : Int) : Cursor := ⟨size, 0, true⟩

/-- What a move by `count` does, for a ring that is not empty. -/
def moveOf (c : Cursor) (d : Direction) (count : Int) : Move :=
  let step := count.fmod c.size
  match d with
  | .right => ⟨step, c.size ≤ c.offset + step, c.offset, (c.offset + step).fmod c.size⟩
  | .left => ⟨step, c.offset - step < 0, c.offset, (c.offset - step).fmod c.size⟩

/-- Move the cursor.  On an empty ring there is no move. -/
def move? (c : Cursor) (d : Direction) (count : Int) : Option (Move × Cursor) :=
  if c.size = 0 then none
  else
    let m := c.moveOf d count
    some (m, { c with offset := m.after })

/-- From now on the running program may stand elsewhere. -/
def blur (c : Cursor) : Cursor := { c with certain := false }

end Cursor

end TapeLang
