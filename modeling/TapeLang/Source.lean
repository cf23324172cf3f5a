/-!
Program text that arrives in pieces.

A source delivers pieces of text until it ends or a read fails with some failure of type `ε`.  An
empty piece is the end of the text: whatever would come after it, a failure included, is never
reached.  A whole string is the source with one piece, and with `ε := Empty` it has no failing read.
-/

namespace TapeLang

/-- A text delivered in pieces, possibly cut short by a failing read. -/
structure Source (ε : Type) where
  /-- What successive reads return. -/
  chunks : List String
  /-- How the read after the last chunk fails, if it does. -/
  failure : Option ε
  deriving Repr

namespace Source

variable {ε : Type}

/-- The whole text in one piece. -/
def ofString (s : String) : Source ε := ⟨[s], none⟩

/-- The pieces that are delivered: those before the first empty one. -/
def pieces (s : Source ε) : List String := s.chunks.takeWhile (· ≠ "")

/-- The failure that ends the delivery, unless an empty piece has ended it before. -/
def outcome (s : Source ε) : Option ε :=
  if s.chunks.all (· ≠ "") then s.failure else none

/-- The characters that are delivered. -/
def text (s : Source ε) : List Char := s.pieces.flatMap String.toList

end Source

/-- The list cut into parts of `n + 1` elements, the last part possibly shorter. -/
def piecesOf {α : Type} (n : Nat) (xs : List α) : List (List α) :=
  match xs with
  | [] => []
  | x :: rest => (x :: rest.take n) :: piecesOf n (rest.drop n)
termination_by xs.length
decreasing_by simp only [List.length_drop, List.length_cons]; omega

/-- How many characters a stream hands out at a time. -/
def chunkLength : Nat := 4096

/-- A text delivered in pieces of `chunkLength` characters. -/
def Source.streamed {ε : Type} (text : List Char) : Source ε :=
  ⟨(piecesOf (chunkLength - 1) text).map String.ofList, none⟩

end TapeLang
