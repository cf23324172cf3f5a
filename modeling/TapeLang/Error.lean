import TapeLang.Text.Quoted

/-!
What can be wrong with a program text, and where.

There are three causes: a character that is no part of the language, a closing bracket without an
opening one, and a bracket that is never closed.  Each names one position, and `SourceError.message`
is the only place where a cause is put into words.
-/

namespace TapeLang

/-- A place in a text.  Lines and columns of a scanned text count from one. -/
structure Position where
  line : Int
  column : Int
  deriving DecidableEq, Repr, Inhabited

/-- Why a program text is refused. -/
inductive SourceError where
  /-- A character outside comments that is neither a symbol nor blank. -/
  | unexpectedToken (character : Char) (place : Position)
  /-- A closing bracket that closes nothing. -/
  | unmatchedClose (place : Position)
  /-- An opening bracket that is never closed. -/
  | unclosedLoop (place : Position)
  deriving DecidableEq, Repr

namespace SourceError

/-- The place an error is reported at. -/
def position : SourceError → Position
  | unexpectedToken _ p => p
  | unmatchedClose p => p
  | unclosedLoop p => p

/-- The cause in words, without its place. -/
def message : SourceError → String
  | unexpectedToken c _ => "unexpected token " ++ Text.quoted c.toString
  | unmatchedClose _ => "']' has no matching '['"
  | unclosedLoop _ => "unclosed bracket"

/-- The cause in words, after the line and the column it is reported at. -/
def located (e : SourceError) : String :=
  toString e.position.line ++ ":" ++ toString e.position.column ++ ": " ++ e.message

end SourceError

end TapeLang
