/-!
The record of what the program did, for those who ask for it.
-/

namespace TapeLang

/-- How important a record is. -/
inductive Level where
  | debug
  | info
  deriving DecidableEq, Repr

/-- The part of the program that wrote a record. -/
inductive Channel where
  | sizing
  | listing
  | building
  | service
  | command
  deriving DecidableEq, Repr

/-- One record. -/
structure LogEntry where
  level : Level
  channel : Channel
  message : String
  deriving DecidableEq, Repr

end TapeLang
