import TapeLang.Log

/-!
Choosing the size of the tape.

A size is acceptable from one cell to four gibibytes.  A request outside that range is moved to its
nearer end, and the requester gets a notice; a tape of a single cell is always worth one.
-/

namespace TapeLang

/-- The size of a tape nobody asked for. -/
def defaultTapeSize : Int := 30720

/-- The smallest acceptable tape. -/
def minTapeSize : Int := 1

/-- The largest acceptable tape. -/
def maxTapeSize : Int := 4294967296

/-- The largest tape that is executed here, cell by cell in memory. -/
def maxRunTapeSize : Int := 16777216

/-- A tape size outside the acceptable range. -/
structure SizeOutOfRange where
  requested : Int
  deriving DecidableEq, Repr

/-- The refusal in words. -/
def SizeOutOfRange.message (e : SizeOutOfRange) : String :=
  "tape size " ++ toString e.requested ++ " is outside the range " ++ toString minTapeSize ++
    ".." ++ toString maxTapeSize

/-- The size, if it is acceptable. -/
def validateTapeSize (size : Int) : Except SizeOutOfRange Int :=
  if size < minTapeSize ∨ maxTapeSize < size then .error ⟨size⟩ else .ok size

/-- What a requester is told about the size that is used. -/
inductive SizeNotice where
  | tooLarge (requested : Int)
  | singleCell (requested : Int)
  deriving DecidableEq, Repr

/-- A notice in words. -/
def SizeNotice.message : SizeNotice → String
  | tooLarge n => "provided tape size " ++ toString n ++
      " is bigger than the maximum value (4 GiB); using " ++ toString maxTapeSize
  | singleCell n => "provided tape size " ++ toString n ++
      " is at or below one; using " ++ toString minTapeSize

/-- A tape size in use, with what there is to say about it. -/
structure TapeConfig where
  size : Int
  notices : List String
  deriving DecidableEq, Repr

namespace TapeConfig

/-- The acceptable size nearest to the requested one. -/
def ofRequested (requested : Int) : TapeConfig :=
  let (size, excess) : Int × List SizeNotice :=
    match validateTapeSize requested with
    | .ok size => (size, [])
    | .error _ =>
      if maxTapeSize < requested then (maxTapeSize, [.tooLarge requested]) else (minTapeSize, [])
  let single : List SizeNotice := if size = minTapeSize then [.singleCell requested] else []
  ⟨size, (excess ++ single).map SizeNotice.message⟩

/-- The notices as records. -/
def log (c : TapeConfig) : List LogEntry :=
  c.notices.map fun n => ⟨.info, .sizing, "INFO: " ++ n⟩

end TapeConfig

end TapeLang
