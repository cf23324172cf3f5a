import TapeLang.Token

/-!
Runs: neighbouring tokens of one symbol, taken together.

Whatever blanks and comments lie between them, the tokens of a source fall into maximal runs of one
symbol.  A refused text still yields all its runs, so that an error inside a run is met before the
error that ended the text; when a read fails, the run it interrupts is lost.
-/

namespace TapeLang

/-- Tokens of one symbol. -/
structure Run where
  symbol : Symbol
  tokens : List Token
  deriving DecidableEq, Repr

namespace Run

/-- How many tokens a run has. -/
def count (r : Run) : Nat := r.tokens.length

/-- The run that consists of the given tokens, of which the first gives the symbol. -/
def ofTokens? : List Token → Option Run
  | [] => none
  | t :: rest => some ⟨t.symbol, t :: rest⟩

/-- A run of `n` tokens side by side from a place on. -/
def across (symbol : Symbol) (place : Position) (n : Nat) : Run :=
  ⟨symbol, (List.range n).map fun (i : Nat) => ⟨symbol, ⟨place.line, place.column + (i : Nat)⟩⟩⟩

end Run

/-- The maximal runs of a token list. -/
def groupRuns (tokens : List Token) : List Run :=
  (tokens.splitBy fun a b => a.symbol == b.symbol).filterMap Run.ofTokens?

/-- The runs of a source, and what cut them short. -/
structure Runs (ε : Type) where
  runs : List Run
  stop : Option (Interruption ε)
  deriving Repr

/-- The runs of a scan: all of them, but for the one that a failing read interrupts. -/
def Scan.group {ε : Type} (s : Scan ε) : Runs ε :=
  match s.stop with
  | some (.failed f) => ⟨(groupRuns s.tokens).dropLast, some (.failed f)⟩
  | stop => ⟨groupRuns s.tokens, stop⟩

/-- The runs of a source. -/
def runsOf {ε : Type} (source : Source ε) : Runs ε := (scan source).group

end TapeLang
