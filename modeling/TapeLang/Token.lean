import TapeLang.Symbol
import TapeLang.Error
import TapeLang.Source

/-!
Scanning: from characters to tokens with their positions.

The scanner is a fold.  Its state holds the place of the next character, whether that character
lies in a comment, the tokens found so far and the error that stopped it, if any; `Scanner.feed`
takes one character, and once there is an error nothing changes any more.  Feeding a source piece
by piece is therefore feeding its characters one after the other, however the text is cut.
-/

namespace TapeLang

/-- A symbol and the place it stands at. -/
structure Token where
  symbol : Symbol
  position : Position
  deriving DecidableEq, Repr, Inhabited

/-- Why a sequence of tokens ends before the text does. -/
inductive Interruption (ε : Type) where
  /-- The text is refused. -/
  | invalid (error : SourceError)
  /-- A read failed. -/
  | failed (failure : ε)
  deriving Repr, DecidableEq

/-- The tokens of a source, and what cut them short. -/
structure Scan (ε : Type) where
  tokens : List Token
  stop : Option (Interruption ε)
  deriving Repr

/-- The state of the scanner between two characters. -/
structure Scanner where
  position : Position
  inComment : Bool
  tokens : Array Token
  error : Option SourceError
  deriving Repr

namespace Scanner

/-- The state before the first character. -/
def start : Scanner := ⟨⟨1, 1⟩, false, #[], none⟩

/-- Blanks within a line; a line feed is a character of its own kind. -/
def isBlank (c : Char) : Bool :=
  c == ' ' || c == '\t' || c == '\r' || c == '\x0c' || c == '\x0b'

/-- The place after a character that does not end the line. -/
def next (p : Position) : Position := ⟨p.line, p.column + 1⟩

/-- Take one character. -/
def feed : Scanner → Char → Scanner
  | ⟨p, inComment, tokens, none⟩, c =>
    if c == '\n' then ⟨⟨p.line + 1, 1⟩, false, tokens, none⟩
    else if inComment then ⟨p, true, tokens, none⟩
    else match Symbol.ofChar? c with
      | some s => ⟨next p, false, tokens.push ⟨s, p⟩, none⟩
      | none =>
        if c == '#' then ⟨next p, true, tokens, none⟩
        else if isBlank c then ⟨next p, false, tokens, none⟩
        else ⟨p, false, tokens, some (.unexpectedToken c p)⟩
  | s@⟨_, _, _, some _⟩, _ => s

/-- Take the characters of one piece of text. -/
def feedPiece (s : Scanner) (piece : String) : Scanner := piece.toList.foldl feed s

end Scanner

/-- The tokens of a source.  A refused character ends them, and so does a failing read. -/
def scan {ε : Type} (source : Source ε) : Scan ε :=
  let s := source.pieces.foldl Scanner.feedPiece Scanner.start
  ⟨s.tokens.toList, (s.error.map .invalid).or (source.outcome.map .failed)⟩

end TapeLang
