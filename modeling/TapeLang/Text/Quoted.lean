import TapeLang.Text.Printable

/-!
Text as it is quoted in messages.

A quoted text stands between single quotes, or between double quotes if it holds a single quote and
no double one.  Inside, the backslash and the enclosing quote are preceded by a backslash, line
feed, carriage return and tab have their letter, and any other unprintable character is written as
its code point in hexadecimal.
-/

namespace TapeLang.Text

/-- Whether a text starts with another. -/
def startsWith (s start : String) : Bool := start.toList.isPrefixOf s.toList

/-- The lower-case hexadecimal digits of `n`, at least `width` of them. -/
def hex (width n : Nat) : String :=
  let digits := Nat.toDigits 16 n
  String.ofList (List.replicate (width - digits.length) '0' ++ digits)

/-- The quote that encloses a text. -/
def enclosingQuote (s : String) : Char :=
  if s.toList.contains '\'' && !s.toList.contains '"' then '"' else '\''

/-- How a character is written inside a text enclosed by `quote`. -/
def quotedChar (quote c : Char) : String :=
  if c == quote || c == '\\' then "\\" ++ c.toString
  else if c == '\n' then "\\n"
  else if c == '\r' then "\\r"
  else if c == '\t' then "\\t"
  else if isPrintable c then c.toString
  else if c.toNat < 0x100 then "\\x" ++ hex 2 c.toNat
  else if c.toNat < 0x10000 then "\\u" ++ hex 4 c.toNat
  else "\\U" ++ hex 8 c.toNat

/-- The text in quotes, with the characters that need it escaped. -/
def quoted (s : String) : String :=
  let q := enclosingQuote s
  q.toString ++ s.toList.foldl (fun out c => out ++ quotedChar q c) "" ++ q.toString

end TapeLang.Text
