import Sprout.Text.Combining
import Sprout.Text.Printable

namespace Sprout.Text

/-- The escape of a code point by its number in hexadecimal. -/
def codeEscape (c : Char) : String :=
  "\\u\x7b" ++ String.ofList (Nat.toDigits 16 c.toNat) ++ "\x7d"

/-- One character of a text between the given quotes. -/
def quotedChar (quote c : Char) : String :=
  if c = '\x00' then "\\0"
  else if c = '\t' then "\\t"
  else if c = '\r' then "\\r"
  else if c = '\n' then "\\n"
  else if c = '\\' then "\\\\"
  else if c = quote then "\\" ++ quote.toString
  else if isExtending c || !isPrintable c then codeEscape c
  else c.toString

/-- A text between quotes, as trees show it: with escapes for the quote, the backslash, the common
controls, and every character that would not show by itself. -/
def quoted (quote : Char) (text : List Char) : String :=
  quote.toString ++ String.join (text.map (quotedChar quote)) ++ quote.toString

end Sprout.Text
