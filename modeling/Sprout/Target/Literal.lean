namespace Sprout.Target

/-- The two digits of a number below 256 in hexadecimal. -/
def hexPair (n : Nat) : String :=
  String.ofList [Nat.digitChar (n / 16), Nat.digitChar (n % 16)]

/-- One character of a literal between the given quotes. -/
def escape (quote c : Char) : String :=
  if c = '\n' then "\\n"
  else if c = '\t' then "\\t"
  else if c = '\r' then "\\r"
  else if c = '\x00' then "\\0"
  else if c = '\\' then "\\\\"
  else if c = quote then "\\" ++ c.toString
  else if c.toNat < 32 || c.toNat = 127 then "\\x" ++ hexPair c.toNat
  else c.toString

/-- A character literal. -/
def charLiteral (c : Char) : String :=
  "'" ++ escape '\'' c ++ "'"

/-- A string value: a literal between quotes, with escapes for what cannot stand there, in a call
that makes it a string. -/
def stringLiteral (text : List Char) : String :=
  "std::string(\"" ++ String.join (text.map (escape '"')) ++ "\")"

end Sprout.Target
