import Sprout.Token

namespace Sprout

/-- The bases that a number after `#` may have. -/
inductive Radix
  | octal
  | hexadecimal
deriving DecidableEq, Repr

namespace Radix

/-- The word for a base. -/
def label : Radix → String
  | octal => "octal"
  | hexadecimal => "hexadecimal"

/-- Whether `c` is a digit in the base. -/
def isDigit : Radix → Char → Bool
  | octal, c => '0' ≤ c && c ≤ '7'
  | hexadecimal, c => c.isDigit || ('a' ≤ c && c ≤ 'f') || ('A' ≤ c && c ≤ 'F')

end Radix

/-- Why a text cannot be cut into tokens: a character that starts no token, or a malformed number
after `#`. Strings, characters and block comments without an end are no such reason; they are tokens
of kind `unknown`. -/
inductive Lexical
  | unknownCharacter (c : Char)
  | missingDigits (radix : Radix)
  | invalidDigit (radix : Radix)
deriving DecidableEq, Repr

/-- The wording of a lexical cause. -/
def Lexical.message : Lexical → String
  | unknownCharacter c => "unknown character '" ++ c.toString ++ "'"
  | missingDigits radix => "expected " ++ radix.label ++ " digits"
  | invalidDigit radix => "invalid digit in " ++ radix.label ++ " literal"

namespace Token

/-- Blank characters stand between tokens and belong to none. -/
def isBlank (c : Char) : Bool :=
  c = ' ' || c = '\t' || c = '\r' || c = '\n'

/-- Characters that a name may start with. -/
def isNameStart (c : Char) : Bool :=
  c.isAlpha || c = '_'

/-- Characters that a name may go on with. -/
def isNamePart (c : Char) : Bool :=
  c.isAlphanum || c = '_'

/-- The length of the longest run of characters in `p` at the front of a text. -/
def runLength (p : Char → Bool) (text : List Char) : Nat :=
  (text.takeWhile p).length

/-- The kind of a word: a keyword, a truth value, a type name, or else an identifier. -/
def wordKind (text : String) : Kind :=
  match Keyword.ofWord? text with
  | some word => .keyword word
  | none =>
    if text = "true" || text = "false" then .bool
    else
      match Primitive.ofName? text with
      | some name => .type name
      | none => .identifier

/-- The length of a fraction at the front of a text: a point with at least one digit. -/
def fractionLength : List Char → Nat
  | '.' :: d :: rest => if d.isDigit then 2 + runLength Char.isDigit rest else 0
  | _ => 0

/-- The length of an exponent at the front of a text: `e` or `E`, an optional sign, and at least one
digit. -/
def exponentLength : List Char → Nat
  | e :: rest =>
    if e = 'e' || e = 'E' then
      let signed := rest.head? = some '+' || rest.head? = some '-'
      let digits := runLength Char.isDigit (if signed then rest.drop 1 else rest)
      if digits = 0 then 0 else (if signed then 2 else 1) + digits
    else 0
  | [] => 0

/-- The kind and length of a number at the front of a text: digits, a fraction, an exponent, and
the suffix `f` for a single-precision or `i` for a double-precision value. -/
def number (text : List Char) : Kind × Nat :=
  let whole := runLength Char.isDigit text
  let fraction := fractionLength (text.drop whole)
  let exponent := exponentLength (text.drop (whole + fraction))
  let length := whole + fraction + exponent
  match text.drop length with
  | 'f' :: _ => (.single, length + 1)
  | 'i' :: _ => (.double, length + 1)
  | _ => (if fraction = 0 && exponent = 0 then .integer else .double, length)

/-- How many characters of `text`, which stands behind a `#`, belong to the number, or the cause and
the width in columns if it is malformed. A name character may not follow the digits. -/
def radixNumber (text : List Char) : Except (Lexical × Nat) Nat :=
  let octal := text.head? = some 'o'
  let radix := if octal then Radix.octal else .hexadecimal
  let lead := if octal then 1 else 0
  let digits := runLength radix.isDigit (text.drop lead)
  if digits = 0 then .error (.missingDigits radix, lead + 1)
  else
    match text.drop (lead + digits) with
    | [] => .ok (lead + digits)
    | c :: _ =>
      if isNamePart c then .error (.invalidDigit radix, lead + digits + 2) else .ok (lead + digits)

/-- The length of a text up to and including the first `*/`. -/
def commentLength : List Char → Option Nat
  | [] => none
  | '*' :: '/' :: _ => some 2
  | _ :: rest => (commentLength rest).map (· + 1)

/-- The length of a text up to and including the first `quote`. A backslash takes the character
behind it along. -/
def quotedLength (quote : Char) : List Char → Option Nat
  | [] => none
  | '\\' :: rest =>
    match rest with
    | [] => none
    | _ :: rest => (quotedLength quote rest).map (· + 2)
  | c :: rest => if c = quote then some 1 else (quotedLength quote rest).map (· + 1)

/-- The kind of an operator of two characters. -/
def pairKind : Char → Char → Option Kind
  | '+', '=' => some (.compound .add)
  | '-', '=' => some (.compound .sub)
  | '*', '=' => some (.compound .mul)
  | '/', '=' => some (.compound .div)
  | '%', '=' => some (.compound .mod)
  | '^', '=' => some (.compound .pow)
  | '=', '=' => some (.operator (.comparison .eq))
  | '!', '=' => some (.operator (.comparison .ne))
  | '<', '=' => some (.operator (.comparison .le))
  | '>', '=' => some (.operator (.comparison .ge))
  | '&', '&' => some (.operator (.logical .and))
  | '|', '|' => some (.operator (.logical .or))
  | '+', '+' => some (.step .increment)
  | '-', '-' => some (.step .decrement)
  | _, _ => none

/-- The kind of an operator or a punctuation mark of one character. -/
def markKind : Char → Option Kind
  | '+' => some (.operator (.arithmetic .add))
  | '-' => some (.operator (.arithmetic .sub))
  | '*' => some (.operator (.arithmetic .mul))
  | '/' => some (.operator (.arithmetic .div))
  | '%' => some (.operator (.arithmetic .mod))
  | '^' => some (.operator (.arithmetic .pow))
  | '<' => some (.operator (.comparison .lt))
  | '>' => some (.operator (.comparison .gt))
  | '!' => some .bang
  | '=' => some .equal
  | '.' => some .dot
  | '(' => some .openParen
  | ')' => some .closeParen
  | '[' => some .openBracket
  | ']' => some .closeBracket
  | '\x7b' => some .openBrace
  | '\x7d' => some .closeBrace
  | ',' => some .comma
  | ':' => some .colon
  | ';' => some .semicolon
  | _ => none

/-- The operator or punctuation mark that starts with `c`, by the longest match. -/
def mark (c : Char) (rest : List Char) : Except (Lexical × Nat) (Kind × Nat) :=
  match rest.head?.bind (pairKind c) with
  | some kind => .ok (kind, 1)
  | none =>
    match markKind c with
    | some kind => .ok (kind, 0)
    | none => .error (.unknownCharacter c, 1)

/-- The kind of a quoted token and how many characters it takes behind its opening quote; without a
closing quote it takes the whole text. -/
def quoted (quote : Char) (kind : Kind) (rest : List Char) : Kind × Nat :=
  match quotedLength quote rest with
  | some length => (kind, length)
  | none => (.unknown, rest.length)

/-- The kind of a block comment and how many characters it takes behind its slash. -/
def blockComment (rest : List Char) : Kind × Nat :=
  match commentLength (rest.drop 1) with
  | some length => (.comment, length + 1)
  | none => (.unknown, rest.length)

/-- The token at the front of the text `c :: rest`, whose first character is not blank: its kind and
the number of characters it takes of `rest`. Otherwise the cause and its width in columns. -/
def front (c : Char) (rest : List Char) : Except (Lexical × Nat) (Kind × Nat) :=
  if isNameStart c then
    let more := runLength isNamePart rest
    .ok (wordKind (String.ofList (c :: rest.take more)), more)
  else if c.isDigit || (c = '.' && (rest.head?.map Char.isDigit).getD false) then
    let (kind, length) := number (c :: rest)
    .ok (kind, length - 1)
  else if c = '#' then (radixNumber rest).map (Kind.integer, ·)
  else if c = '/' && rest.head? = some '/' then .ok (.comment, runLength (· ≠ '\n') rest)
  else if c = '/' && rest.head? = some '*' then .ok (blockComment rest)
  else if c = '"' then .ok (quoted '"' .string rest)
  else if c = '\'' then .ok (quoted '\'' .char rest)
  else mark c rest

/-- The tokens of a text that starts at `position`, up to a token for its end. -/
def scan (position : Position) : List Char → Except (Defect Lexical) (List Token)
  | [] => .ok [⟨.eof, "", position⟩]
  | c :: rest =>
    if isBlank c then scan (position.next c) rest
    else
      match front c rest with
      | .error (cause, width) => .error ⟨cause, position, width⟩
      | .ok (kind, more) =>
        let lexeme := c :: rest.take more
        match scan (position.after lexeme) (rest.drop more) with
        | .error defect => .error defect
        | .ok others => .ok (⟨kind, String.ofList lexeme, position⟩ :: others)
termination_by text => text.length

end Token

/-- The tokens of a source, the last one standing for its end. Each is decided by the front of the
text that remains, and reading goes on behind it. -/
def Source.tokens (source : Source) : Except (Defect Lexical) (List Token) :=
  Token.scan .start source.text.toList

end Sprout
