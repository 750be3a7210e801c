import ZigMarkup.Name

/-!
Text written into Zig source: string literals, pieces of format strings, identifiers and
enum literals. Quotes, backslashes and control characters are escaped, all else is kept.
-/
namespace ZigMarkup.Literal

def hexDigit (n : Nat) : Char := Char.ofNat (if n < 10 then 48 + n else 87 + n)

/-- The characters that stand for `c` between the quotes of a literal. -/
def escapeChar (c : Char) : List Char :=
  if c = '\\' then ['\\', '\\']
  else if c = '"' then ['\\', '"']
  else if c = '\n' then ['\\', 'n']
  else if c = '\r' then ['\\', 'r']
  else if c = '\t' then ['\\', 't']
  else if c.toNat < 0x20 || c.toNat = 0x7F then
    ['\\', 'x', hexDigit (c.toNat / 16), hexDigit (c.toNat % 16)]
  else [c]

/-- In a format string a brace that is text is written twice. -/
def escapeFormatChar (c : Char) : List Char :=
  if c = '\x7b' then ['\x7b', '\x7b']
  else if c = '\x7d' then ['\x7d', '\x7d']
  else escapeChar c

def escape (text : String) : String := String.ofList (text.toList.flatMap escapeChar)

def formatPiece (text : String) : String := String.ofList (text.toList.flatMap escapeFormatChar)

def quoted (text : String) : String := "\"" ++ escape text ++ "\""

/-- A name as an identifier, quoted where Zig would not read it bare. -/
def identifier (name : String) : String :=
  if isPlainIdentifier name then name else "@" ++ quoted name

def enumLiteral (name : String) : String := "." ++ identifier name

end ZigMarkup.Literal
