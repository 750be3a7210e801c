/-!
Texts and their UTF-8 bytes. Every offset in this library counts these bytes, and
the scanner reads them one at a time, so a position may lie inside a character.
-/
namespace ZigMarkup

abbrev Bytes := List UInt8

def utf8 (s : String) : Bytes := s.toList.flatMap String.utf8EncodeChar

/-- The text with the given UTF-8 form; bytes that are no such form read as empty. -/
def decode (bytes : Bytes) : String := (String.fromUTF8? ⟨bytes.toArray⟩).getD ""

/-- The byte of an ASCII character. -/
abbrev ascii (c : Char) : UInt8 := c.toUInt8

/-- A byte that continues a character begun by an earlier one. -/
def isContinuation (b : UInt8) : Bool := 0x80 ≤ b && b < 0xC0

/-- How many bytes the character begun by `lead` takes. -/
def sequenceLength (lead : UInt8) : Nat :=
  if lead < 0x80 then 1 else if lead < 0xE0 then 2 else if lead < 0xF0 then 3 else 4

def headChar? : Bytes → Option Char
  | [] => none
  | lead :: rest => (decode (lead :: rest.take (sequenceLength lead - 1))).toList.head?

/-- How many characters begin in `bytes`. -/
def countChars (bytes : Bytes) : Nat := bytes.countP (!isContinuation ·)

/-- Whether a character begins at `offset`, or the text ends there. -/
def isBoundary (bytes : Bytes) (offset : Nat) : Bool :=
  match bytes.drop offset with
  | [] => offset == bytes.length
  | b :: _ => !isContinuation b

/-- Where `needle` first occurs in a text. -/
def indexOf? (needle : Bytes) : Bytes → Option Nat
  | [] => if needle.isEmpty then some 0 else none
  | b :: rest =>
    if needle.isPrefixOf (b :: rest) then some 0 else (indexOf? needle rest).map (· + 1)

end ZigMarkup
