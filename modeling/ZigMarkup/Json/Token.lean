import ZigMarkup.Json.Value

/-!
The tokens of JSON text. Reading is strict: no comments, no leading zeros, no raw control
characters in strings and no surrogates that stand alone.
-/
namespace ZigMarkup

inductive JsonToken where
  | openArray
  | closeArray
  | openObject
  | closeObject
  | comma
  | colon
  | string (s : String)
  /-- A value that holds no others and is no string. -/
  | scalar (v : JsonValue)

namespace JsonToken

def isJsonBlank (c : Char) : Bool := c = ' ' || c = '\t' || c = '\n' || c = '\r'

def hexValue? (c : Char) : Option Nat :=
  if '0' ≤ c && c ≤ '9' then some (c.toNat - 48)
  else if 'a' ≤ c && c ≤ 'f' then some (c.toNat - 87)
  else if 'A' ≤ c && c ≤ 'F' then some (c.toNat - 55)
  else none

def hex4? (a b c d : Char) : Option Nat := do
  return (((← hexValue? a) * 16 + (← hexValue? b)) * 16 + (← hexValue? c)) * 16 + (← hexValue? d)

def simpleEscape? (c : Char) : Option Char :=
  if c = '"' || c = '\\' || c = '/' then some c
  else if c = 'b' then some '\x08'
  else if c = 'f' then some '\x0c'
  else if c = 'n' then some '\n'
  else if c = 'r' then some '\r'
  else if c = 't' then some '\t'
  else none

/-- The character that two halves of a surrogate pair stand for. -/
def pair? (high low : Nat) : Option Char :=
  if 0xD800 ≤ high && high < 0xDC00 && 0xDC00 ≤ low && low < 0xE000 then
    some (Char.ofNat (0x10000 + (high - 0xD800) * 0x400 + (low - 0xDC00)))
  else none

def isSurrogate (n : Nat) : Bool := 0xD800 ≤ n && n < 0xE000

/-- The characters of a string up to its closing quote, and what follows. -/
def stringTail? : List Char → Option (List Char × List Char)
  | [] => none
  | '"' :: rest => some ([], rest)
  | '\\' :: 'u' :: a :: b :: c :: d :: rest => do
    let n ← hex4? a b c d
    if isSurrogate n then
      match rest with
      | '\\' :: 'u' :: e :: f :: g :: h :: rest =>
        let char ← pair? n (← hex4? e f g h)
        let (chars, rest) ← stringTail? rest
        return (char :: chars, rest)
      | _ => none
    else
      let (chars, rest) ← stringTail? rest
      return (Char.ofNat n :: chars, rest)
  | '\\' :: c :: rest => do
    let char ← simpleEscape? c
    let (chars, rest) ← stringTail? rest
    return (char :: chars, rest)
  | c :: rest => do
    if c = '\\' || c.toNat < 0x20 then none
    else
      let (chars, rest) ← stringTail? rest
      return (c :: chars, rest)

def takeDigits (cs : List Char) : List Nat × List Char :=
  ((cs.takeWhile Char.isDigit).map (·.toNat - 48), cs.dropWhile Char.isDigit)

/-- Digits after a point, if there is one. -/
def fraction? : List Char → Option (Option (List Nat) × List Char)
  | '.' :: rest =>
    match takeDigits rest with
    | ([], _) => none
    | (digits, rest) => some (some digits, rest)
  | cs => some (none, cs)

def exponentDigits? (negative : Bool) (cs : List Char) : Option (Option Int × List Char) :=
  match takeDigits cs with
  | ([], _) => none
  | (digits, rest) =>
    let n : Int := JsonNumber.digitsValue digits
    some (some (if negative then -n else n), rest)

/-- An exponent, if there is one. -/
def exponent? : List Char → Option (Option Int × List Char)
  | c :: rest =>
    if c = 'e' || c = 'E' then
      match rest with
      | '+' :: rest => exponentDigits? false rest
      | '-' :: rest => exponentDigits? true rest
      | rest => exponentDigits? false rest
    else some (none, c :: rest)
  | [] => some (none, [])

def number? (negative : Bool) (cs : List Char) : Option (JsonToken × List Char) := do
  let (whole, rest) := takeDigits cs
  match whole with
  | [] => none
  | 0 :: _ :: _ => none
  | whole =>
    let (fraction, rest) ← fraction? rest
    let (exponent, rest) ← exponent? rest
    let n ← JsonNumber.ofSpelling? ⟨negative, whole, fraction, exponent⟩
    return (.scalar (.number n), rest)

/-- The token that a text begins with, and what follows it. -/
def next? : List Char → Option (JsonToken × List Char)
  | '[' :: rest => some (.openArray, rest)
  | ']' :: rest => some (.closeArray, rest)
  | '\x7b' :: rest => some (.openObject, rest)
  | '\x7d' :: rest => some (.closeObject, rest)
  | ',' :: rest => some (.comma, rest)
  | ':' :: rest => some (.colon, rest)
  | '"' :: rest => (stringTail? rest).map fun (chars, rest) => (.string (String.ofList chars), rest)
  | 'n' :: 'u' :: 'l' :: 'l' :: rest => some (.scalar .null, rest)
  | 't' :: 'r' :: 'u' :: 'e' :: rest => some (.scalar (.bool true), rest)
  | 'f' :: 'a' :: 'l' :: 's' :: 'e' :: rest => some (.scalar (.bool false), rest)
  | '-' :: rest => number? true rest
  | cs => number? false cs

/-- The tokens of a text of at most the given length. -/
def tokensFrom : Nat → List Char → Option (List JsonToken)
  | 0, _ => some []
  | length + 1, cs =>
    match cs.dropWhile isJsonBlank with
    | [] => some []
    | cs => do
      let (token, rest) ← next? cs
      return token :: (← tokensFrom length rest)

def tokens? (cs : List Char) : Option (List JsonToken) := tokensFrom cs.length cs

end JsonToken

end ZigMarkup
