import ZigMarkup.Source.Fault

/-!
The tokens of host code that may hide brackets: comments and lines of multiline strings run
to the end of their line, strings and character literals end on the line they begin on.
Lengths count from the token's first byte.
-/
namespace ZigMarkup

/-- A quoted token that is closed, or that its line breaks off. -/
structure QuotedToken where
  length : Nat
  closed : Bool
deriving DecidableEq, Repr

/-- What follows the opening quote. A backslash takes the next byte with it, whatever it is. -/
def quotedTail (quote : UInt8) : Bytes → QuotedToken
  | [] => ⟨0, false⟩
  | b :: rest =>
    if b = ascii '\\' then
      match rest with
      | [] => ⟨1, false⟩
      | _ :: rest => let tail := quotedTail quote rest; ⟨tail.length + 2, tail.closed⟩
    else if b = quote then ⟨1, true⟩
    else if b = ascii '\n' then ⟨0, false⟩
    else let tail := quotedTail quote rest; ⟨tail.length + 1, tail.closed⟩

def quotedToken (quote : UInt8) : Bytes → QuotedToken
  | [] => ⟨0, false⟩
  | _ :: rest => let tail := quotedTail quote rest; ⟨tail.length + 1, tail.closed⟩

def stringLength (text : Bytes) : Except Failure Nat :=
  let token := quotedToken (ascii '"') text
  if token.closed then .ok token.length
  else .error ⟨⟨0, token.length⟩, .unterminatedString, token.length⟩

/-- A quote that nothing closes on its line is a token of its own. -/
def charLength (text : Bytes) : Nat :=
  let token := quotedToken (ascii '\'') text
  if token.closed then token.length else 1

def lineLength (text : Bytes) : Nat := (text.takeWhile (· != ascii '\n')).length

inductive Lexeme where
  | trivia (length : Nat)
  | broken (length : Nat)
  | plain
deriving DecidableEq, Repr

/-- What begins at `b`: a comment, string, character literal or line of a multiline string,
a string that is broken off, or anything else. -/
def lexeme (b : UInt8) (rest : Bytes) : Lexeme :=
  if (b = ascii '/' || b = ascii '\\') && rest.head? = some b then .trivia (lineLength (b :: rest))
  else if b = ascii '"' then
    let token := quotedToken b (b :: rest)
    if token.closed then .trivia token.length else .broken token.length
  else if b = ascii '\'' then .trivia (charLength (b :: rest))
  else .plain

/-- A capture `|a, b|`, if the text begins with a bar. -/
def captureLength : Bytes → Except Failure (Option Nat)
  | [] => .ok none
  | b :: rest =>
    if b = ascii '|' then
      let inner := (rest.takeWhile fun x => x != ascii '|' && x != ascii '\n').length
      if rest[inner]? = some (ascii '|') then .ok (some (inner + 2))
      else .error ⟨⟨0, 1⟩, .unterminatedCapture, inner + 1⟩
    else .ok none

end ZigMarkup
