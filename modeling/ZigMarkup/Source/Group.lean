import ZigMarkup.Source.Token
import ZigMarkup.Source.Walk

/-!
Bracketed groups of host code. Brackets nest, and those inside strings, character literals
and comments do not count.
-/
namespace ZigMarkup

/-- The bracket that closes an opening one. -/
def closerOf? (b : UInt8) : Option UInt8 :=
  if b = ascii '(' then some (ascii ')')
  else if b = ascii '[' then some (ascii ']')
  else if b = ascii '\x7b' then some (ascii '\x7d')
  else none

def isCloser (b : UInt8) : Bool := b = ascii ')' || b = ascii ']' || b = ascii '\x7d'

def byteText (b : UInt8) : String := (Char.ofNat b.toNat).toString

/-- Visits a position inside a group; the state holds the closers still to come, innermost
first. The group ends with the closer that leaves none. -/
def groupVisit (stack : List UInt8) (offset : Nat) (b : UInt8) (rest : Bytes) :
    Move (List UInt8) (Except Failure Nat) :=
  match lexeme b rest with
  | .trivia length => .go length stack
  | .broken length =>
    .stop (.error ⟨⟨offset, offset + length⟩, .unterminatedString, offset + length⟩)
  | .plain =>
    match closerOf? b with
    | some closer => .go 1 (closer :: stack)
    | none =>
      if isCloser b then
        match stack with
        | [] => .stop (unexpected offset b)
        | closer :: outer =>
          if closer = b then
            if outer.isEmpty then .stop (.ok (offset + 1)) else .go 1 outer
          else .stop (unexpected offset b)
      else .go 1 stack
where
  unexpected (offset : Nat) (b : UInt8) : Except Failure Nat :=
    .error ⟨⟨offset, offset + 1⟩, .unexpected (Char.ofNat b.toNat), offset⟩

/-- The length of the group that begins a text. -/
def groupLength (text : Bytes) : Except Failure Nat :=
  let opener := text.headD (ascii '(')
  walk groupVisit (fun _ reached => .error ⟨⟨0, 1⟩, .unclosed (byteText opener), reached⟩) [] text

def untilVisit (needle : Bytes) (_ : Unit) (offset : Nat) (b : UInt8) (rest : Bytes) :
    Move Unit (Except Failure Nat) :=
  if needle.isPrefixOf (b :: rest) then .stop (.ok offset)
  else
    match lexeme b rest with
    | .trivia length => .go length ()
    | .broken length =>
      .stop (.error ⟨⟨offset, offset + length⟩, .unterminatedString, offset + length⟩)
    | .plain =>
      if (closerOf? b).isSome then
        match groupLength (b :: rest) with
        | .ok length => .go length ()
        | .error failure => .stop (.error (failure.shift offset))
      else if isCloser b then .stop (missing needle offset)
      else .go 1 ()
where
  missing (needle : Bytes) (offset : Nat) : Except Failure Nat :=
    .error ⟨.point offset, .expected (.text ("`" ++ decode needle ++ "`")), offset⟩

/-- How far `needle` lies ahead, outside all brackets. A closer that was not opened ends the
search. -/
def lengthUntil (needle : Bytes) (text : Bytes) : Except Failure Nat :=
  walk (untilVisit needle)
    (fun _ reached => if needle.isEmpty then .ok reached else untilVisit.missing needle reached)
    () text

end ZigMarkup
