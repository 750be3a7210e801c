import ZigMarkup.Source.Group
import ZigMarkup.Source.Host

/-!
A position in a source together with the bytes ahead of it, and the steps that read from it.
A step that fails leaves the cursor where reading stopped.
-/
namespace ZigMarkup

structure Cursor where
  pos : Nat
  rest : Bytes
deriving DecidableEq, Repr

namespace Cursor

def ofBytes (source : Bytes) : Cursor := ⟨0, source⟩

/-- The cursor at `offset`, or at the end of a source that is shorter. -/
def seek (source : Bytes) (offset : Nat) : Cursor :=
  ⟨min offset source.length, source.drop offset⟩

def skip (c : Cursor) (count : Nat) : Cursor := ⟨c.pos + count, c.rest.drop count⟩

/-- At most `count` bytes on. -/
def advance (c : Cursor) (count : Nat) : Cursor := c.skip (min count c.rest.length)

def atEnd (c : Cursor) : Bool := c.rest.isEmpty

def peek (c : Cursor) : Option UInt8 := c.rest.head?

def peekAt (c : Cursor) (n : Nat) : Option UInt8 := c.rest[n]?

def startsWith (c : Cursor) (text : String) : Bool := (utf8 text).isPrefixOf c.rest

/-- Whether the word `word` is next, and not merely the beginning of a longer one. -/
def atKeyword (c : Cursor) (word : String) : Bool :=
  c.startsWith word && !(c.peekAt (utf8 word).length).any isIdentByte

def atTemplate (c : Cursor) : Bool := beginsTemplate c.rest

def skipWhile (p : UInt8 → Bool) (c : Cursor) : Cursor := c.skip (c.rest.takeWhile p).length

def skipBlanks (c : Cursor) : Cursor := c.skipWhile isAsciiBlank

def skipLine (c : Cursor) : Cursor := c.skip (lineLength c.rest)

def skipChar (c : Cursor) : Cursor := c.skip (charLength c.rest)

def bump (c : Cursor) : Cursor := c.advance 1

/-- The next template root, with the cursor on its `(`; without one, the end of the source. -/
def nextTemplate (c : Cursor) : Bool × Cursor :=
  match nextTemplate? c.rest with
  | some offset => (true, c.skip offset)
  | none => (false, c.skip c.rest.length)

def spanFrom (c : Cursor) (start : Nat) : Span := ⟨start, c.pos⟩

/-- The span from any number up to the cursor. -/
def spanSince (c : Cursor) (number : Nat) : Span := .ofOffsets number c.pos

/-- The position at a distance. Positions have 64 bits, so a distance near their end leads back. -/
def target (c : Cursor) (distance : Nat) : Nat := (c.pos + distance) % 0x10000000000000000

def lookAhead (source : Bytes) (c : Cursor) (distance : Nat) : Option UInt8 :=
  source[c.target distance]?

def jump (source : Bytes) (c : Cursor) (distance : Nat) : Cursor := seek source (c.target distance)

/-- The text from an earlier cursor up to this one. -/
def textFrom (c : Cursor) (start : Cursor) : String := decode (start.rest.take (c.pos - start.pos))

end Cursor

abbrev ScanM := EStateM ScanError Cursor

namespace ScanM

variable {α : Type}

def fail (span : Span) (fault : Fault) : ScanM α := throw ⟨span, fault⟩

/-- Fails with an empty span at the cursor. -/
def expected (what : Wanted) : ScanM α := do fail (.point (← get).pos) (.expected what)

def skipBlanks : ScanM Unit := modify Cursor.skipBlanks

/-- Reads what `measure` finds ahead. -/
def read (measure : Bytes → Except Failure Nat) : ScanM Unit := fun c =>
  match measure c.rest with
  | .ok length => .ok () (c.skip length)
  | .error failure => .error (failure.shift c.pos).error (c.skip failure.reached)

def string : ScanM Unit := read stringLength

def group : ScanM Unit := read groupLength

def untilTopLevel (needle : String) : ScanM Unit := read (lengthUntil (utf8 needle))

def eat (text : String) : ScanM Bool := do
  if (← get).startsWith text then
    modify (·.skip (utf8 text).length)
    return true
  else return false

def expect (text : String) (what : Wanted) : ScanM Unit := do
  unless ← eat text do expected what

/-- A word of bytes that satisfy `p`, if it begins as identifiers do. -/
def word (p : UInt8 → Bool) : ScanM (Option Span) := do
  let c ← get
  if c.peek.any isIdentStart then
    let next := c.skipWhile p
    set next
    return some (next.spanFrom c.pos)
  else return none

def ident : ScanM (Option Span) := word isIdentByte

def name : ScanM (Option Span) := word isNameByte

/-- Whether a comment, string or character literal was read. -/
def trivia : ScanM Bool := fun c =>
  match c.rest with
  | [] => .ok false c
  | b :: rest =>
    match lexeme b rest with
    | .trivia length => .ok true (c.skip length)
    | .broken length => .error ⟨⟨c.pos, c.pos + length⟩, .unterminatedString⟩ (c.skip length)
    | .plain => .ok false c

def capture : ScanM (Option Span) := fun c =>
  match captureLength c.rest with
  | .ok none => .ok none c
  | .ok (some length) => .ok (some ⟨c.pos, c.pos + length⟩) (c.skip length)
  | .error failure => .error (failure.shift c.pos).error (c.skip failure.reached)

/-- What `step` yields, over and over until it yields nothing. -/
def manyFrom (step : ScanM (Option α)) : Nat → ScanM (List α)
  | 0 => do fail (.point (← get).pos) .tooDeep
  | n + 1 => do
    match ← step with
    | none => return []
    | some a => return a :: (← manyFrom step n)

/-- Every step is meant to read at least one byte, so what lies ahead bounds their number. -/
def many (step : ScanM (Option α)) : ScanM (List α) := do
  manyFrom step ((← get).rest.length + 1)

end ScanM

end ZigMarkup
