import ZigMarkup.Text.Utf8

/-!
Half-open ranges of byte offsets, and the lines and columns that offsets stand for.
Lines and columns count from one, and columns count characters.
-/
namespace ZigMarkup

structure Span where
  start : Nat
  stop : Nat
deriving DecidableEq, Repr, Inhabited

namespace Span

/-- The span between two numbers. Offsets have 32 bits, and larger numbers lose the others. -/
def ofOffsets (start stop : Nat) : Span := ⟨start % 0x100000000, stop % 0x100000000⟩

/-- The empty span at an offset. -/
def point (offset : Nat) : Span := ⟨offset, offset⟩

def length (s : Span) : Nat := s.stop - s.start

def isEmpty (s : Span) : Bool := s.stop ≤ s.start

def slice (s : Span) (source : Bytes) : Bytes := (source.drop s.start).take s.length

def text (s : Span) (source : Bytes) : String := decode (s.slice source)

end Span

/-- The offsets at which the lines of a text begin. -/
structure LineIndex where
  starts : List Nat

namespace LineIndex

def startsFrom (offset : Nat) : Bytes → List Nat
  | [] => []
  | b :: rest =>
    if b = ascii '\n' then (offset + 1) :: startsFrom (offset + 1) rest
    else startsFrom (offset + 1) rest

def ofBytes (source : Bytes) : LineIndex := ⟨0 :: startsFrom 0 source⟩

/-- The line, from zero, that holds an offset: the last one that begins at or before it. -/
def lineOf (index : LineIndex) (offset : Nat) : Nat :=
  (index.starts.takeWhile (· ≤ offset)).length - 1

def startOf (index : LineIndex) (line : Nat) : Nat := index.starts.getD line 0

/-- Line and column of an offset. An offset past the end stands for the end, and one inside
a character is given column one. -/
def lineCol (index : LineIndex) (source : Bytes) (offset : Nat) : Nat × Nat :=
  let offset := min offset source.length
  let line := index.lineOf offset
  let before := if isBoundary source offset
    then countChars (Span.slice ⟨index.startOf line, offset⟩ source) else 0
  (line + 1, before + 1)

/-- The spaces and tabs that begin the line of an offset. -/
def indentAt (index : LineIndex) (source : Bytes) (offset : Nat) : String :=
  let line := index.lineOf (min offset source.length)
  decode ((source.drop (index.startOf line)).takeWhile fun b => b = ascii ' ' || b = ascii '\t')

end LineIndex

end ZigMarkup
