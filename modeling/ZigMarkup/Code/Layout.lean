/-!
Text laid out in lines. What is written is a list of pieces that knows nothing of indentation
widths; a writer turns pieces into text. Writing starts in the middle of a line, so the first
line gets no indentation; every later line gets the base and one unit for each level.
-/
namespace ZigMarkup

inductive Piece where
  | text (s : String)
  | newline
  | indent
  | dedent
deriving DecidableEq, Repr

structure Writer where
  base : String
  unit : String
  out : String := ""
  depth : Nat := 0
  atLineStart : Bool := false
deriving DecidableEq, Repr

def repeated (count : Nat) (s : String) : String := String.join (List.replicate count s)

namespace Writer

def start (base : String) (width : Nat) : Writer := ⟨base, repeated width " ", "", 0, false⟩

/-- The indentation of the current line. -/
def margin (w : Writer) : String := w.base ++ repeated w.depth w.unit

/-- Writes one piece. A line is indented when its first text arrives, so an empty one is not. -/
def write (w : Writer) : Piece → Writer
  | .text s =>
    if s.isEmpty then w
    else if w.atLineStart then { w with out := w.out ++ w.margin ++ s, atLineStart := false }
    else { w with out := w.out ++ s }
  | .newline => { w with out := w.out ++ "\n", atLineStart := true }
  | .indent => { w with depth := w.depth + 1 }
  | .dedent => { w with depth := w.depth - 1 }

def writeAll (w : Writer) (pieces : List Piece) : Writer := pieces.foldl write w

end Writer

def layout (base : String) (width : Nat) (pieces : List Piece) : String :=
  ((Writer.start base width).writeAll pieces).out

/-- A whole line. -/
def line (s : String) : List Piece := [.text s, .newline]

def indented (pieces : List Piece) : List Piece := .indent :: pieces ++ [.dedent]

end ZigMarkup
