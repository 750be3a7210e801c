import ZigMarkup.Source.Cursor
import ZigMarkup.Syntax.Tree

/-!
The parts of markup that hold no other markup: closing tags, comments and text, and the
helpers with which all productions build their nodes.
-/
namespace ZigMarkup.Parser

open ScanM

/-- The productions that may contain each other: what begins with `<`, and what stands in
braces as a child or as an attribute value. -/
structure Nested where
  tag : ScanM Tree
  braces : Kind → ScanM Tree

def leafFrom (kind : Kind) (start : Cursor) : ScanM Tree := do
  return .leaf kind ((← get).spanFrom start.pos)

def nodeFrom (kind : Kind) (start : Cursor) (children : List Tree) : ScanM Tree := do
  return .node kind ((← get).spanFrom start.pos) children

def utf8Length (cs : List Char) : Nat := (cs.flatMap String.utf8EncodeChar).length

/-- From `start` to the offset `stop`, without the blanks at both ends. -/
def trimmed (start : Cursor) (stop : Nat) : Span :=
  let cs := (decode (start.rest.take (stop - start.pos))).toList
  if cs.all isBlank then .point start.pos
  else ⟨start.pos + utf8Length (cs.takeWhile isBlank),
    stop - utf8Length (cs.reverse.takeWhile isBlank)⟩

/-- A comment, `<!-- … -->`. -/
def comment : ScanM Tree := do
  let start ← get
  match indexOf? (utf8 "-->") (start.rest.drop 4) with
  | some inner =>
    set (start.skip (inner + 7))
    leafFrom .comment start
  | none => fail ⟨start.pos, start.pos + 4⟩ .unterminatedComment

/-- A closing tag, `</name>` or `</>`. -/
def endTag : ScanM Tree := do
  let start ← get
  expect "</" .closingTag
  skipBlanks
  let name ← name
  skipBlanks
  expect ">" .closingTagEnd
  nodeFrom .endTag start (name.toList.map (Tree.leaf .tagName))

/-- A closing tag where nothing is open. -/
def strayEndTag {α : Type} : ScanM α := do
  let start ← get
  let tag ← endTag
  fail tag.span (.unexpectedClosingTag ((← get).textFrom start))

def isTextByte (b : UInt8) : Bool := b != ascii '<' && b != ascii '\x7b' && b != ascii '\x7d'

def text : ScanM Tree := do
  let start ← get
  set (start.skipWhile isTextByte)
  leafFrom .text start

/-- A parenthesised group of host code. -/
def parens (what : Wanted) : ScanM Unit := do
  if (← get).peek = some (ascii '(') then group else expected what

end ZigMarkup.Parser
