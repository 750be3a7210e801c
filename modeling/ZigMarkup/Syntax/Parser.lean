import ZigMarkup.Syntax.Attribute
import ZigMarkup.Syntax.ControlFlow

/-!
Reading a source file. Reading never fails: a template, an attribute or a pair of braces that
cannot be read becomes an error node, and reading goes on behind it. Productions contain each
other through `Nested`, one level for each tag or brace, so a source is never deeper than long.
-/
namespace ZigMarkup

namespace Parser

open ScanM

/-- What ends a list of children. -/
inductive Terminator where
  | endTag
  | brace
deriving DecidableEq, Repr

/-- One child of what was opened at `opening` by `opener`; nothing at its end. -/
def child? (g : Nested) (terminator : Terminator) (opening : Span) (opener : String) :
    ScanM (Option Tree) := do
  let c ← get
  match c.peek with
  | none => fail opening (.unclosed opener)
  | some b =>
    if b = ascii '<' then
      if c.startsWith "</" then
        match terminator with
        | .endTag => return none
        | .brace => strayEndTag
      else return some (← g.tag)
    else if b = ascii '\x7b' then return some (← g.braces .expressionBlock)
    else if b = ascii '\x7d' then
      match terminator with
      | .brace => return none
      | .endTag =>
        set c.bump
        return some (.error ⟨c.pos, c.pos + 1⟩ Fault.strayBrace.message)
    else return some (← text)

def children (g : Nested) (terminator : Terminator) (opening : Span) (opener : String) :
    ScanM (List Tree) :=
  many (child? g terminator opening opener)

def rootItem? (g : Nested) (opening : Cursor) : ScanM (Option Tree) := do
  skipBlanks
  if ← eat ")" then return none
  else
    let c ← get
    if c.atEnd then fail ⟨opening.pos, opening.pos + 1⟩ .unclosedRoot
    else if c.peek = some (ascii '<') then return some (← g.tag)
    else expected .rootClose

/-- A template root: one node in parentheses. -/
def templateRoot (g : Nested) : ScanM Tree := do
  let start ← get
  expect "(" .rootOpen
  let items ← many (rootItem? g start)
  nodeFrom .templateRoot start items

/-- One node in parentheses, or a list of children in braces. -/
def body (g : Nested) : ScanM Tree := do
  let start ← get
  if start.atTemplate then
    let root ← templateRoot g
    nodeFrom .body start [root]
  else if start.peek = some (ascii '\x7b') then
    set start.bump
    let items ← children g .brace ⟨start.pos, start.pos + 1⟩ "\x7b"
    expect "\x7d" .bodyEnd
    nodeFrom .body start items
  else expected .body

def fragment (g : Nested) (start : Cursor) : ScanM Tree := do
  let items ← children g .endTag ((← get).spanFrom start.pos) "<>"
  let close ← endTag
  nodeFrom .fragment start (items ++ [close])

/-- One attribute of the tag `opening`; nothing at the end of the tag. -/
def attr? (g : Nested) (opening : Span) (name : String) : ScanM (Option Tree) := do
  skipBlanks
  let c ← get
  if c.startsWith "/>" || c.startsWith ">" then return none
  else if c.atEnd then fail opening (.unterminatedStartTag name)
  else return some (← attrOrError g)

def element (g : Nested) (start : Cursor) (nameSpan : Span) : ScanM Tree := do
  let name := (← get).textFrom (start.skip 1)
  let opening : Span := ⟨start.pos, nameSpan.stop⟩
  let attributes ← many (attr? g opening name)
  let parts := Tree.leaf .tagName nameSpan :: attributes
  if ← eat "/>" then nodeFrom .selfClosingElement start parts
  else
    modify Cursor.bump
    if isVoidElement name then nodeFrom .selfClosingElement start parts
    else
      let startTag ← nodeFrom .startTag start parts
      let items ← children g .endTag opening ("<" ++ name ++ ">")
      let close ← endTag
      nodeFrom .element start (startTag :: items ++ [close])

/-- Element, fragment or comment at `<`. -/
def tag (g : Nested) : ScanM Tree := do
  let start ← get
  if start.startsWith "<!--" then comment
  else if start.startsWith "</" then strayEndTag
  else
    set start.bump
    if ← eat ">" then fragment g start
    else
      match ← name with
      | none => expected .tagName
      | some nameSpan => element g start nameSpan

/-- What stands between the braces opened at `start`. -/
def braced (g : Nested) (start : Cursor) : ScanM Tree := do
  let c ← get
  if c.atTemplate then
    let root ← templateRoot g
    skipBlanks
    expect "\x7d" .nestedTemplateEnd
    return root
  else
    match flowAhead? c with
    | some flow =>
      let block ← controlFlow (body g) flow
      skipBlanks
      expect "\x7d" .controlFlowEnd
      return block
    | none =>
      set start
      group
      return .leaf .hostExpr (trimmed (start.skip 1) ((← get).pos - 1))

def bracesOf (g : Nested) (kind : Kind) : ScanM Tree := do
  let start ← get
  set start.bump
  skipBlanks
  if ← eat "\x7d" then leafFrom kind start
  else
    let inner ← braced g start
    nodeFrom kind start [inner]

def braces (g : Nested) (kind : Kind) : ScanM Tree := fun start =>
  match bracesOf g kind start with
  | .ok tree next => .ok tree next
  | .error e _ =>
    .ok (.error e.span e.message)
      (match groupLength start.rest with
      | .ok length => start.skip length
      | .error _ => start.advance (max e.span.stop (start.pos + 1) - start.pos))

/-- The nested productions, to at most the given depth. -/
def nested : Nat → Nested
  | 0 =>
    ⟨fun c => .error ⟨.point c.pos, .tooDeep⟩ c, fun _ c => .error ⟨.point c.pos, .tooDeep⟩ c⟩
  | depth + 1 => ⟨fun c => tag (nested depth) c, fun kind c => braces (nested depth) kind c⟩

/-- A template root, or an error in its place; gives the cursor behind it. -/
def rootOrError (g : Nested) (start : Cursor) : Tree × Cursor :=
  match templateRoot g start with
  | .ok tree next => (tree, next)
  | .error e _ =>
    let resume := start.advance (max e.span.stop (start.pos + 1) - start.pos)
    (.node .templateRoot (resume.spanFrom start.pos) [.error e.span e.message], resume)

/-- Host code and template roots by turns; each turn but the last reads a `(`. -/
def fileItems (g : Nested) : Nat → Cursor → List Tree
  | 0, _ => []
  | turns + 1, start =>
    let (found, c) := start.nextTemplate
    let host := if start.pos < c.pos then [Tree.leaf .hostText (c.spanFrom start.pos)] else []
    if found then
      let (root, next) := rootOrError g c
      host ++ root :: fileItems g turns next
    else host

end Parser

/-- The syntax tree of a source file. -/
def parse (source : Bytes) : Tree :=
  let items := Parser.fileItems (Parser.nested (source.length + 1)) (source.length + 1)
    (Cursor.ofBytes source)
  .node .sourceFile ⟨0, source.length⟩ items

end ZigMarkup
