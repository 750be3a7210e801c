import ZigMarkup.Syntax.Markup

/-!
Attributes of tags. One that cannot be read becomes an error node, and reading goes on at the
next blank or at the end of the tag.
-/
namespace ZigMarkup.Parser

open ScanM

/-- A piece of a template string, with the span of an interpolation that holds nothing. -/
def templatePiece (opening : Cursor) : ScanM (Option (Tree × Option Span)) := do
  let start ← get
  match start.peek with
  | none => fail ⟨opening.pos, opening.pos + 1⟩ .unterminatedTemplateString
  | some b =>
    if b = ascii '\x60' then return none
    else if b = ascii '\x7b' then
      group
      let next ← get
      let inner := trimmed (start.skip 1) (next.pos - 1)
      let fault := if inner.isEmpty then some (next.spanFrom start.pos) else none
      return some (.leaf .hostExpr inner, fault)
    else
      set (start.skipWhile fun b => b != ascii '\x60' && b != ascii '\x7b')
      return some (← leafFrom .templateText start, none)

/-- Text in backquotes, with expressions in braces. -/
def templateString : ScanM Tree := do
  let start ← get
  set start.bump
  let pieces ← many (templatePiece start)
  modify Cursor.bump
  match pieces.findSome? (·.2) with
  | some span => fail span .emptyInterpolation
  | none => nodeFrom .templateString start (pieces.map (·.1))

/-- What may follow `=`. -/
def attributeValue (g : Nested) : ScanM Tree := do
  let start ← get
  if start.peek = some (ascii '"') then
    string
    leafFrom .stringValue start
  else if start.peek = some (ascii '\x7b') then g.braces .exprValue
  else if start.peek = some (ascii '\x60') then templateString
  else if start.peek = some (ascii '.') && (start.peekAt 1).any isIdentStart then
    set ((start.skip 1).skipWhile isIdentByte)
    let span := (← get).spanFrom start.pos
    return .node .exprValue span [.leaf .hostExpr span]
  else expected .attributeValue

/-- The value after `=`, if there is one; blanks are left alone without it. -/
def attributeValue? (g : Nested) : ScanM (Option Tree) := do
  let before ← get
  skipBlanks
  if ← eat "=" then
    skipBlanks
    return some (← attributeValue g)
  else
    set before
    return none

/-- A spread attribute: two dots and an expression in braces. -/
def spread (start : Cursor) : ScanM Tree := do
  set start
  group
  let next ← get
  let whole := trimmed (start.skip 1) (next.pos - 1)
  let inner := trimmed (start.skip (whole.start + 2 - start.pos)) whole.stop
  if inner.isEmpty then fail (next.spanFrom start.pos) .emptySpread
  else nodeFrom .spreadAttribute start [.leaf .hostExpr inner]

/-- A name alone in braces, or a spread expression. -/
def bracedAttribute : ScanM Tree := do
  let start ← get
  set start.bump
  skipBlanks
  if ← eat ".." then spread start
  else
    let kind := if ← eat "@" then Kind.builtinShorthandAttribute else Kind.shorthandAttribute
    match ← ident with
    | none => expected .bracedName
    | some name =>
      skipBlanks
      expect "\x7d" .shorthandEnd
      nodeFrom kind start [.leaf .attrName name]

def attr (g : Nested) : ScanM Tree := do
  let start ← get
  match start.peek with
  | none => fail (.point start.pos) .endOfInputInTag
  | some b =>
    if b = ascii '@' then
      set start.bump
      match ← ident with
      | none => expected .builtinName
      | some name =>
        let value ← attributeValue? g
        nodeFrom .builtinAttribute start (.leaf .attrName name :: value.toList)
    else if b = ascii '\x7b' then bracedAttribute
    else
      match ← name with
      | some name =>
        let value ← attributeValue? g
        nodeFrom .staticAttribute start (.leaf .attrName name :: value.toList)
      | none =>
        let c := (headChar? start.rest).getD '?'
        fail ⟨start.pos, start.pos + c.utf8Size⟩ (.unexpectedInTag c)

def attributeRestVisit (_ : Unit) (offset : Nat) (b : UInt8) (rest : Bytes) : Move Unit Nat :=
  if isAsciiBlank b || b = ascii '>' || (b = ascii '/' && rest.head? = some (ascii '>')) then
    .stop offset
  else if b = ascii '\x7b' then
    match groupLength (b :: rest) with
    | .ok length => .go length ()
    | .error _ => .go 1 ()
  else .go 1 ()

/-- What is left of an attribute that could not be read. -/
def attributeRest (text : Bytes) : Nat := walk attributeRestVisit (fun _ reached => reached) () text

def attrOrError (g : Nested) : ScanM Tree := fun start =>
  match attr g start with
  | .ok tree next => .ok tree next
  | .error e reached =>
    let resume := start.advance (max (max e.span.stop (start.pos + 1)) reached.pos - start.pos)
    .ok (.error e.span e.message) (resume.skip (attributeRest resume.rest))

end ZigMarkup.Parser
