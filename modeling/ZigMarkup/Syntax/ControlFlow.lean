import ZigMarkup.Flow
import ZigMarkup.Syntax.Markup

/-!
Control flow inside braces. A word such as `if` opens a construct of the template only where
a body of markup follows; otherwise the braces hold an expression of host code.
-/
namespace ZigMarkup.Parser

open ScanM

/-- A continue expression `: (expr)` after the head of a loop; gives the cursor behind it. -/
def continueClause (before : Cursor) : ScanM Cursor := do
  skipBlanks
  if ← eat ":" then
    skipBlanks
    parens .continueExpr
    get
  else return before

/-- The condition with its captures, and for `while` the continue expression. -/
def header (withContinue : Bool) : ScanM Tree := do
  let start ← get
  parens .condition
  let condition ← get
  skipBlanks
  let captured ← if (← capture).isSome then get else pure condition
  let stop ← if withContinue then continueClause captured else pure captured
  set stop
  leafFrom .header start

/-- Whether a body of markup lies ahead, after a capture and a continue expression. -/
def opensBody (flow : FlowKind) : ScanM Bool := do
  if (← capture).isSome then skipBlanks
  if flow = .whileLoop then
    if ← eat ":" then
      skipBlanks
      parens .continueExpr
      skipBlanks
  let c ← get
  return c.atTemplate || c.peek = some (ascii '\x7b')

def opensMarkup (flow : FlowKind) : ScanM Bool := do
  modify (·.skip (utf8 flow.keyword).length)
  skipBlanks
  parens .condition
  skipBlanks
  if flow = .switch then
    if ← eat "\x7b" then
      skipBlanks
      if (← get).peek = some (ascii '\x7d') then return true
      else
        untilTopLevel "=>"
        modify (·.skip 2)
        skipBlanks
        opensBody flow
    else return false
  else opensBody flow

/-- The construct that begins at the cursor. -/
def flowAhead? (c : Cursor) : Option FlowKind := do
  let flow ← FlowKind.all.find? (c.atKeyword ·.keyword)
  match opensMarkup flow c with
  | .ok true _ => some flow
  | _ => none

variable (body : ScanM Tree)

def headedBranch (start : Cursor) (withContinue : Bool) : ScanM Tree := do
  skipBlanks
  let header ← header withContinue
  skipBlanks
  let body ← body
  nodeFrom .branch start [header, body]

/-- A body, after the capture if there is one. -/
def capturedBody : ScanM (List Tree) := do
  match ← capture with
  | some span =>
    skipBlanks
    return [.leaf .capture span, ← body]
  | none => return [← body]

def elseIf? : ScanM (Option Tree) := do
  let before ← get
  let start := before.skipBlanks
  let after := (start.skip 4).skipBlanks
  if start.atKeyword "else" && after.atKeyword "if" then
    set (after.skip 2)
    return some (← headedBranch body start false)
  else return none

def else? : ScanM (Option Tree) := do
  let before ← get
  let start := before.skipBlanks
  if start.atKeyword "else" then
    set (start.skip 4).skipBlanks
    let parts ← capturedBody body
    return some (← nodeFrom .branch start parts)
  else return none

def ifBlock : ScanM Tree := do
  let start ← get
  set (start.skip 2)
  let first ← headedBranch body start false
  let others ← many (elseIf? body)
  let last ← else? body
  nodeFrom .ifBlock start (first :: others ++ last.toList)

def loopBlock (flow : FlowKind) : ScanM Tree := do
  let start ← get
  set (start.skip (utf8 flow.keyword).length)
  let branch ← headedBranch body start (flow = .whileLoop)
  nodeFrom flow.kind start [branch]

/-- A prong of the switch that begins at `opening`; nothing at its closing brace. -/
def prong? (opening : Cursor) : ScanM (Option Tree) := do
  skipBlanks
  if ← eat "\x7d" then return none
  else
    let start ← get
    if start.atEnd then fail ⟨opening.pos, opening.pos + 6⟩ .unclosedSwitch
    else
      untilTopLevel "=>"
      let pattern := trimmed start (← get).pos
      if pattern.isEmpty then expected .prongPattern
      else
        modify (·.skip 2)
        skipBlanks
        let parts ← capturedBody body
        let prong ← nodeFrom .branch start (.leaf .pattern pattern :: parts)
        skipBlanks
        let _ ← eat ","
        return some prong

def switchBlock : ScanM Tree := do
  let start ← get
  set (start.skip 6)
  skipBlanks
  let subject ← get
  parens .switchSubject
  let header ← leafFrom .header subject
  skipBlanks
  expect "\x7b" .switchOpen
  let prongs ← many (prong? body start)
  if prongs.isEmpty then fail ⟨start.pos, start.pos + 6⟩ .emptySwitch
  else nodeFrom .switchBlock start (header :: prongs)

def controlFlow : FlowKind → ScanM Tree
  | .ifElse => ifBlock body
  | .switch => switchBlock body
  | flow => loopBlock body flow

end ZigMarkup.Parser
