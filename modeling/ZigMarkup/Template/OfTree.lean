import ZigMarkup.Syntax.Tree
import ZigMarkup.Template.Basic
import ZigMarkup.Template.Problem
import ZigMarkup.Zig.Literal

/-!
Templates from syntax trees. This is where a well-formed source may still be refused: names
of start and end tags must match, a template has one root, no attribute is set twice, and
builtins are known, have values and stand on tags that accept them. The first problem in
source order is the one reported.
-/
namespace ZigMarkup

abbrev Checked := Except Diagnostic

def refuse {α : Type} (span : Span) (problem : Problem) : Checked α :=
  .error (problem.diagnose span)

namespace OfTree

def builtinOf (span : Span) (name : String) : Checked Builtin :=
  match Builtin.ofName? name with
  | some builtin => .ok builtin
  | none => refuse span (.unknownBuiltin name)

/-- Refuses names and builtins that were set before. The lists hold what was set so far. -/
def checkAttributesFrom (kind : TagKind) (names : List (String × Span))
    (builtins : List (Builtin × Span)) : List Attribute → Checked Unit
  | [] => .ok ()
  | a :: rest =>
    match a.name?, a.builtin? with
    | some name, _ =>
      match names.lookup name with
      | some first => refuse a.span (.duplicateAttribute name first)
      | none => checkAttributesFrom kind ((name, a.span) :: names) builtins rest
    | none, some builtin =>
      match builtins.lookup builtin with
      | some first => refuse a.span (.duplicateBuiltin builtin first)
      | none =>
        if builtin = .rendering && kind ≠ .component then refuse a.span .misplacedRendering
        else checkAttributesFrom kind names ((builtin, a.span) :: builtins) rest
    | none, none => checkAttributesFrom kind names builtins rest

def checkAttributes (kind : TagKind) (attributes : List Attribute) : Checked Unit :=
  checkAttributesFrom kind [] [] attributes

/-- A component gets its children as an attribute or as content, not as both. -/
def checkChildren (tag : Tag) (children : List Node) : Checked Unit :=
  match tag.attributes.find? (·.name? = some "children"), children.find? (!·.isBlankText) with
  | some declared, some content => refuse content.span (.duplicateChildren declared.span)
  | _, _ => .ok ()

variable (source : Bytes)

def childText? (kind : Kind) (children : List Tree) : Option String :=
  (children.find? (·.kind == kind)).map (·.text source)

/-- The value of a builtin is one plain expression, and for `@escaping` a mode. -/
def builtinValueOf (builtin : Builtin) (value : Tree) : Checked String := do
  let text ← match value.kind, value.children with
    | .stringValue, _ => pure (value.text source)
    | .exprValue, expr :: _ =>
      if expr.kind = .hostExpr then pure (expr.text source)
      else refuse value.span (.builtinValue builtin)
    | .error, _ => refuse value.span (.unreadable value.message)
    | _, _ => refuse value.span (.builtinValue builtin)
  if builtin = .escaping && (Escaping.ofText? text).isNone then
    refuse value.span (.unknownEscaping text)
  else return text

def builtinAttributeOf (span : Span) (name : String) (value? : Option Tree) :
    Checked Attribute := do
  let builtin ← builtinOf span name
  match value? with
  | none => refuse span (.builtinWithoutValue name)
  | some value => return .builtin span builtin (← builtinValueOf source builtin value)

def builtinShorthandOf (span : Span) (name : String) : Checked Attribute := do
  let builtin ← builtinOf span name
  if builtin = .escaping then refuse span .variableEscaping
  else return .builtinShorthand span builtin

/-- What a piece of a template string adds to the format string. -/
def formatPieceOf (piece : Tree) : String :=
  match piece.kind with
  | .templateText => Literal.formatPiece (piece.text source)
  | .hostExpr => "\x7bs\x7d"
  | _ => ""

def formatOf (pieces : List Tree) : String := String.join (pieces.map (formatPieceOf source))

def argsOf (pieces : List Tree) : List String :=
  (pieces.filter (·.kind == .hostExpr)).map (·.text source)

/-- The condition of a branch or the pattern of a prong. -/
def headOf? (parts : List Tree) : Option String :=
  (childText? source .header parts).orElse fun _ => childText? source .pattern parts

def rawText (span : Span) : Node := .text span (span.text source) .html none

/-- An expression alone is a value; all else in braces is a node. -/
def valueOf : Node → AttrValue
  | .expr _ code _ => .expr code
  | node => .node node

/-- A fragment is closed without a name. -/
def checkFragmentEnd (span : Span) (children : List Tree) : Checked Unit :=
  match children.getLast? with
  | none => refuse span .malformedFragment
  | some close =>
    if (close.child? .tagName).isSome then
      let opening := Span.ofOffsets span.start (span.start + 2)
      refuse close.span (.closingMismatch (close.text source) "" opening)
    else .ok ()

mutual
/-- The node that a tree stands for; comments and empty braces stand for none. -/
def nodeOf? : Tree → Checked (Option Node)
  | ⟨kind, span, children, message⟩ =>
    match kind with
    | .element => do return some (← elementOf span children)
    | .selfClosingElement => do return some (.selfClosing (← tagOf span children))
    | .fragment => do
      checkFragmentEnd source span children
      return some (.fragment span (← innerNodesOf children))
    | .text => .ok (some (rawText source span))
    | .expressionBlock => bracedOf? span children
    | .comment => .ok none
    | .error => refuse span (.unreadable message)
    | kind => refuse span (.misplaced kind .template)

def nodesOf : List Tree → Checked (List Node)
  | [] => .ok []
  | t :: ts => do
    let node ← nodeOf? t
    let nodes ← nodesOf ts
    return node.toList ++ nodes

/-- The nodes of all trees but the last, which is a closing tag. -/
def innerNodesOf : List Tree → Checked (List Node)
  | [] => .ok []
  | [_] => .ok []
  | t :: u :: ts => do
    let node ← nodeOf? t
    let nodes ← innerNodesOf (u :: ts)
    return node.toList ++ nodes

/-- What stands in braces: an expression, a template or control flow. -/
def bracedOf? (span : Span) : List Tree → Checked (Option Node)
  | [] => .ok none
  | ⟨kind, inner, children, message⟩ :: _ =>
    match kind with
    | .hostExpr => .ok (some (.expr span (inner.text source) .html))
    | .templateRoot => do return some (← rootOf inner children)
    | .error => refuse inner (.unreadable message)
    | kind =>
      match FlowKind.ofKind? kind with
      | some flow => do
        let subject := if flow = .switch then childText? source .header children else none
        return some (.flow inner flow subject "" (← branchesOf children))
      | none => refuse inner (.misplaced kind .braces)

/-- The one node of a template root, comments apart. -/
def rootOf (span : Span) : List Tree → Checked Node
  | [] => refuse span .noRoot
  | t :: ts =>
    if t.kind = .comment then rootOf span ts
    else
      match ts.find? (·.kind != .comment) with
      | some extra => refuse extra.span (.manyRoots t.span)
      | none => do
        match ← nodeOf? t with
        | some node => return node
        | none => refuse span .noRoot

def elementOf (span : Span) : List Tree → Checked Node
  | [] => refuse span .malformedElement
  | ⟨_, startSpan, parts, _⟩ :: rest => do
    let tag ← tagOf span parts
    let close := rest.getLastD ⟨.startTag, startSpan, parts, none⟩
    if childText? source .tagName close.children ≠ some tag.name then
      let opened := (parts.find? (·.kind == .tagName)).elim startSpan Tree.span
      refuse close.span (.closingMismatch (close.text source) tag.name opened)
    else
      let children ← innerNodesOf rest
      if tag.isComponent then checkChildren tag children
      return .element tag children

/-- A tag from its name and attributes. -/
def tagOf (span : Span) : List Tree → Checked Tag
  | [] => refuse span .missingTagName
  | nameTree :: rest => do
    let name := nameTree.text source
    let kind := TagKind.ofName name
    let attributes ← attributesOf rest
    checkAttributes kind attributes
    return ⟨span, name, kind, attributes, .html, ""⟩

def attributesOf : List Tree → Checked (List Attribute)
  | [] => .ok []
  | t :: ts => do
    let a ← attributeOf t
    let rest ← attributesOf ts
    return a :: rest

def attributeOf : Tree → Checked Attribute
  | ⟨kind, span, children, message⟩ =>
    let name := (childText? source .attrName children).getD ""
    match kind with
    | .staticAttribute => staticOf span name children
    | .builtinAttribute => builtinAttributeOf source span name children[1]?
    | .shorthandAttribute => .ok (.shorthand span name)
    | .builtinShorthandAttribute => builtinShorthandOf span name
    | .spreadAttribute => .ok (.spread span ((childText? source .hostExpr children).getD ""))
    | .error => refuse span (.unreadable message)
    | kind => refuse span (.misplaced kind .tag)

def staticOf (span : Span) (name : String) : List Tree → Checked Attribute
  | _ :: ⟨kind, valueSpan, children, message⟩ :: _ =>
    match kind with
    | .stringValue => .ok (.static span name (.literal (valueSpan.text source)))
    | .exprValue => do
      match ← bracedOf? valueSpan children with
      | some node => return .static span name (valueOf node)
      | none => refuse valueSpan (.emptyValue name)
    | .templateString =>
      .ok (.formatted span name (formatOf source children) (argsOf source children))
    | .error => refuse valueSpan (.unreadable message)
    | kind => refuse valueSpan (.misplaced kind .attributeValue)
  | _ => .ok (.static span name .flag)

def branchesOf : List Tree → Checked (List Branch)
  | [] => .ok []
  | ⟨kind, span, parts, _⟩ :: ts =>
    if kind = .branch then do
      let body ← bodyOf span parts
      let branches ← branchesOf ts
      return ⟨span, headOf? source parts, childText? source .capture parts, body⟩ :: branches
    else branchesOf ts

/-- The body among the parts of a branch. -/
def bodyOf (span : Span) : List Tree → Checked Body
  | [] => refuse span .missingBody
  | ⟨kind, _, children, _⟩ :: parts =>
    if kind = .body then
      match children with
      | [⟨.templateRoot, rootSpan, items, _⟩] => do return .node (← rootOf rootSpan items)
      | items => do return .list (← nodesOf items)
    else bodyOf span parts
end

end OfTree

/-- All templates of a source file, or the first thing wrong with them. What could not be read
comes before everything else. -/
def templatesOf (source : Bytes) (file : Tree) : Checked (List Template) :=
  match file.errors with
  | error :: _ => refuse error.span (.unreadable error.message)
  | [] => file.templateRoots.mapM fun root => do
    return ⟨root.span, ← OfTree.rootOf source root.span root.children, ""⟩

end ZigMarkup
