import ZigMarkup.Proofs.Surface.Basic

/-!
The syntax tree that a surface template stands for at a position: each part is a node of its
kind over its own text, without the gaps around it.
-/
namespace ZigMarkup.Surface

def leafAt (kind : Kind) (pos : Nat) (s : String) : Tree := .leaf kind (spanAt pos s)

def nodeAt (kind : Kind) (pos : Nat) (s : String) (children : List Tree) : Tree :=
  .node kind (spanAt pos s) children

def captureTrees (pos : Nat) : Option (Capture × Gap) → List Tree
  | none => []
  | some (capture, _) => [leafAt .capture pos capture.text]

def literalTrees (pos : Nat) : Option Literal → List Tree
  | none => []
  | some l => [leafAt .templateText pos l.text]

def interpolationTrees (pos : Nat) : List Interpolation → List Tree
  | [] => []
  | i :: rest =>
    leafAt .hostExpr (pos + width ("\x7b" ++ i.before.text)) i.code.text ::
      (literalTrees (pos + width i.braces) i.literal? ++
        interpolationTrees (pos + width (i.braces ++ literalText i.literal?)) rest)

def Plain.tree (pos : Nat) : Plain → Tree
  | string quoted => leafAt .stringValue pos quoted.text
  | enum ident => nodeAt .exprValue pos ident.literal [leafAt .hostExpr pos ident.literal]
  | code before e after => nodeAt .exprValue pos (Plain.code before e after).text
      [leafAt .hostExpr (pos + width ("\x7b" ++ before.text)) e.text]

def runTrees (pos : Nat) : Option Run → List Tree
  | none => []
  | some run => [leafAt .text pos run.text]

mutual
def Markup.tree (pos : Nat) : Markup → Tree
  | .element name proper attributes gap children before after =>
    let opening := "<" ++ name.text ++ attributes.text ++ gap.text ++ ">"
    let inner := pos + width opening
    let close := inner + width children.text
    nodeAt .element pos (Markup.element name proper attributes gap children before after).text
      (nodeAt .startTag pos opening
          (leafAt .tagName (pos + 1) name.text :: attributes.trees (pos + 1 + width name.text)) ::
        children.trees inner ++
        [nodeAt .endTag close ("</" ++ before.text ++ name.text ++ after.text ++ ">")
          [leafAt .tagName (close + width ("</" ++ before.text)) name.text]])
  | .selfClosing name attributes gap =>
    nodeAt .selfClosingElement pos (Markup.selfClosing name attributes gap).text
      (leafAt .tagName (pos + 1) name.text :: attributes.trees (pos + 1 + width name.text))
  | .fragment children gap =>
    nodeAt .fragment pos (Markup.fragment children gap).text
      (children.trees (pos + 2) ++
        [nodeAt .endTag (pos + 2 + width children.text) ("</" ++ gap.text ++ ">") []])

def Children.trees (pos : Nat) : Children → List Tree
  | .mk run? items => runTrees pos run? ++ items.trees (pos + width (runText run?))

def Items.trees (pos : Nat) : Items → List Tree
  | .done => []
  | .markup markup rest => markup.tree pos :: rest.trees (pos + width markup.text)
  | .braces braces rest => braces.tree .expressionBlock pos :: rest.trees (pos + width braces.text)

def Braces.tree (kind : Kind) (pos : Nat) : Braces → Tree
  | .code before code after =>
    nodeAt kind pos (Braces.code before code after).text
      [leafAt .hostExpr (pos + width ("\x7b" ++ before.text)) code.text]
  | .root before root after =>
    nodeAt kind pos (Braces.root before root after).text
      [root.tree (pos + width ("\x7b" ++ before.text))]
  | .flow before flow after =>
    nodeAt kind pos (Braces.flow before flow after).text
      [flow.tree (pos + width ("\x7b" ++ before.text))]

def Root.tree (pos : Nat) : Root → Tree
  | .mk before markup after =>
    nodeAt .templateRoot pos (Root.mk before markup after).text
      [markup.tree (pos + width ("(" ++ before.text))]

def Body.tree (pos : Nat) : Body → Tree
  | .root root => nodeAt .body pos root.text [root.tree pos]
  | .list children => nodeAt .body pos (Body.list children).text (children.trees (pos + 1))

def Flow.tree (pos : Nat) : Flow → Tree
  | .ifElse before header after body chain =>
    let opening := "if" ++ before.text ++ header.text ++ after.text
    let first := nodeAt .branch pos (opening ++ body.text)
      [leafAt .header (pos + width ("if" ++ before.text)) header.text,
        body.tree (pos + width opening)]
    nodeAt .ifBlock pos (Flow.ifElse before header after body chain).text
      (first :: chain.trees (pos + width (opening ++ body.text)))
  | .forLoop before header after body =>
    let opening := "for" ++ before.text ++ header.text ++ after.text
    nodeAt .forBlock pos (opening ++ body.text)
      [nodeAt .branch pos (opening ++ body.text)
        [leafAt .header (pos + width ("for" ++ before.text)) header.text,
          body.tree (pos + width opening)]]
  | .whileLoop before header continue? after body =>
    let opening := "while" ++ before.text ++ headerText header continue? ++ after.text
    nodeAt .whileBlock pos (opening ++ body.text)
      [nodeAt .branch pos (opening ++ body.text)
        [leafAt .header (pos + width ("while" ++ before.text)) (headerText header continue?),
          body.tree (pos + width opening)]]
  | .switch before subject between first prongs =>
    nodeAt .switchBlock pos (Flow.switch before subject between first prongs).text
      (leafAt .header (pos + width ("switch" ++ before.text)) subject.text ::
        prongs.trees (pos + width ("switch" ++ before.text ++ subject.text ++ between.text ++
          "\x7b" ++ first.text)))

def Chain.trees (pos : Nat) : Chain → List Tree
  | .done => []
  | .elseIf before space gap header after body rest =>
    let start := pos + width before.text
    let keywords := "else" ++ space.text ++ "if" ++ gap.text
    let opening := keywords ++ header.text ++ after.text
    nodeAt .branch start (opening ++ body.text)
        [leafAt .header (start + width keywords) header.text, body.tree (start + width opening)] ::
      rest.trees (start + width (opening ++ body.text))
  | .otherwise before gap capture? body =>
    let start := pos + width before.text
    let opening := "else" ++ gap.text ++ captureText capture?
    [nodeAt .branch start (opening ++ body.text)
      (captureTrees (start + width ("else" ++ gap.text)) capture? ++
        [body.tree (start + width opening)])]

def Prongs.trees (pos : Nat) : Prongs → List Tree
  | .last pattern before after capture? body _ _ =>
    let arrow := pattern.text ++ before.text ++ "=>" ++ after.text
    let opening := arrow ++ captureText capture?
    [nodeAt .branch pos (opening ++ body.text)
      (leafAt .pattern pos pattern.text :: captureTrees (pos + width arrow) capture? ++
        [body.tree (pos + width opening)])]
  | .more pattern before after capture? body gap next rest =>
    let arrow := pattern.text ++ before.text ++ "=>" ++ after.text
    let opening := arrow ++ captureText capture?
    nodeAt .branch pos (opening ++ body.text)
        (leafAt .pattern pos pattern.text :: captureTrees (pos + width arrow) capture? ++
          [body.tree (pos + width opening)]) ::
      rest.trees (pos + width (opening ++ body.text ++ gap.text ++ "," ++ next.text))

def Attrs.trees (pos : Nat) : Attrs → List Tree
  | .done => []
  | .more space attr rest =>
    attr.tree (pos + width space.text) :: rest.trees (pos + width (space.text ++ attr.text))

def Attr.tree (pos : Nat) : Attr → Tree
  | .flag name => nodeAt .staticAttribute pos name.text [leafAt .attrName pos name.text]
  | .static name before after value =>
    nodeAt .staticAttribute pos (Attr.static name before after value).text
      [leafAt .attrName pos name.text,
        value.tree (pos + width (name.text ++ before.text ++ "=" ++ after.text))]
  | .builtin b before after value =>
    nodeAt .builtinAttribute pos (Attr.builtin b before after value).text
      [leafAt .attrName (pos + 1) b.name,
        value.tree (pos + width ("@" ++ b.name ++ before.text ++ "=" ++ after.text))]
  | .shorthand before ident after =>
    nodeAt .shorthandAttribute pos (Attr.shorthand before ident after).text
      [leafAt .attrName (pos + width ("\x7b" ++ before.text)) ident.text]
  | .builtinShorthand before b after =>
    nodeAt .builtinShorthandAttribute pos (Attr.builtinShorthand before b after).text
      [leafAt .attrName (pos + width ("\x7b" ++ before.text ++ "@")) b.name]
  | .spread before between code after =>
    nodeAt .spreadAttribute pos (Attr.spread before between code after).text
      [leafAt .hostExpr (pos + width ("\x7b" ++ before.text ++ ".." ++ between.text)) code.text]

def Value.tree (pos : Nat) : Value → Tree
  | .string quoted => leafAt .stringValue pos quoted.text
  | .enum ident => nodeAt .exprValue pos ident.literal [leafAt .hostExpr pos ident.literal]
  | .braces braces => braces.tree .exprValue pos
  | .template first? rest =>
    nodeAt .templateString pos (Value.template first? rest).text
      (literalTrees (pos + 1) first? ++
        interpolationTrees (pos + width ("\x60" ++ literalText first?)) rest)
end

def hostTrees (pos : Nat) (host : Host) : List Tree :=
  if host.text = "" then [] else [leafAt .hostText pos host.text]

def File.trees (pos : Nat) : File → List Tree
  | .last host => hostTrees pos host
  | .more host root rest =>
    hostTrees pos host ++ root.tree (pos + width host.text) ::
      rest.trees (pos + width (host.text ++ root.text))

def File.tree (file : File) : Tree := nodeAt .sourceFile 0 file.text (file.trees 0)

end ZigMarkup.Surface
