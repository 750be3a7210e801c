import ZigMarkup.Proofs.Surface.Basic
import ZigMarkup.Template.OfTree

/-!
The template that a surface template stands for at a position, and the rules that its tags must
keep: attributes that may stand together, and builtins with values that they accept.
-/
namespace ZigMarkup.Surface

def literalFormat : Option Literal → String
  | none => ""
  | some l => ZigMarkup.Literal.formatPiece l.text

def interpolationsFormat : List Interpolation → String
  | [] => ""
  | i :: rest => "\x7bs\x7d" ++ literalFormat i.literal? ++ interpolationsFormat rest

def captureOf (capture? : Option (Capture × Gap)) : Option String := capture?.map (·.1.text)

def runNodes (pos : Nat) : Option Run → List Node
  | none => []
  | some run => [.text (spanAt pos run.text) run.text .html none]

mutual
def Markup.node (pos : Nat) : Markup → Node
  | .element name proper attributes gap children before after =>
    .element ⟨spanAt pos (Markup.element name proper attributes gap children before after).text,
        name.text, TagKind.ofName name.text, attributes.attributes (pos + 1 + width name.text),
        .html, ""⟩
      (children.nodes (pos + width ("<" ++ name.text ++ attributes.text ++ gap.text ++ ">")))
  | .selfClosing name attributes gap =>
    .selfClosing ⟨spanAt pos (Markup.selfClosing name attributes gap).text, name.text,
      TagKind.ofName name.text, attributes.attributes (pos + 1 + width name.text), .html, ""⟩
  | .fragment children gap =>
    .fragment (spanAt pos (Markup.fragment children gap).text) (children.nodes (pos + 2))

def Children.nodes (pos : Nat) : Children → List Node
  | .mk run? items => runNodes pos run? ++ items.nodes (pos + width (runText run?))

def Items.nodes (pos : Nat) : Items → List Node
  | .done => []
  | .markup markup rest => markup.node pos :: rest.nodes (pos + width markup.text)
  | .braces braces rest => braces.node pos :: rest.nodes (pos + width braces.text)

def Braces.node (pos : Nat) : Braces → Node
  | .code before code after =>
    .expr (spanAt pos (Braces.code before code after).text) code.text .html
  | .root before root _ => root.node (pos + width ("\x7b" ++ before.text))
  | .flow before flow _ => flow.node (pos + width ("\x7b" ++ before.text))

def Root.node (pos : Nat) : Root → Node
  | .mk before markup _ => markup.node (pos + width ("(" ++ before.text))

def Body.body (pos : Nat) : Body → ZigMarkup.Body
  | .root root => .node (root.node pos)
  | .list children => .list (children.nodes (pos + 1))

def Flow.node (pos : Nat) : Flow → Node
  | .ifElse before header after body chain =>
    let opening := "if" ++ before.text ++ header.text ++ after.text
    .flow (spanAt pos (Flow.ifElse before header after body chain).text) .ifElse none ""
      (⟨spanAt pos (opening ++ body.text), some header.text, none,
          body.body (pos + width opening)⟩ ::
        chain.branches (pos + width (opening ++ body.text)))
  | .forLoop before header after body =>
    let opening := "for" ++ before.text ++ header.text ++ after.text
    .flow (spanAt pos (opening ++ body.text)) .forLoop none ""
      [⟨spanAt pos (opening ++ body.text), some header.text, none, body.body (pos + width opening)⟩]
  | .whileLoop before header continue? after body =>
    let opening := "while" ++ before.text ++ headerText header continue? ++ after.text
    .flow (spanAt pos (opening ++ body.text)) .whileLoop none ""
      [⟨spanAt pos (opening ++ body.text), some (headerText header continue?), none,
        body.body (pos + width opening)⟩]
  | .switch before subject between first prongs =>
    .flow (spanAt pos (Flow.switch before subject between first prongs).text) .switch
      (some subject.text) ""
      (prongs.branches (pos + width ("switch" ++ before.text ++ subject.text ++ between.text ++
        "\x7b" ++ first.text)))

def Chain.branches (pos : Nat) : Chain → List Branch
  | .done => []
  | .elseIf before space gap header after body rest =>
    let start := pos + width before.text
    let opening := "else" ++ space.text ++ "if" ++ gap.text ++ header.text ++ after.text
    ⟨spanAt start (opening ++ body.text), some header.text, none,
        body.body (start + width opening)⟩ ::
      rest.branches (start + width (opening ++ body.text))
  | .otherwise before gap capture? body =>
    let start := pos + width before.text
    let opening := "else" ++ gap.text ++ captureText capture?
    [⟨spanAt start (opening ++ body.text), none, captureOf capture?,
      body.body (start + width opening)⟩]

def Prongs.branches (pos : Nat) : Prongs → List Branch
  | .last pattern before after capture? body _ _ =>
    let opening := pattern.text ++ before.text ++ "=>" ++ after.text ++ captureText capture?
    [⟨spanAt pos (opening ++ body.text), some pattern.text, captureOf capture?,
      body.body (pos + width opening)⟩]
  | .more pattern before after capture? body gap next rest =>
    let opening := pattern.text ++ before.text ++ "=>" ++ after.text ++ captureText capture?
    ⟨spanAt pos (opening ++ body.text), some pattern.text, captureOf capture?,
        body.body (pos + width opening)⟩ ::
      rest.branches (pos + width (opening ++ body.text ++ gap.text ++ "," ++ next.text))

def Attrs.attributes (pos : Nat) : Attrs → List Attribute
  | .done => []
  | .more space attr rest =>
    attr.attribute (pos + width space.text) ::
      rest.attributes (pos + width (space.text ++ attr.text))

def Attr.attribute (pos : Nat) : Attr → Attribute
  | .flag name => .static (spanAt pos name.text) name.text .flag
  | .static name before after value =>
    value.attribute (spanAt pos (Attr.static name before after value).text) name.text
      (pos + width (name.text ++ before.text ++ "=" ++ after.text))
  | .builtin b before after value =>
    .builtin (spanAt pos (Attr.builtin b before after value).text) b value.value
  | .shorthand before ident after =>
    .shorthand (spanAt pos (Attr.shorthand before ident after).text) ident.text
  | .builtinShorthand before b after =>
    .builtinShorthand (spanAt pos (Attr.builtinShorthand before b after).text) b
  | .spread before between code after =>
    .spread (spanAt pos (Attr.spread before between code after).text) code.text

/-- The attribute that a name and a value make. -/
def Value.attribute (span : Span) (name : String) (pos : Nat) : Value → Attribute
  | .string quoted => .static span name (.literal quoted.text)
  | .enum ident => .static span name (.expr ident.literal)
  | .braces braces => .static span name (OfTree.valueOf (braces.node pos))
  | .template first? rest =>
    .formatted span name (literalFormat first? ++ interpolationsFormat rest)
      (rest.map (·.code.text))
end

def File.templates (pos : Nat) : File → List Template
  | .last _ => []
  | .more host root rest =>
    ⟨spanAt (pos + width host.text) root.text, root.node (pos + width host.text), ""⟩ ::
      rest.templates (pos + width (host.text ++ root.text))

/-! ## Rules for tags -/

/-- The name that an attribute sets, if it sets just one. -/
def Attr.name? : Attr → Option String
  | .flag name => some name.text
  | .static name _ _ _ => some name.text
  | .shorthand _ ident _ => some ident.text
  | .builtin .. | .builtinShorthand .. | .spread .. => none

def Attr.builtin? : Attr → Option Builtin
  | .builtin b _ _ _ => some b
  | .builtinShorthand _ b _ => some b
  | .flag .. | .static .. | .shorthand .. | .spread .. => none

def Attrs.list : Attrs → List Attr
  | .done => []
  | .more _ attr rest => attr :: rest.list

def Attrs.names (attributes : Attrs) : List String := attributes.list.filterMap Attr.name?

def Attrs.builtins (attributes : Attrs) : List Builtin := attributes.list.filterMap Attr.builtin?

/-- Attributes that may stand together on a tag. -/
structure Attrs.Together (attributes : Attrs) (name : String) : Prop where
  names : attributes.names.Nodup
  builtins : attributes.builtins.Nodup
  rendering : .rendering ∈ attributes.builtins → isComponentName name

/-- Children that are nothing but blank text. -/
def Children.isBlank : Children → Bool
  | .mk run? .done => run?.all (·.text.toList.all ZigMarkup.isBlank)
  | .mk _ _ => false

mutual
/-- A component that is given its `children` by an attribute has no others. -/
def Markup.Valid : Markup → Prop
  | .element name _ attributes _ children _ _ =>
    (attributes.Valid ∧ attributes.Together name.text) ∧ children.Valid ∧
      (isComponentName name.text → "children" ∈ attributes.names → children.isBlank)
  | .selfClosing name attributes _ => attributes.Valid ∧ attributes.Together name.text
  | .fragment children _ => children.Valid

def Children.Valid : Children → Prop
  | .mk _ items => items.Valid

def Items.Valid : Items → Prop
  | .done => True
  | .markup markup rest => markup.Valid ∧ rest.Valid
  | .braces braces rest => braces.Valid ∧ rest.Valid

def Braces.Valid : Braces → Prop
  | .code _ _ _ => True
  | .root _ root _ => root.Valid
  | .flow _ flow _ => flow.Valid

def Root.Valid : Root → Prop
  | .mk _ markup _ => markup.Valid

def Body.Valid : Body → Prop
  | .root root => root.Valid
  | .list children => children.Valid

def Flow.Valid : Flow → Prop
  | .ifElse _ _ _ body chain => body.Valid ∧ chain.Valid
  | .forLoop _ _ _ body => body.Valid
  | .whileLoop _ _ _ _ body => body.Valid
  | .switch _ _ _ _ prongs => prongs.Valid

def Chain.Valid : Chain → Prop
  | .done => True
  | .elseIf _ _ _ _ _ body rest => body.Valid ∧ rest.Valid
  | .otherwise _ _ _ body => body.Valid

def Prongs.Valid : Prongs → Prop
  | .last _ _ _ _ body _ _ => body.Valid
  | .more _ _ _ _ body _ _ rest => body.Valid ∧ rest.Valid

def Attrs.Valid : Attrs → Prop
  | .done => True
  | .more _ attr rest => attr.Valid ∧ rest.Valid

/-- The mode of `@escaping` is written out. -/
def Attr.Valid : Attr → Prop
  | .static _ _ _ value => value.Valid
  | .builtin b _ _ value => b = .escaping → (Escaping.ofText? value.value).isSome
  | .builtinShorthand _ b _ => b ≠ .escaping
  | .flag _ => True
  | .shorthand _ _ _ => True
  | .spread _ _ _ _ => True

def Value.Valid : Value → Prop
  | .string _ => True
  | .enum _ => True
  | .braces braces => braces.Valid
  | .template _ _ => True
end

def File.Valid : File → Prop
  | .last _ => True
  | .more _ root rest => root.Valid ∧ rest.Valid

end ZigMarkup.Surface
