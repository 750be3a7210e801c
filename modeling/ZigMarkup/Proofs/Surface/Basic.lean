import ZigMarkup.Syntax.Parser

/-!
Templates as they are written. A surface template has all that its text has, blanks included,
and can only be built as the grammar allows: no two text runs touch, a switch has a prong, the
name of an element is not that of a void one. Host code is opaque but self-contained. `text`
is what is written.
-/
namespace ZigMarkup.Surface

/-- How many bytes a text takes. -/
def width (s : String) : Nat := (utf8 s).length

def spanAt (pos : Nat) (s : String) : Span := ⟨pos, pos + width s⟩

/-! ## Parts that hold no others -/

/-- Blanks between two parts. -/
structure Gap where
  text : String
  blank : ∀ c ∈ text.toList, c ∈ [' ', '\t', '\n', '\r', '\x0c']

/-- Blanks that keep two parts apart. -/
structure Space extends Gap where
  nonempty : text ≠ ""

/-- A name of a tag or an attribute. -/
structure Name where
  text : String
  head : (utf8 text).head?.any isIdentStart
  bytes : (utf8 text).all isNameByte

structure Ident where
  text : String
  head : (utf8 text).head?.any isIdentStart
  bytes : (utf8 text).all isIdentByte

/-- A run of text among children. -/
structure Run where
  text : String
  nonempty : text ≠ ""
  bytes : (utf8 text).all Parser.isTextByte

/-- Text between the expressions of a template string. -/
structure Literal where
  text : String
  nonempty : text ≠ ""
  bytes : (utf8 text).all fun b => b != ascii '\x60' && b != ascii '\x7b'

/-- What stands between the quotes of a string. -/
structure Quoted where
  inner : String
  closed : ∀ after, quotedTail (ascii '"') (utf8 inner ++ ascii '"' :: after) = ⟨width inner + 1, true⟩

/-- Host code that a search for the end of a group passes as a whole, whatever follows it. -/
def SelfContained (code : Bytes) : Prop :=
  ∀ finish closer outer offset after,
    walkFrom groupVisit finish 0 (closer :: outer) offset (code ++ after) =
      walkFrom groupVisit finish 0 (closer :: outer) (offset + code.length) after

/-- An expression of host code without blanks at its ends. -/
structure Code where
  text : String
  nonempty : text ≠ ""
  trimmed : trim text = text
  balanced : SelfContained (utf8 text)

/-- An expression that can stand alone in braces: what begins there is neither a template nor
a construct of control flow. -/
structure Expr extends Code where
  noTemplate : ∀ after, beginsTemplate (utf8 text ++ after) = false
  noFlow : ∀ pos (gap : Gap) after,
    Parser.flowAhead? ⟨pos, utf8 text ++ (utf8 gap.text ++ ascii '\x7d' :: after)⟩ = none

/-- One group in parentheses. -/
structure Group where
  text : String
  opened : (utf8 text).head? = some (ascii '(')
  whole : ∀ after, groupLength (utf8 text ++ after) = .ok (width text)

/-- What stands between the bars of a capture. -/
structure Capture where
  inner : String
  bytes : (utf8 inner).all fun b => b != ascii '|' && b != ascii '\n'

/-- The pattern of a prong: the search for its arrow passes it as a whole. -/
structure Pattern where
  text : String
  nonempty : text ≠ ""
  trimmed : trim text = text
  passed : ∀ finish offset after,
    walkFrom (untilVisit (utf8 "=>")) finish 0 () offset (utf8 text ++ after) =
      walkFrom (untilVisit (utf8 "=>")) finish 0 () (offset + width text) after

/-- Host code around templates: the search for the next template passes it as a whole. -/
structure Host where
  text : String
  passed : ∀ finish offset after,
    walkFrom templateVisit finish 0 () offset (utf8 text ++ after) =
      walkFrom templateVisit finish 0 () (offset + width text) after

def Quoted.text (q : Quoted) : String := "\"" ++ q.inner ++ "\""

def Capture.text (c : Capture) : String := "|" ++ c.inner ++ "|"

/-- A bare enum literal. -/
def Ident.literal (i : Ident) : String := "." ++ i.text

/-- A condition with its capture. -/
structure Header where
  condition : Group
  capture? : Option (Gap × Capture)

def Header.text : Header → String
  | ⟨condition, none⟩ => condition.text
  | ⟨condition, some (gap, capture)⟩ => condition.text ++ gap.text ++ capture.text

/-- The continue expression of a `while`. -/
structure Continue where
  before : Gap
  after : Gap
  expr : Group

def Continue.text (c : Continue) : String := c.before.text ++ ":" ++ c.after.text ++ c.expr.text

def continueText : Option Continue → String
  | none => ""
  | some c => c.text

/-- The header of a branch may go on with a continue expression. -/
def headerText (header : Header) (continue? : Option Continue) : String :=
  header.text ++ continueText continue?

/-- A capture before a body. -/
def captureText : Option (Capture × Gap) → String
  | none => ""
  | some (capture, gap) => capture.text ++ gap.text

/-- An expression of a template string and the text behind it. -/
structure Interpolation where
  before : Gap
  code : Code
  after : Gap
  literal? : Option Literal

def literalText : Option Literal → String
  | none => ""
  | some l => l.text

def Interpolation.braces (i : Interpolation) : String :=
  "\x7b" ++ i.before.text ++ i.code.text ++ i.after.text ++ "\x7d"

def interpolationsText : List Interpolation → String
  | [] => ""
  | i :: rest => i.braces ++ literalText i.literal? ++ interpolationsText rest

/-- The value of a builtin. -/
inductive Plain where
  | string (quoted : Quoted)
  | enum (ident : Ident)
  | code (before : Gap) (code : Expr) (after : Gap)

def Plain.text : Plain → String
  | string quoted => quoted.text
  | enum ident => ident.literal
  | code before e after => "\x7b" ++ before.text ++ e.text ++ after.text ++ "\x7d"

/-- What a plain value gives its builtin. -/
def Plain.value : Plain → String
  | string quoted => quoted.text
  | enum ident => ident.literal
  | code _ e _ => e.text

/-! ## Parts that hold each other -/

mutual
inductive Markup where
  | element (name : Name) (proper : isVoidElement name.text = false) (attributes : Attrs)
      (gap : Gap) (children : Children) (before after : Gap)
  | selfClosing (name : Name) (attributes : Attrs) (gap : Gap)
  | fragment (children : Children) (gap : Gap)

/-- Children: perhaps a text run, then something that is not text. -/
inductive Children where
  | mk (run? : Option Run) (items : Items)

inductive Items where
  | done
  | markup (markup : Markup) (rest : Children)
  | braces (braces : Braces) (rest : Children)

/-- What stands in braces. -/
inductive Braces where
  | code (before : Gap) (code : Expr) (after : Gap)
  | root (before : Gap) (root : Root) (after : Gap)
  | flow (before : Gap) (flow : Flow) (after : Gap)

/-- One node in parentheses. -/
inductive Root where
  | mk (before : Gap) (markup : Markup) (after : Gap)

inductive Body where
  | root (root : Root)
  | list (children : Children)

inductive Flow where
  | ifElse (before : Gap) (header : Header) (after : Gap) (body : Body) (chain : Chain)
  | forLoop (before : Gap) (header : Header) (after : Gap) (body : Body)
  | whileLoop (before : Gap) (header : Header) (continue? : Option Continue) (after : Gap)
      (body : Body)
  | switch (before : Gap) (subject : Group) (between first : Gap) (prongs : Prongs)

/-- What follows the first branch of an `if`. -/
inductive Chain where
  | done
  | elseIf (before : Gap) (space : Space) (gap : Gap) (header : Header) (after : Gap) (body : Body)
      (rest : Chain)
  | otherwise (before gap : Gap) (capture? : Option (Capture × Gap)) (body : Body)

inductive Prongs where
  | last (pattern : Pattern) (before after : Gap) (capture? : Option (Capture × Gap)) (body : Body)
      (gap : Gap) (comma? : Option Gap)
  | more (pattern : Pattern) (before after : Gap) (capture? : Option (Capture × Gap)) (body : Body)
      (gap next : Gap) (rest : Prongs)

inductive Attrs where
  | done
  | more (space : Space) (attr : Attr) (rest : Attrs)

inductive Attr where
  | flag (name : Name)
  | static (name : Name) (before after : Gap) (value : Value)
  | builtin (builtin : Builtin) (before after : Gap) (value : Plain)
  | shorthand (before : Gap) (ident : Ident) (after : Gap)
  | builtinShorthand (before : Gap) (builtin : Builtin) (after : Gap)
  | spread (before between : Gap) (code : Code) (after : Gap)

inductive Value where
  | string (quoted : Quoted)
  | enum (ident : Ident)
  | braces (braces : Braces)
  | template (first? : Option Literal) (rest : List Interpolation)
end

/-- A source file: templates with host code around them. -/
inductive File where
  | last (host : Host)
  | more (host : Host) (root : Root) (rest : File)

/-! ## What is written -/

def runText : Option Run → String
  | none => ""
  | some run => run.text

def commaText : Option Gap → String
  | none => ""
  | some gap => "," ++ gap.text

mutual
def Markup.text : Markup → String
  | .element name _ attributes gap children before after =>
    "<" ++ name.text ++ attributes.text ++ gap.text ++ ">" ++ children.text ++
      "</" ++ before.text ++ name.text ++ after.text ++ ">"
  | .selfClosing name attributes gap => "<" ++ name.text ++ attributes.text ++ gap.text ++ "/>"
  | .fragment children gap => "<>" ++ children.text ++ "</" ++ gap.text ++ ">"

def Children.text : Children → String
  | .mk run? items => runText run? ++ items.text

def Items.text : Items → String
  | .done => ""
  | .markup markup rest => markup.text ++ rest.text
  | .braces braces rest => braces.text ++ rest.text

def Braces.text : Braces → String
  | .code before code after => "\x7b" ++ before.text ++ code.text ++ after.text ++ "\x7d"
  | .root before root after => "\x7b" ++ before.text ++ root.text ++ after.text ++ "\x7d"
  | .flow before flow after => "\x7b" ++ before.text ++ flow.text ++ after.text ++ "\x7d"

def Root.text : Root → String
  | .mk before markup after => "(" ++ before.text ++ markup.text ++ after.text ++ ")"

def Body.text : Body → String
  | .root root => root.text
  | .list children => "\x7b" ++ children.text ++ "\x7d"

def Flow.text : Flow → String
  | .ifElse before header after body chain =>
    "if" ++ before.text ++ header.text ++ after.text ++ body.text ++ chain.text
  | .forLoop before header after body =>
    "for" ++ before.text ++ header.text ++ after.text ++ body.text
  | .whileLoop before header continue? after body =>
    "while" ++ before.text ++ headerText header continue? ++ after.text ++ body.text
  | .switch before subject between first prongs =>
    "switch" ++ before.text ++ subject.text ++ between.text ++ "\x7b" ++ first.text ++
      prongs.text ++ "\x7d"

def Chain.text : Chain → String
  | .done => ""
  | .elseIf before space gap header after body rest =>
    before.text ++ "else" ++ space.text ++ "if" ++ gap.text ++ header.text ++ after.text ++
      body.text ++ rest.text
  | .otherwise before gap capture? body =>
    before.text ++ "else" ++ gap.text ++ captureText capture? ++ body.text

def Prongs.text : Prongs → String
  | .last pattern before after capture? body gap comma? =>
    pattern.text ++ before.text ++ "=>" ++ after.text ++ captureText capture? ++ body.text ++
      gap.text ++ commaText comma?
  | .more pattern before after capture? body gap next rest =>
    pattern.text ++ before.text ++ "=>" ++ after.text ++ captureText capture? ++ body.text ++
      gap.text ++ "," ++ next.text ++ rest.text

def Attrs.text : Attrs → String
  | .done => ""
  | .more space attr rest => space.text ++ attr.text ++ rest.text

def Attr.text : Attr → String
  | .flag name => name.text
  | .static name before after value => name.text ++ before.text ++ "=" ++ after.text ++ value.text
  | .builtin b before after value =>
    "@" ++ b.name ++ before.text ++ "=" ++ after.text ++ value.text
  | .shorthand before ident after => "\x7b" ++ before.text ++ ident.text ++ after.text ++ "\x7d"
  | .builtinShorthand before b after =>
    "\x7b" ++ before.text ++ "@" ++ b.name ++ after.text ++ "\x7d"
  | .spread before between code after =>
    "\x7b" ++ before.text ++ ".." ++ between.text ++ code.text ++ after.text ++ "\x7d"

def Value.text : Value → String
  | .string quoted => quoted.text
  | .enum ident => ident.literal
  | .braces braces => braces.text
  | .template first? rest => "\x60" ++ literalText first? ++ interpolationsText rest ++ "\x60"
end

def File.text : File → String
  | .last host => host.text
  | .more host root rest => host.text ++ root.text ++ rest.text

end ZigMarkup.Surface
