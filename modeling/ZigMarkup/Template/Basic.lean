import ZigMarkup.Flow
import ZigMarkup.Name
import ZigMarkup.Span
import ZigMarkup.Text.Blank

/-!
Templates. Expressions of host code are kept as text. Allocators, escaping modes and the
content of text are blank until a template is resolved.
-/
namespace ZigMarkup

/-- Whether text and values of a tag are escaped for HTML. -/
inductive Escaping where
  | html
  | none
deriving DecidableEq, Repr

namespace Escaping

def name : Escaping → String
  | html => "html"
  | none => "none"

/-- A mode written as an enum literal or as a string. -/
def ofText? (text : String) : Option Escaping :=
  let text := trim text
  [html, none].find? fun mode => text == "." ++ mode.name || text == "\"" ++ mode.name ++ "\""

end Escaping

inductive TagKind where
  | element
  | component
deriving DecidableEq, Repr

def TagKind.ofName (name : String) : TagKind := if isComponentName name then component else element

mutual
inductive Node where
  | element (tag : Tag) (children : List Node)
  | selfClosing (tag : Tag)
  | fragment (span : Span) (children : List Node)
  | expr (span : Span) (code : String) (escaping : Escaping)
  | text (span : Span) (raw : String) (escaping : Escaping) (content : Option String)
  | flow (span : Span) (kind : FlowKind) (subject : Option String) (allocator : String)
      (branches : List Branch)

structure Tag where
  span : Span
  name : String
  kind : TagKind
  attributes : List Attribute
  /-- The mode of the text and values directly under the tag. -/
  escaping : Escaping := .html
  allocator : String := ""

inductive Attribute where
  | static (span : Span) (name : String) (value : AttrValue)
  | builtin (span : Span) (builtin : Builtin) (value : String)
  | shorthand (span : Span) (ident : String)
  | builtinShorthand (span : Span) (builtin : Builtin)
  | spread (span : Span) (code : String)
  /-- A template string: the body of a format string and its arguments. -/
  | formatted (span : Span) (name : String) (format : String) (args : List String)

inductive AttrValue where
  /-- A string literal with its quotes. -/
  | literal (text : String)
  | expr (code : String)
  | node (node : Node)
  | flag

structure Branch where
  span : Span
  /-- Condition and captures, or the pattern of a prong; nothing for a final `else`. -/
  head : Option String
  capture : Option String
  body : Body

inductive Body where
  | node (node : Node)
  | list (nodes : List Node)
end

structure Template where
  span : Span
  node : Node
  allocator : String := ""

namespace Node

def span : Node → Span
  | element tag _ => tag.span
  | selfClosing tag => tag.span
  | fragment span _ => span
  | expr span _ _ => span
  | text span _ _ _ => span
  | flow span _ _ _ _ => span

/-- Text that is layout only. -/
def isDropped : Node → Bool
  | text _ _ _ content => content.isNone
  | _ => false

/-- Text with nothing but blanks in it. -/
def isBlankText : Node → Bool
  | text _ raw _ _ => raw.toList.all isBlank
  | _ => false

end Node

namespace Attribute

def span : Attribute → Span
  | static span _ _ => span
  | builtin span _ _ => span
  | shorthand span _ => span
  | builtinShorthand span _ => span
  | spread span _ => span
  | formatted span _ _ _ => span

/-- The name that an attribute sets, if it sets just one. -/
def name? : Attribute → Option String
  | static _ name _ => some name
  | formatted _ name _ _ => some name
  | shorthand _ ident => some ident
  | builtin _ _ _ | builtinShorthand _ _ | spread _ _ => none

def builtin? : Attribute → Option Builtin
  | builtin _ b _ => some b
  | builtinShorthand _ b => some b
  | static _ _ _ | shorthand _ _ | spread _ _ | formatted _ _ _ _ => none

/-- What an attribute gives a builtin. A builtin alone in braces stands for the variable of
its name. -/
def builtinValue? (b : Builtin) : Attribute → Option String
  | builtin _ b' value => if b' = b then some value else none
  | builtinShorthand _ b' => if b' = b then some b.name else none
  | static _ _ _ | shorthand _ _ | spread _ _ | formatted _ _ _ _ => none

def isSpread : Attribute → Bool
  | spread _ _ => true
  | _ => false

end Attribute

def builtinValue? (attributes : List Attribute) (b : Builtin) : Option String :=
  attributes.findSome? (Attribute.builtinValue? b)

namespace Tag

def isComponent (tag : Tag) : Bool := tag.kind = .component

def builtin? (tag : Tag) (b : Builtin) : Option String := builtinValue? tag.attributes b

def hasSpread (tag : Tag) : Bool := tag.attributes.any Attribute.isSpread

end Tag

/-- The nodes of a body that produce something. -/
def Body.nodes : Body → List Node
  | .node n => [n]
  | .list ns => ns.filter (!·.isDropped)

end ZigMarkup
