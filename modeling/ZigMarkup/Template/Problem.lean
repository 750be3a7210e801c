import ZigMarkup.Diagnostic.Basic
import ZigMarkup.Name
import ZigMarkup.Syntax.Kind

/-!
What can be wrong with a template that was read, and the wording for it.
-/
namespace ZigMarkup

/-- Where a node stands that does not belong there. -/
inductive Place where
  | template
  | braces
  | tag
  | attributeValue
deriving DecidableEq, Repr

def Place.describe : Place → String
  | template => "in template"
  | braces => "in braces"
  | tag => "in tag"
  | attributeValue => "as attribute value"

inductive Problem where
  | unreadable (message : Option String)
  | misplaced (kind : Kind) (place : Place)
  | malformedElement
  | malformedFragment
  | missingTagName
  | missingBody
  | closingMismatch (closing name : String) (opened : Span)
  | noRoot
  | manyRoots (first : Span)
  | emptyValue (name : String)
  | unknownBuiltin (name : String)
  | builtinWithoutValue (name : String)
  | builtinValue (builtin : Builtin)
  | variableEscaping
  | unknownEscaping (text : String)
  | misplacedRendering
  | duplicateAttribute (name : String) (first : Span)
  | duplicateBuiltin (builtin : Builtin) (first : Span)
  | duplicateChildren (declared : Span)
deriving DecidableEq, Repr

namespace Problem

def errorClass : Problem → ErrorClass
  | unreadable _ | misplaced _ _ | malformedElement | malformedFragment | missingTagName
  | missingBody | closingMismatch _ _ _ => .malformed
  | noRoot | manyRoots _ | emptyValue _ | unknownBuiltin _ | builtinWithoutValue _
  | builtinValue _ | variableEscaping | unknownEscaping _ | misplacedRendering
  | duplicateAttribute _ _ | duplicateBuiltin _ _ | duplicateChildren _ => .invalid

def message : Problem → String
  | unreadable message => message.getD "invalid syntax"
  | misplaced kind place => "unexpected " ++ kind.name ++ " " ++ place.describe
  | malformedElement => "malformed element"
  | malformedFragment => "malformed fragment"
  | missingTagName => "missing tag name"
  | missingBody => "missing body"
  | closingMismatch closing name _ =>
    "closing tag `" ++ closing ++ "` does not match `<" ++ name ++ ">`"
  | noRoot => "template has no root element"
  | manyRoots _ => "a template must have exactly one root element"
  | emptyValue name => "attribute `" ++ name ++ "` has an empty value"
  | unknownBuiltin name => "unknown builtin attribute `@" ++ name ++ "`"
  | builtinWithoutValue name => "`@" ++ name ++ "` needs a value"
  | builtinValue builtin => "`@" ++ builtin.name ++ "` takes a plain expression"
  | variableEscaping => "`@escaping` must be a literal mode, not a variable"
  | unknownEscaping text => "unknown escaping mode `" ++ text ++ "`"
  | misplacedRendering => "`@rendering` is only allowed on components"
  | duplicateAttribute name _ => "duplicate attribute `" ++ name ++ "`"
  | duplicateBuiltin builtin _ => "duplicate builtin `@" ++ builtin.name ++ "`"
  | duplicateChildren _ => "duplicate attribute `children`: nested content also sets it"

def help? : Problem → Option String
  | manyRoots _ => some "wrap sibling elements in a fragment `<>…</>`"
  | unknownBuiltin _ => some "known builtins are `@allocator`, `@escaping` and `@rendering`"
  | variableEscaping => some "write `@escaping=.none` or `@escaping=.html`"
  | unknownEscaping _ => some "use `.html` (default) or `.none`"
  | _ => none

def labels : Problem → List Label
  | closingMismatch _ _ opened => [⟨opened, "opened here"⟩]
  | manyRoots first => [⟨first, "first root element"⟩]
  | duplicateAttribute _ first => [⟨first, "first set here"⟩]
  | duplicateBuiltin _ first => [⟨first, "first set here"⟩]
  | duplicateChildren declared => [⟨declared, "`children` attribute here"⟩]
  | _ => []

def diagnose (p : Problem) (span : Span) : Diagnostic :=
  ⟨p.errorClass, span, p.message, p.help?, p.labels, none⟩

end Problem

end ZigMarkup
