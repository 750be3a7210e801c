import ZigMarkup.Span

/-!
What can be wrong with a source, and the wording for it. A `Failure` is a fault met while
reading from some position: its offsets count from there until it is shifted.
-/
namespace ZigMarkup

/-- What the reader needed and did not find. -/
inductive Wanted where
  | text (what : String)
  | rootOpen
  | rootClose
  | tagName
  | closingTag
  | closingTagEnd
  | builtinName
  | attributeValue
  | bracedName
  | shorthandEnd
  | nestedTemplateEnd
  | controlFlowEnd
  | switchSubject
  | switchOpen
  | prongPattern
  | condition
  | continueExpr
  | bodyEnd
  | body
deriving DecidableEq, Repr

def Wanted.describe : Wanted → String
  | text what => what
  | rootOpen => "`(`"
  | rootClose => "`)` after the template's root element"
  | tagName => "a tag name after `<`"
  | closingTag => "a closing tag"
  | closingTagEnd => "`>` to finish the closing tag"
  | builtinName => "a builtin name after `@`"
  | attributeValue => "a string, `\x7bexpression\x7d` or `` `template` `` after `=`"
  | bracedName => "`identifier`, `@identifier` or `..expression` in braces"
  | shorthandEnd => "`\x7d` after the shorthand name"
  | nestedTemplateEnd => "`\x7d` after the nested template"
  | controlFlowEnd => "`\x7d` after the control-flow body"
  | switchSubject => "`(` after `switch`"
  | switchOpen => "`\x7b` to open the switch prongs"
  | prongPattern => "a prong pattern before `=>`"
  | condition => "`(` to open the condition"
  | continueExpr => "`(` after `:`"
  | bodyEnd => "`\x7d`"
  | body => "`(<…>)` or `\x7b … \x7d` as the body"

inductive Fault where
  | expected (what : Wanted)
  | unterminatedString
  | unterminatedCapture
  | unterminatedComment
  | unterminatedTemplateString
  | unterminatedStartTag (name : String)
  | unclosed (opener : String)
  | unclosedRoot
  | unclosedSwitch
  | unexpected (closer : Char)
  | unexpectedInTag (c : Char)
  | unexpectedClosingTag (text : String)
  | endOfInputInTag
  | strayBrace
  | emptySpread
  | emptyInterpolation
  | emptySwitch
  | tooDeep
deriving DecidableEq, Repr

def Fault.message : Fault → String
  | expected what => "expected " ++ what.describe
  | unterminatedString => "unterminated string literal"
  | unterminatedCapture => "unterminated capture"
  | unterminatedComment => "unterminated comment"
  | unterminatedTemplateString => "unterminated template string"
  | unterminatedStartTag name => "unterminated start tag `<" ++ name ++ "`"
  | unclosed opener => "unclosed `" ++ opener ++ "`"
  | unclosedRoot => "unclosed template root"
  | unclosedSwitch => "unclosed switch"
  | unexpected closer => "unexpected `" ++ closer.toString ++ "`"
  | unexpectedInTag c => "unexpected `" ++ c.toString ++ "` in tag"
  | unexpectedClosingTag text => "unexpected closing tag `" ++ text ++ "`"
  | endOfInputInTag => "unexpected end of input in tag"
  | strayBrace => "unexpected `\x7d` in text; write `\x7b\"\x7d\"\x7d` for a literal brace"
  | emptySpread => "spread attribute needs an expression"
  | emptyInterpolation => "empty interpolation `\x7b\x7d` in template string"
  | emptySwitch => "switch needs at least one prong"
  | tooDeep => "templates are nested too deeply"

structure ScanError where
  span : Span
  fault : Fault
deriving DecidableEq, Repr

def ScanError.message (e : ScanError) : String := e.fault.message

/-- An error and how far reading had come. -/
structure Failure where
  span : Span
  fault : Fault
  reached : Nat

namespace Failure

def shift (f : Failure) (offset : Nat) : Failure :=
  ⟨⟨offset + f.span.start, offset + f.span.stop⟩, f.fault, offset + f.reached⟩

def error (f : Failure) : ScanError := ⟨f.span, f.fault⟩

end Failure

end ZigMarkup
