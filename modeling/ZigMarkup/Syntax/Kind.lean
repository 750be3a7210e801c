/-!
The kinds of node in a syntax tree.
-/
namespace ZigMarkup

inductive Kind where
  | sourceFile
  | hostText
  | templateRoot
  | element
  | selfClosingElement
  | fragment
  | startTag
  | endTag
  | tagName
  | comment
  | staticAttribute
  | builtinAttribute
  | shorthandAttribute
  | builtinShorthandAttribute
  | spreadAttribute
  | attrName
  | stringValue
  | exprValue
  | templateString
  | templateText
  | hostExpr
  | expressionBlock
  | text
  | ifBlock
  | forBlock
  | whileBlock
  | switchBlock
  | branch
  | header
  | pattern
  | capture
  | body
  | error
deriving DecidableEq, Repr

namespace Kind

/-- The name of a kind in outlines and messages. -/
def name : Kind → String
  | sourceFile => "SourceFile"
  | hostText => "HostText"
  | templateRoot => "TemplateRoot"
  | element => "Element"
  | selfClosingElement => "SelfClosingElement"
  | fragment => "Fragment"
  | startTag => "StartTag"
  | endTag => "EndTag"
  | tagName => "TagName"
  | comment => "Comment"
  | staticAttribute => "StaticAttribute"
  | builtinAttribute => "BuiltinAttribute"
  | shorthandAttribute => "ShorthandAttribute"
  | builtinShorthandAttribute => "BuiltinShorthandAttribute"
  | spreadAttribute => "SpreadAttribute"
  | attrName => "AttrName"
  | stringValue => "StringValue"
  | exprValue => "ExprValue"
  | templateString => "TemplateString"
  | templateText => "TemplateText"
  | hostExpr => "HostExpr"
  | expressionBlock => "ExpressionBlock"
  | text => "Text"
  | ifBlock => "IfBlock"
  | forBlock => "ForBlock"
  | whileBlock => "WhileBlock"
  | switchBlock => "SwitchBlock"
  | branch => "Branch"
  | header => "Header"
  | pattern => "Pattern"
  | capture => "Capture"
  | body => "Body"
  | error => "Error"

def all : List Kind :=
  [sourceFile, hostText, templateRoot, element, selfClosingElement, fragment, startTag, endTag,
    tagName, comment, staticAttribute, builtinAttribute, shorthandAttribute,
    builtinShorthandAttribute, spreadAttribute, attrName, stringValue, exprValue,
    templateString, templateText, hostExpr, expressionBlock, text, ifBlock, forBlock,
    whileBlock, switchBlock, branch, header, pattern, capture, body, error]

def ofName? (name : String) : Option Kind := all.find? (·.name == name)

def isControlFlow : Kind → Bool
  | ifBlock | forBlock | whileBlock | switchBlock => true
  | _ => false

end Kind

end ZigMarkup
