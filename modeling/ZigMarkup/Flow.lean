import ZigMarkup.Syntax.Kind

/-!
The control-flow words of templates.
-/
namespace ZigMarkup

inductive FlowKind where
  | ifElse
  | forLoop
  | whileLoop
  | switch
deriving DecidableEq, Repr

namespace FlowKind

def all : List FlowKind := [ifElse, forLoop, whileLoop, switch]

def keyword : FlowKind → String
  | ifElse => "if"
  | forLoop => "for"
  | whileLoop => "while"
  | switch => "switch"

/-- The kind of node that a construct is read as. -/
def kind : FlowKind → Kind
  | ifElse => .ifBlock
  | forLoop => .forBlock
  | whileLoop => .whileBlock
  | switch => .switchBlock

def ofKind? (kind : Kind) : Option FlowKind := all.find? (·.kind == kind)

end FlowKind

end ZigMarkup
