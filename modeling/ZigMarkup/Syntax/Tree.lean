import ZigMarkup.Span
import ZigMarkup.Syntax.Kind

/-!
Syntax trees. A tree keeps the whole source: its leaves are spans in source order, and what
could not be read is a node of kind `error` with a message.
-/
namespace ZigMarkup

structure Tree where
  kind : Kind
  span : Span
  children : List Tree
  message : Option String := none

namespace Tree

def leaf (kind : Kind) (span : Span) : Tree := ⟨kind, span, [], none⟩

def node (kind : Kind) (span : Span) (children : List Tree) : Tree := ⟨kind, span, children, none⟩

def error (span : Span) (message : String) : Tree := ⟨.error, span, [], some message⟩

def text (t : Tree) (source : Bytes) : String := t.span.text source

/-- The first child of a kind. -/
def child? (t : Tree) (kind : Kind) : Option Tree := t.children.find? (·.kind == kind)

def childrenOf (t : Tree) (kind : Kind) : List Tree := t.children.filter (·.kind == kind)

mutual
/-- A node, then all nodes below it, in source order. -/
def preorder : Tree → List Tree
  | ⟨kind, span, children, message⟩ => ⟨kind, span, children, message⟩ :: preorderAll children

def preorderAll : List Tree → List Tree
  | [] => []
  | t :: ts => t.preorder ++ preorderAll ts
end

def isError (t : Tree) : Bool := t.kind == .error

/-- All error nodes, by where they begin; those that begin together stay in preorder. -/
def errors (t : Tree) : List Tree :=
  (t.preorder.filter isError).mergeSort (fun a b => a.span.start ≤ b.span.start)

def hasErrors (t : Tree) : Bool := t.preorder.any isError

/-- The templates of a source file. -/
def templateRoots (t : Tree) : List Tree := t.childrenOf .templateRoot

end Tree

end ZigMarkup
