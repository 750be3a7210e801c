import ZigMarkup.Template.Basic
import ZigMarkup.Text.Lines

/-!
Allocators, escaping modes and text content of a template. `@allocator` holds for a tag and
all below it. `@escaping` holds for the text and values directly under its tag: nested tags
start over at `html`, while fragments and control flow keep the mode around them.
-/
namespace ZigMarkup

/-- The text to be written for a run of template text. -/
def contentOf (mode : Escaping) (raw : String) : Option String :=
  match mode with
  | .html => dedent raw
  | .none => if raw.isEmpty then none else some raw

namespace Node

/-- Blank text inside the body of a branch is padding. -/
def dropPadding : Node → Node
  | text span raw mode content =>
    text span raw mode (if raw.toList.all isBlank then none else content)
  | node => node

mutual
def resolve (allocator : String) (mode : Escaping) : Node → Node
  | element tag children =>
    let tag := resolveTag allocator tag
    element tag (resolveAll tag.allocator tag.escaping children)
  | selfClosing tag => selfClosing (resolveTag allocator tag)
  | fragment span children => fragment span (resolveAll allocator mode children)
  | expr span code _ => expr span code mode
  | text span raw _ _ => text span raw mode (contentOf mode raw)
  | flow span kind subject _ branches =>
    flow span kind subject allocator (resolveBranches allocator mode branches)

def resolveAll (allocator : String) (mode : Escaping) : List Node → List Node
  | [] => []
  | node :: nodes => resolve allocator mode node :: resolveAll allocator mode nodes

def resolveTag (allocator : String) : Tag → Tag
  | ⟨span, name, kind, attributes, _, _⟩ =>
    let own := (builtinValue? attributes .allocator).getD allocator
    let mode := ((builtinValue? attributes .escaping).bind Escaping.ofText?).getD .html
    ⟨span, name, kind, resolveAttributes own attributes, mode, own⟩

def resolveAttributes (allocator : String) : List Attribute → List Attribute
  | [] => []
  | .static span name (.node node) :: rest =>
    .static span name (.node (resolve allocator .html node)) :: resolveAttributes allocator rest
  | a :: rest => a :: resolveAttributes allocator rest

def resolveBranches (allocator : String) (mode : Escaping) : List Branch → List Branch
  | [] => []
  | ⟨span, head, capture, .node node⟩ :: rest =>
    ⟨span, head, capture, .node (resolve allocator mode node).dropPadding⟩ ::
      resolveBranches allocator mode rest
  | ⟨span, head, capture, .list nodes⟩ :: rest =>
    ⟨span, head, capture, .list ((resolveAll allocator mode nodes).map dropPadding)⟩ ::
      resolveBranches allocator mode rest
end

/-- The allocator that a root brings along. -/
def rootAllocator (fallback : String) : Node → String
  | element tag _ => tag.allocator
  | selfClosing tag => tag.allocator
  | _ => fallback

end Node

def Template.resolve (allocator : String) (template : Template) : Template :=
  let node := template.node.resolve allocator .html
  ⟨template.span, node, node.rootAllocator allocator⟩

end ZigMarkup
