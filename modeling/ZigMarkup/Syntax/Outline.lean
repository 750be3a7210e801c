import ZigMarkup.Syntax.Tree
import ZigMarkup.Text.Quoted

/-!
A syntax tree as indented lines: kind and span of each node, and the message of an error or
the text of a leaf.
-/
namespace ZigMarkup.Tree

def indentBy (depth : Nat) : String := String.ofList (List.replicate (2 * depth) ' ')

def heading (source : Bytes) (depth : Nat) (t : Tree) : String :=
  let place := s!"{indentBy depth}{t.kind.name}@{t.span.start}..{t.span.stop}"
  match t.message with
  | some message => place ++ " " ++ quote message
  | none => if t.children.isEmpty then place ++ " " ++ quote (t.text source) else place

mutual
def outlineAt (source : Bytes) (depth : Nat) : Tree → List String
  | ⟨kind, span, children, message⟩ =>
    heading source depth ⟨kind, span, children, message⟩ :: outlineAll source (depth + 1) children

def outlineAll (source : Bytes) (depth : Nat) : List Tree → List String
  | [] => []
  | t :: ts => outlineAt source depth t ++ outlineAll source depth ts
end

def outline (source : Bytes) (t : Tree) : List String := outlineAt source 0 t

end ZigMarkup.Tree
