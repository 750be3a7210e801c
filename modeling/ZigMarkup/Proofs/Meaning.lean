import ZigMarkup.Template.Basic

/-!
What a template stands for. Host code is opaque: a `Host` says what its expressions yield,
which conditions hold, which prong a switch takes and how often a loop goes round, each time
it is asked, and its state may change with every answer. A node then stands for the tree that
the runtime builds of it. In the place of a value, an `if` or a switch is the value of the body
that was chosen and a loop is a fragment of all that its rounds yield; inside a loop, control
flow adds what it yields to the list of the loop.
-/
namespace ZigMarkup

/-- The host code around a template, with states `σ` and values `ν`. -/
structure Host (σ ν : Type) where
  value : String → σ → ν
  /-- Whether a condition holds. Captures are part of its text and bound in the new state. -/
  holds : String → σ → Bool × σ
  /-- The state in which the body behind a capture of its own runs. -/
  capture : String → σ → σ
  /-- The prong that a subject selects among patterns. -/
  select : String → List String → σ → Nat × σ
  select_lt : ∀ subject patterns s, patterns ≠ [] →
    (select subject patterns s).1 < patterns.length
  /-- How often a loop with this keyword and head goes round. -/
  rounds : String → String → σ → Nat × σ
  /-- The state in which the next round of a loop begins. -/
  turn : String → String → σ → σ

/-- What an element is made with, apart from attributes and children. -/
structure Opening (ν : Type) where
  tag : String
  allocator : Option ν
  raw : Bool
  merged : Bool

mutual
/-- A tree as the runtime builds it. -/
inductive Built (ν : Type) where
  | element (opening : Opening ν) (attributes : List (Setting ν)) (children : List (Built ν))
  | selfClosing (opening : Opening ν) (attributes : List (Setting ν))
  | component (name : String) (options : List (String × ν)) (props : List (Setting ν))
  | fragment (children : List (Built ν))
  | empty
  | value (raw : Bool) (value : ν)
  | text (raw : Bool) (content : String)

/-- An attribute of an element or a prop of a component. -/
inductive Setting (ν : Type) where
  | plain (name : String) (value : ν)
  | built (name : String) (value : Built ν)
  | format (name format : String) (args : List ν)
  | spread (value : ν)
  | children (nodes : List (Built ν))
end

variable {σ ν α : Type}

/-- What the body of a branch stands for, as one value and as what it adds to a list. -/
structure Alternative (σ ν : Type) where
  head : Option String
  capture : Option String
  single : StateM σ (Built ν)
  items : StateM σ (List (Built ν))

namespace Host

variable (host : Host σ ν)

def read (code : String) : StateM σ ν := fun s => (host.value code s, s)

def readAll (codes : List String) : StateM σ (List ν) :=
  fun s => (codes.map (host.value · s), s)

/-- Runs a body whose capture, if it has one, is bound first. -/
def captured (capture : Option String) (body : StateM σ α) : StateM σ α :=
  match capture with
  | some text => fun s => body (host.capture text s)
  | none => body

/-- The first branch whose condition holds; a branch without one is always taken. -/
def firstTaken (none : StateM σ α) (body : Alternative σ ν → StateM σ α) :
    List (Alternative σ ν) → StateM σ α
  | [] => none
  | a :: rest =>
    match a.head with
    | some head => do if ← host.holds head then body a else firstTaken none body rest
    | .none => host.captured a.capture (body a)

/-- The branch that the subject of a switch selects. -/
def selected (subject : String) (none : StateM σ α) (body : Alternative σ ν → StateM σ α)
    (branches : List (Alternative σ ν)) : StateM σ α := do
  let n ← host.select subject (branches.map (·.head.getD "else"))
  match branches[n]? with
  | some a => host.captured a.capture (body a)
  | .none => none

/-- What `count` rounds add to a list. -/
def repeated (keyword head : String) (body : StateM σ (List (Built ν))) :
    Nat → StateM σ (List (Built ν))
  | 0 => return []
  | count + 1 => do
    let items ← fun s => body (host.turn keyword head s)
    return items ++ (← repeated keyword head body count)

/-- What a loop adds to a list. -/
def looped (keyword : String) : List (Alternative σ ν) → StateM σ (List (Built ν))
  | [] => return []
  | a :: _ => do
    let head := a.head.getD ""
    let count ← host.rounds keyword head
    host.repeated keyword head a.items count

/-- Control flow in the place of a value. -/
def flowValue (kind : FlowKind) (subject : Option String) (branches : List (Alternative σ ν)) :
    StateM σ (Built ν) :=
  match kind with
  | .ifElse => host.firstTaken (return .empty) Alternative.single branches
  | .switch => host.selected (subject.getD "") (return .empty) Alternative.single branches
  | .forLoop | .whileLoop => do return .fragment (← host.looped kind.keyword branches)

/-- Control flow inside a loop. -/
def flowItems (kind : FlowKind) (subject : Option String) (branches : List (Alternative σ ν)) :
    StateM σ (List (Built ν)) :=
  match kind with
  | .ifElse => host.firstTaken (return []) Alternative.items branches
  | .switch => host.selected (subject.getD "") (return []) Alternative.items branches
  | .forLoop | .whileLoop => host.looped kind.keyword branches

/-- An empty body yields nothing, a body of one node that node, any other a fragment. -/
def bodyValue : List (Built ν) → Built ν
  | [] => .empty
  | [value] => value
  | values => .fragment values

def opening (name : String) (attributes : List Attribute) (escaping : Escaping) :
    StateM σ (Opening ν) := fun s =>
  (⟨name, (builtinValue? attributes .allocator).map (host.value · s), escaping = .none,
    attributes.any Attribute.isSpread⟩, s)

/-- The builtins that a component is called with. -/
def options (attributes : List Attribute) : StateM σ (List (String × ν)) := fun s =>
  ([Builtin.allocator, .rendering].filterMap fun b =>
    (builtinValue? attributes b).map fun code => (b.name, host.value code s), s)

mutual
/-- The tree that a node stands for in the place of a value. -/
def built : Node → StateM σ (Built ν)
  | .element ⟨_, name, .component, attributes, _, _⟩ children => do
    let options ← host.options attributes
    let props ← settings "true" attributes
    let content ← builtAll children
    return .component name options
      (if content.isEmpty then props else props ++ [.children content])
  | .element ⟨_, name, .element, attributes, escaping, _⟩ children => do
    let opening ← host.opening name attributes escaping
    let attributes ← settings "\"\"" attributes
    return .element opening attributes (← builtAll children)
  | .selfClosing ⟨_, name, .component, attributes, _, _⟩ => do
    let options ← host.options attributes
    return .component name options (← settings "true" attributes)
  | .selfClosing ⟨_, name, .element, attributes, escaping, _⟩ => do
    let opening ← host.opening name attributes escaping
    return .selfClosing opening (← settings "\"\"" attributes)
  | .fragment _ children => do return .fragment (← builtAll children)
  | .expr _ code escaping => do return .value (escaping = .none) (← host.read code)
  | .text _ _ escaping content => return .text (escaping = .none) (content.getD "")
  | .flow _ kind subject _ branches => host.flowValue kind subject (alternatives branches)

/-- The nodes that produce something, each as one value. -/
def builtAll : List Node → StateM σ (List (Built ν))
  | [] => return []
  | node :: nodes => do
    if node.isDropped then builtAll nodes
    else
      let value ← built node
      return value :: (← builtAll nodes)

/-- What nodes add to the list of a loop. -/
def itemsAll : List Node → StateM σ (List (Built ν))
  | [] => return []
  | .flow _ kind subject _ branches :: nodes => do
    let items ← host.flowItems kind subject (alternatives branches)
    return items ++ (← itemsAll nodes)
  | node :: nodes => do
    if node.isDropped then itemsAll nodes
    else
      let value ← built node
      return value :: (← itemsAll nodes)

def bodySingle : Body → StateM σ (Built ν)
  | .node node => built node
  | .list nodes => do return bodyValue (← builtAll nodes)

def bodyItems : Body → StateM σ (List (Built ν))
  | .node (.flow _ kind subject _ branches) => host.flowItems kind subject (alternatives branches)
  | .node node => do return [← built node]
  | .list nodes => itemsAll nodes

def alternatives : List Branch → List (Alternative σ ν)
  | [] => []
  | ⟨_, head, capture, body⟩ :: branches =>
    ⟨head, capture, bodySingle body, bodyItems body⟩ :: alternatives branches

/-- The value of an attribute; `flag` is what stands for an attribute without one. -/
def setting (flag name : String) : AttrValue → StateM σ (Setting ν)
  | .literal text => do return .plain name (← host.read text)
  | .expr code => do return .plain name (← host.read code)
  | .flag => do return .plain name (← host.read flag)
  | .node node => do return .built name (← built node)

/-- All attributes but builtins, in source order. -/
def settings (flag : String) : List Attribute → StateM σ (List (Setting ν))
  | [] => return []
  | .static _ name value :: rest => do
    let value ← setting flag name value
    return value :: (← settings flag rest)
  | .shorthand _ ident :: rest => do
    let value ← host.read ident
    return .plain ident value :: (← settings flag rest)
  | .formatted _ name format args :: rest => do
    let args ← host.readAll (args.map trim)
    return .format name format args :: (← settings flag rest)
  | .spread _ code :: rest => do
    let value ← host.read code
    return .spread value :: (← settings flag rest)
  | .builtin _ _ _ :: rest => settings flag rest
  | .builtinShorthand _ _ :: rest => settings flag rest
end

end Host

end ZigMarkup
