import ZigMarkup.Code.Basic
import ZigMarkup.Template.Basic

/-!
Code for templates. A template becomes a labeled block with a builder of its own. Control flow
in the place of a value is lifted into a block of the same shape, with the allocator in force
there; inside a block it becomes statements. Blocks and lists take their numbers from one
counter, in the order in which they are written.
-/
namespace ZigMarkup.Code

structure Counter where
  next : Nat := 0
  blocks : Nat := 0
deriving DecidableEq, Repr

abbrev EmitM := StateM Counter

def freshId : EmitM Nat := modifyGet fun c => (c.next, { c with next := c.next + 1 })

def freshList : EmitM ListVar := return .fresh (← freshId)

def Builder.ofBlock (id : Nat) : Builder := ⟨some id⟩

/-- The builder outside all blocks. -/
def Builder.outside : Builder := ⟨none⟩

/-- A block of its own; `body` is told the number of the block. -/
def inBlock (allocator : String) (body : Nat → EmitM (List Stmt)) : EmitM Expr := do
  let id ← freshId
  modify fun c => { c with blocks := c.blocks + 1 }
  return .block id allocator (← body id)

/-- What an attribute of a component adds to its props. -/
inductive PropItem where
  | entry (prop : PropEntry)
  | spread (code : String)

/-- Props between two spreads go into one record. -/
def groupProps : List PropItem → List PropGroup
  | [] => []
  | .spread code :: items => .spread code :: groupProps items
  | .entry prop :: items =>
    match groupProps items with
    | .record props :: groups => .record (prop :: props) :: groups
    | groups => .record [prop] :: groups

def componentOptions (tag : Tag) : List (String × String) :=
  [Builtin.allocator, .rendering].filterMap fun b => (tag.builtin? b).map (b.name, ·)

def headOf (b : Builder) (tag : Tag) : Head :=
  ⟨b, tag.name, tag.builtin? .allocator, tag.escaping = .none, tag.hasSpread⟩

def isLoop : FlowKind → Bool
  | .forLoop | .whileLoop => true
  | .ifElse | .switch => false

theorem isLoop_iff {flow : FlowKind} : isLoop flow = true ↔ flow = .forLoop ∨ flow = .whileLoop := by
  cases flow <;> simp [isLoop]

/-- A loop over its one body; without a body only its line is left. -/
def loopOver (flow : FlowKind) : List Arm → Stmt
  | [] => .blank
  | arm :: _ => .loop flow.keyword (arm.head.getD "") arm.body

/-- Control flow as statements, given the code of its branches for a sink. Loops always
collect: in the place of a value they fill a fresh list. An `if` that may fall through
delivers nothing in the end. -/
def flowStatements (b : Builder) (sink : Sink) (flow : FlowKind) (subject : Option String)
    (arms : Sink → EmitM (List Arm)) : EmitM (List Stmt) := do
  match flow, sink with
  | .ifElse, .appendTo _ => return [.ifChain (← arms sink)]
  | .ifElse, .breakTo _ =>
    let arms ← arms sink
    let fallThrough := if arms.any (·.head.isNone) then [] else [Stmt.deliver sink (.empty b)]
    return .ifChain arms :: fallThrough
  | .switch, _ => return [.switch (subject.getD "") (← arms sink)]
  | _, .appendTo _ => return [loopOver flow (← arms sink)]
  | _, .breakTo _ =>
    let list ← freshList
    let arms ← arms (.appendTo list)
    return [.declare list b, loopOver flow arms, .deliver sink (.collected b list)]

mutual
/-- A node as one expression. -/
def exprOf (b : Builder) : Node → EmitM Expr
  | .element tag children => do
    match tag with
    | ⟨_, name, .component, attributes, _, _⟩ =>
      let items ← propsOf b attributes
      let content ← exprsOf b children
      let items := if content.isEmpty then items else items ++ [.entry (.children content)]
      return .component b name (componentOptions tag) (groupProps items)
    | ⟨_, _, .element, attributes, _, _⟩ =>
      let attributes ← attrsOf b attributes
      return .element (headOf b tag) attributes (← exprsOf b children)
  | .selfClosing tag => do
    match tag with
    | ⟨_, name, .component, attributes, _, _⟩ =>
      return .component b name (componentOptions tag) (groupProps (← propsOf b attributes))
    | ⟨_, _, .element, attributes, _, _⟩ =>
      return .selfClosing (headOf b tag) (← attrsOf b attributes)
  | .fragment _ children => do return .fragment b (← exprsOf b children)
  | .expr _ code escaping => return .value b (escaping = .none) code
  | .text _ _ escaping content => return .text b (escaping = .none) (content.getD "")
  | .flow _ flow subject allocator branches =>
    inBlock allocator fun id =>
      flowStatements (.ofBlock id) (.breakTo (.block id)) flow subject fun sink =>
        armsOf (.ofBlock id) sink (isLoop flow) branches

/-- The nodes that produce something, each as one expression. -/
def exprsOf (b : Builder) : List Node → EmitM (List Expr)
  | [] => return []
  | node :: nodes => do
    if node.isDropped then exprsOf b nodes
    else
      let e ← exprOf b node
      return e :: (← exprsOf b nodes)

/-- The nodes that produce something, each delivered on its own. -/
def statementsOf (b : Builder) (sink : Sink) : List Node → EmitM (List Stmt)
  | [] => return []
  | .flow _ flow subject _ branches :: nodes => do
    let stmts ← flowStatements b sink flow subject fun sink => armsOf b sink (isLoop flow) branches
    return stmts ++ (← statementsOf b sink nodes)
  | node :: nodes => do
    if node.isDropped then statementsOf b sink nodes
    else
      let e ← exprOf b node
      return .deliver sink e :: (← statementsOf b sink nodes)

/-- A body breaks with one value: nothing, its node, or a fragment of its nodes. -/
def bodyOf (b : Builder) (sink : Sink) : Body → EmitM (List Stmt)
  | .node (.flow _ flow subject _ branches) =>
    flowStatements b sink flow subject fun sink => armsOf b sink (isLoop flow) branches
  | .node node => do return [.deliver sink (← exprOf b node)]
  | .list nodes => do
    match sink, (nodes.filter (!·.isDropped)).length with
    | .breakTo _, 0 => return [.deliver sink (.empty b)]
    | .breakTo _, _ + 2 => return [.deliver sink (.fragment b (← exprsOf b nodes))]
    | _, _ => statementsOf b sink nodes

def armsOf (b : Builder) (sink : Sink) (onlyFirst : Bool) : List Branch → EmitM (List Arm)
  | [] => return []
  | ⟨_, head, capture, body⟩ :: branches => do
    let stmts ← bodyOf b sink body
    if onlyFirst then return [⟨head, capture, stmts⟩]
    else return ⟨head, capture, stmts⟩ :: (← armsOf b sink onlyFirst branches)

/-- The value of an attribute; `flag` is what stands for an attribute without one. -/
def valueOf (b : Builder) (flag : String) : AttrValue → EmitM Value
  | .literal text => return .code text
  | .expr code => return .code code
  | .flag => return .code flag
  | .node node => do return .expr (← exprOf b node)

def attrsOf (b : Builder) : List Attribute → EmitM (List Attr)
  | [] => return []
  | .static _ name value :: rest => do
    let value ← valueOf b "\"\"" value
    return .pair b name value :: (← attrsOf b rest)
  | .shorthand _ ident :: rest => do return .pair b ident (.code ident) :: (← attrsOf b rest)
  | .formatted _ name format args :: rest => do
    return .format b name format args :: (← attrsOf b rest)
  | .spread _ code :: rest => do return .spread b code :: (← attrsOf b rest)
  | .builtin _ _ _ :: rest => attrsOf b rest
  | .builtinShorthand _ _ :: rest => attrsOf b rest

def propsOf (b : Builder) : List Attribute → EmitM (List PropItem)
  | [] => return []
  | .static _ name value :: rest => do
    let value ← valueOf b "true" value
    return .entry (.field name value) :: (← propsOf b rest)
  | .shorthand _ ident :: rest => do
    return .entry (.field ident (.code ident)) :: (← propsOf b rest)
  | .formatted _ name format args :: rest => do
    return .entry (.format b name format args) :: (← propsOf b rest)
  | .spread _ code :: rest => do return .spread code :: (← propsOf b rest)
  | .builtin _ _ _ :: rest => propsOf b rest
  | .builtinShorthand _ _ :: rest => propsOf b rest
end

/-- A node delivered to a sink. -/
def into (b : Builder) (sink : Sink) (node : Node) : EmitM (List Stmt) := bodyOf b sink (.node node)

/-- Each node of a list is delivered as it would be on its own. -/
theorem statementsOf_cons (b : Builder) (sink : Sink) (node : Node) (nodes : List Node) :
    statementsOf b sink (node :: nodes) =
      if node.isDropped then statementsOf b sink nodes
      else do
        let first ← into b sink node
        return first ++ (← statementsOf b sink nodes) := by
  cases node with
  | flow => rfl
  | text span raw mode content =>
    rw [statementsOf]
    · rfl
    · simp
  | _ => rfl

def ofTemplate (template : Template) : EmitM Expr :=
  inBlock template.allocator fun id => into (.ofBlock id) (.breakTo (.block id)) template.node

end ZigMarkup.Code
