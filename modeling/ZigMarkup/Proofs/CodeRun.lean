import ZigMarkup.Code.Basic
import ZigMarkup.Proofs.Meaning

/-!
Running generated code. Statements run one after the other; a `break` leaves the blocks up to
the one it names with a value, and a list variable lives until the body that declares it is
left. Code that Zig would refuse has no run: a builder or list that is not in scope, a name
declared twice, a block that is run to its end without a `break`, an `else` that does not end
its chain.
-/
namespace ZigMarkup.Code

variable {σ ν α : Type}

/-- The state of the host and the list variables in scope, the newest first. -/
structure Memory (σ ν : Type) where
  host : σ
  lists : List (ListVar × List (Built ν))

abbrev RunM (σ ν : Type) := StateT (Memory σ ν) Option

/-- How a statement ends: the next one follows, or blocks are left with a value. -/
inductive Exit (ν : Type) where
  | next
  | leave (label : BlockLabel) (value : Built ν)

namespace RunM

/-- Lets the host decide. -/
def ask (f : σ → α × σ) : RunM σ ν α := fun m => some ((f m.host).1, { m with host := (f m.host).2 })

def changeHost (f : σ → σ) : RunM σ ν Unit := fun m => some ((), { m with host := f m.host })

/-- Variables declared meanwhile are out of scope afterwards. -/
def inScope (x : RunM σ ν α) : RunM σ ν α := fun m =>
  match x m with
  | some (a, next) => some (a, { next with
      lists := next.lists.drop (next.lists.length - m.lists.length) })
  | none => none

def declare (list : ListVar) : RunM σ ν Unit := fun m =>
  if list ∈ m.lists.map Prod.fst then none
  else some ((), { m with lists := (list, []) :: m.lists })

def extend (list : ListVar) (values : List (Built ν)) (lists : List (ListVar × List (Built ν))) :
    List (ListVar × List (Built ν)) :=
  lists.map fun entry => if entry.1 = list then (entry.1, entry.2 ++ values) else entry

def append (list : ListVar) (value : Built ν) : RunM σ ν Unit := fun m =>
  if list ∈ m.lists.map Prod.fst then
    some ((), { m with lists := extend list [value] m.lists })
  else none

def contents (list : ListVar) : RunM σ ν (List (Built ν)) := fun m =>
  (m.lists.lookup list).map (·, m)

/-- A call on the builder of a block that is open. -/
def onBuilder (blocks : List Nat) (b : Builder) : RunM σ ν Unit :=
  if b.block.any blocks.contains then pure () else failure

/-- What comes next, unless a block is left. -/
def andThen (first rest : RunM σ ν (Exit ν)) : RunM σ ν (Exit ν) := do
  match ← first with
  | .next => rest
  | .leave label value => return .leave label value

def rounds (step : RunM σ ν (Exit ν)) : Nat → RunM σ ν (Exit ν)
  | 0 => return .next
  | count + 1 => andThen step (rounds step count)

end RunM

open RunM

variable (host : Host σ ν)

def Head.opening (head : Head) : RunM σ ν (Opening ν) := ask fun s =>
  (⟨head.tag, head.allocator.map (host.value · s), head.raw, head.merged⟩, s)

def readOptions (options : List (String × String)) : RunM σ ν (List (String × ν)) :=
  ask fun s => (options.map fun o => (o.1, host.value o.2 s), s)

def bindCapture (capture : Option String) : RunM σ ν Unit :=
  match capture with
  | some text => changeHost (host.capture text)
  | none => pure ()

mutual
/-- The value of an expression inside the given blocks. -/
def Expr.eval (blocks : List Nat) : Expr → RunM σ ν (Built ν)
  | .element head attributes children => do
    onBuilder blocks head.builder
    let opening ← head.opening host
    let attributes ← evalAttrs blocks attributes
    return .element opening attributes (← evalAll blocks children)
  | .selfClosing head attributes => do
    onBuilder blocks head.builder
    let opening ← head.opening host
    return .selfClosing opening (← evalAttrs blocks attributes)
  | .component b name options props => do
    onBuilder blocks b
    let options ← readOptions host options
    return .component name options (← evalGroups blocks props)
  | .fragment b children => do
    onBuilder blocks b
    return .fragment (← evalAll blocks children)
  | .collected b list => do
    onBuilder blocks b
    return .fragment (← contents list)
  | .empty b => do
    onBuilder blocks b
    return .empty
  | .value b raw code => do
    onBuilder blocks b
    return .value raw (← ask (host.read code))
  | .text b raw content => do
    onBuilder blocks b
    return .text raw content
  | .block id _ body => do
    if blocks.contains id then failure
    else
      match ← inScope (execAll (id :: blocks) body) with
      | .leave label result => if label = .block id then return result else failure
      | .next => failure

def evalAll (blocks : List Nat) : List Expr → RunM σ ν (List (Built ν))
  | [] => return []
  | e :: es => do
    let value ← Expr.eval blocks e
    return value :: (← evalAll blocks es)

def Value.eval (blocks : List Nat) (name : String) : Value → RunM σ ν (Setting ν)
  | .code text => do return .plain name (← ask (host.read text))
  | .expr e => do return .built name (← Expr.eval blocks e)

def Attr.eval (blocks : List Nat) : Attr → RunM σ ν (Setting ν)
  | .pair b name value => do
    onBuilder blocks b
    Value.eval blocks name value
  | .format b name template args => do
    onBuilder blocks b
    return .format name template (← ask (host.readAll (args.map trim)))
  | .spread b code => do
    onBuilder blocks b
    return .spread (← ask (host.read code))

def evalAttrs (blocks : List Nat) : List Attr → RunM σ ν (List (Setting ν))
  | [] => return []
  | a :: as => do
    let setting ← Attr.eval blocks a
    return setting :: (← evalAttrs blocks as)

/-- Props merged from left to right, in order. -/
def evalGroups (blocks : List Nat) : List PropGroup → RunM σ ν (List (Setting ν))
  | [] => return []
  | g :: gs => do
    let props ← PropGroup.eval blocks g
    return props ++ (← evalGroups blocks gs)

def PropGroup.eval (blocks : List Nat) : PropGroup → RunM σ ν (List (Setting ν))
  | .record props => evalEntries blocks props
  | .spread code => do return [.spread (← ask (host.read code))]

def evalEntries (blocks : List Nat) : List PropEntry → RunM σ ν (List (Setting ν))
  | [] => return []
  | p :: ps => do
    let setting ← PropEntry.eval blocks p
    return setting :: (← evalEntries blocks ps)

def PropEntry.eval (blocks : List Nat) : PropEntry → RunM σ ν (Setting ν)
  | .field name value => Value.eval blocks name value
  | .format b name template args => do
    onBuilder blocks b
    return .format name template (← ask (host.readAll (args.map trim)))
  | .children nodes => do return .children (← evalAll blocks nodes)

def Stmt.exec (blocks : List Nat) : Stmt → RunM σ ν (Exit ν)
  | .deliver (.breakTo label) value => do return .leave label (← Expr.eval blocks value)
  | .deliver (.appendTo list) value => do
    append list (← Expr.eval blocks value)
    return .next
  | .declare list b => do
    onBuilder blocks b
    declare list
    return .next
  | .ifChain [] => return .next
  | .ifChain (⟨none, _, _⟩ :: _) => failure
  | .ifChain (⟨some head, _, body⟩ :: arms) => do
    if ← ask (host.holds head) then inScope (execAll blocks body) else execElse blocks arms
  | .loop keyword head body => do
    let count ← ask (host.rounds keyword head)
    rounds (do
      changeHost (host.turn keyword head)
      inScope (execAll blocks body)) count
  | .switch subject arms => do
    let n ← ask (host.select subject (arms.map fun arm => arm.head.getD "else"))
    execProng blocks n arms
  | .blank => return .next

def execAll (blocks : List Nat) : List Stmt → RunM σ ν (Exit ν)
  | [] => return .next
  | s :: ss => andThen (Stmt.exec blocks s) (execAll blocks ss)

/-- What follows the first arm of an `if`. -/
def execElse (blocks : List Nat) : List Arm → RunM σ ν (Exit ν)
  | [] => return .next
  | ⟨some head, _, body⟩ :: arms => do
    if ← ask (host.holds head) then inScope (execAll blocks body) else execElse blocks arms
  | [⟨none, capture, body⟩] => do
    bindCapture host capture
    inScope (execAll blocks body)
  | ⟨none, _, _⟩ :: _ :: _ => failure

def execProng (blocks : List Nat) : Nat → List Arm → RunM σ ν (Exit ν)
  | _, [] => failure
  | 0, ⟨_, capture, body⟩ :: _ => do
    bindCapture host capture
    inScope (execAll blocks body)
  | n + 1, _ :: arms => execProng blocks n arms
end

end ZigMarkup.Code
