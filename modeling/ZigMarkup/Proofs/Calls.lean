import ZigMarkup.Code.OfTemplate
import ZigMarkup.Proofs.Leaves

/-!
The calls that write text and values. The code of a template makes one such call for each leaf
that is not dropped, in the same order: the call escapes its argument exactly if the mode of
the leaf is `html`.
-/
namespace ZigMarkup

/-- A call that writes text or a value, escaped or raw. -/
inductive Call where
  | text (raw : Bool) (content : String)
  | value (raw : Bool) (code : String)
deriving DecidableEq, Repr

def Call.method : Call → String
  | text raw _ => if raw then "raw" else "text"
  | value raw _ => if raw then "exprRaw" else "expr"

namespace Node

/-- The call for a leaf; there is none for dropped text. -/
def call? : Node → Option Call
  | .text _ _ mode content => content.map (.text (mode = .none))
  | .expr _ code mode => some (.value (mode = .none) code)
  | _ => none

def calls (node : Node) : List Call := (node.leaves [] none).filterMap (·.node.call?)

theorem filterMap_call?_leaves (node : Node) : ∀ (path : Path) (owner : Option (Path × Tag)),
    (node.leaves path owner).filterMap (·.node.call?) =
      node.call?.toList ++ node.parts.flatMap calls := by
  induction node using induction_on_parts with
  | h node ih =>
    intro path owner
    have hown : (if node.escaping?.isSome then [(⟨owner, node⟩ : Leaf)] else []).filterMap
        (·.node.call?) = node.call?.toList := by
      cases node <;> rfl
    have hparts : ∀ p ∈ node.places path owner,
        (p.2.2.leaves p.1 p.2.1).filterMap (·.node.call?) = p.2.2.calls := by
      intro p hp
      have hpart : p.2.2 ∈ node.parts := by
        rw [parts_eq_map_places path owner]
        exact List.mem_map_of_mem hp
      rw [calls, ih _ hpart, ih _ hpart]
    rw [leaves_eq, List.filterMap_append, hown, List.filterMap_flatMap,
      parts_eq_map_places path owner, List.flatMap_map, List.flatMap_def, List.flatMap_def,
      List.map_congr_left hparts]

/-- The calls for a node are those for its parts, after the one for the node itself. -/
theorem calls_eq (node : Node) : node.calls = node.call?.toList ++ node.parts.flatMap calls :=
  filterMap_call?_leaves node [] none

theorem calls_of_isDropped {node : Node} (h : node.isDropped = true) : node.calls = [] := by
  cases node with
  | text span raw mode content =>
    have hnone : content = none := by simpa [isDropped] using h
    rw [hnone]
    rfl
  | _ => cases h

end Node

namespace Code

mutual
/-- The calls in an expression, in the order in which they are written. -/
def Expr.calls : Expr → List Call
  | .element _ attributes children => attrsCalls attributes ++ exprsCalls children
  | .selfClosing _ attributes => attrsCalls attributes
  | .component _ _ _ props => groupsCalls props
  | .fragment _ children => exprsCalls children
  | .collected _ _ => []
  | .empty _ => []
  | .value _ raw code => [.value raw code]
  | .text _ raw content => [.text raw content]
  | .block _ _ body => stmtsCalls body

def exprsCalls : List Expr → List Call
  | [] => []
  | e :: es => Expr.calls e ++ exprsCalls es

def Value.calls : Value → List Call
  | .code _ => []
  | .expr e => Expr.calls e

def Attr.calls : Attr → List Call
  | .pair _ _ value => Value.calls value
  | .format _ _ _ _ => []
  | .spread _ _ => []

def attrsCalls : List Attr → List Call
  | [] => []
  | a :: as => Attr.calls a ++ attrsCalls as

def PropGroup.calls : PropGroup → List Call
  | .record props => entriesCalls props
  | .spread _ => []

def groupsCalls : List PropGroup → List Call
  | [] => []
  | g :: gs => PropGroup.calls g ++ groupsCalls gs

def PropEntry.calls : PropEntry → List Call
  | .field _ value => Value.calls value
  | .format _ _ _ _ => []
  | .children nodes => exprsCalls nodes

def entriesCalls : List PropEntry → List Call
  | [] => []
  | p :: ps => PropEntry.calls p ++ entriesCalls ps

def Stmt.calls : Stmt → List Call
  | .deliver _ value => Expr.calls value
  | .declare _ _ => []
  | .ifChain arms => armsCalls arms
  | .loop _ _ body => stmtsCalls body
  | .switch _ arms => armsCalls arms
  | .blank => []

def stmtsCalls : List Stmt → List Call
  | [] => []
  | s :: ss => Stmt.calls s ++ stmtsCalls ss

def armsCalls : List Arm → List Call
  | [] => []
  | ⟨_, _, body⟩ :: arms => stmtsCalls body ++ armsCalls arms
end

theorem stmtsCalls_append (first second : List Stmt) :
    stmtsCalls (first ++ second) = stmtsCalls first ++ stmtsCalls second := by
  induction first with
  | nil => rfl
  | cons s first ih => rw [List.cons_append, stmtsCalls, stmtsCalls, ih, List.append_assoc]

variable {α β : Type} {b : Builder}

/-- Whatever the counter, emission makes what `P` says. -/
def Makes (x : EmitM α) (P : α → Prop) : Prop := ∀ c : Counter, P (x c).1

theorem Makes.pure {a : α} {P : α → Prop} (h : P a) : Makes (pure a) P := fun _ => h

theorem Makes.bind {x : EmitM α} {f : α → EmitM β} {P : α → Prop} {Q : β → Prop}
    (hx : Makes x P) (hf : ∀ a, P a → Makes (f a) Q) : Makes (x >>= f) Q :=
  fun c => hf _ (hx c) (x c).2

theorem Makes.of_run {x : EmitM α} {P : α → Prop} (h : Makes x P) {c c' : Counter} {a : α}
    (hrun : x.run c = (a, c')) : P a := by
  have ha : (x c).1 = a := congrArg Prod.fst hrun
  exact ha ▸ h c

theorem Makes.freshList {f : ListVar → EmitM α} {P : α → Prop}
    (h : ∀ id, Makes (f (.fresh id)) P) : Makes (freshList >>= f) P :=
  fun c => h c.next ⟨c.next + 1, c.blocks⟩

theorem Makes.inBlock {allocator : String} {body : Nat → EmitM (List Stmt)} {P : Expr → Prop}
    (h : ∀ id, Makes (body id) fun stmts => P (.block id allocator stmts)) :
    Makes (inBlock allocator body) P := fun c => h c.next ⟨c.next + 1, c.blocks + 1⟩

theorem loopOver_calls {flow : FlowKind} {arms : List Arm} (h : arms.length ≤ 1) :
    (loopOver flow arms).calls = armsCalls arms := by
  match arms, h with
  | [], _ => rfl
  | [⟨_, _, body⟩], _ => simp [loopOver, Stmt.calls, armsCalls]

theorem flowStatements_calls {flow : FlowKind} {subject : Option String} {calls : List Call}
    {arms : Sink → EmitM (List Arm)}
    (h : ∀ sink, Makes (arms sink) fun as => armsCalls as = calls ∧
      (isLoop flow = true → as.length ≤ 1)) (sink : Sink) :
    Makes (flowStatements b sink flow subject arms) fun stmts => stmtsCalls stmts = calls := by
  cases flow with
  | ifElse =>
    cases sink with
    | breakTo label =>
      refine (h (.breakTo label)).bind fun as has => .pure ?_
      rw [stmtsCalls, Stmt.calls, has.1]
      split <;> simp [stmtsCalls, Stmt.calls, Expr.calls]
    | appendTo list =>
      refine (h (.appendTo list)).bind fun as has => .pure ?_
      simp [stmtsCalls, Stmt.calls, has.1]
  | switch =>
    refine (h sink).bind fun as has => .pure ?_
    simp [stmtsCalls, Stmt.calls, has.1]
  | forLoop | whileLoop =>
    cases sink with
    | breakTo label =>
      refine .freshList fun id => (h (.appendTo (.fresh id))).bind fun as has => .pure ?_
      simp [stmtsCalls, Stmt.calls, Expr.calls, loopOver_calls (has.2 rfl), has.1]
    | appendTo list =>
      refine (h (.appendTo list)).bind fun as has => .pure ?_
      simp [stmtsCalls, loopOver_calls (has.2 rfl), has.1]

def PropItem.calls : PropItem → List Call
  | .entry prop => prop.calls
  | .spread _ => []

theorem groupsCalls_groupProps (items : List PropItem) :
    groupsCalls (groupProps items) = items.flatMap PropItem.calls := by
  induction items with
  | nil => rfl
  | cons item items ih =>
    rw [List.flatMap_cons, ← ih]
    cases item with
    | spread code => rw [groupProps, groupsCalls]; rfl
    | entry prop =>
      rw [groupProps]
      split
      · next props groups heq =>
        rw [heq, groupsCalls, groupsCalls, PropGroup.calls, PropGroup.calls, entriesCalls,
          List.append_assoc]
        rfl
      · rw [groupsCalls, PropGroup.calls, entriesCalls, entriesCalls, List.append_nil]
        rfl

/-- What emission is to make of a node: its calls, as an expression and as statements. -/
structure MakesCalls (node : Node) : Prop where
  expr : ∀ b, Makes (exprOf b node) fun e => e.calls = node.calls
  stmts : ∀ b sink, Makes (into b sink node) fun stmts => stmtsCalls stmts = node.calls

section Lists

variable {nodes : List Node} (h : ∀ n ∈ nodes, n.isDropped = false → MakesCalls n)

include h

theorem exprsOf_calls : Makes (exprsOf b nodes) fun es => exprsCalls es = nodes.flatMap Node.calls := by
  induction nodes with
  | nil => exact .pure rfl
  | cons node nodes ih =>
    have hrest := ih fun n hn => h n (List.mem_cons_of_mem _ hn)
    rw [exprsOf, List.flatMap_cons]
    cases hdrop : node.isDropped with
    | true =>
      rw [Node.calls_of_isDropped hdrop]
      exact hrest
    | false =>
      refine ((h node (List.mem_cons_self ..) hdrop).expr b).bind fun e he => ?_
      refine hrest.bind fun es hes => .pure ?_
      rw [exprsCalls, he, hes]

theorem statementsOf_calls (sink : Sink) :
    Makes (statementsOf b sink nodes) fun stmts => stmtsCalls stmts = nodes.flatMap Node.calls := by
  induction nodes with
  | nil => exact .pure rfl
  | cons node nodes ih =>
    have hrest := ih fun n hn => h n (List.mem_cons_of_mem _ hn)
    rw [statementsOf_cons, List.flatMap_cons]
    cases hdrop : node.isDropped with
    | true =>
      rw [Node.calls_of_isDropped hdrop]
      exact hrest
    | false =>
      refine ((h node (List.mem_cons_self ..) hdrop).stmts b sink).bind fun first hfirst => ?_
      refine hrest.bind fun rest hrest => .pure ?_
      rw [stmtsCalls_append, hfirst, hrest]

theorem bodyOf_list_calls (sink : Sink) :
    Makes (bodyOf b sink (.list nodes)) fun stmts => stmtsCalls stmts = nodes.flatMap Node.calls := by
  cases sink with
  | appendTo list => exact statementsOf_calls h (.appendTo list)
  | breakTo label =>
    unfold bodyOf
    rcases hcount : (nodes.filter (!·.isDropped)).length with _ | _ | count
    · have hnone : nodes.flatMap Node.calls = [] := by
        rw [List.flatMap_eq_nil_iff]
        intro n hn
        have hdrop : ∀ node ∈ nodes, node.isDropped = true := by simpa using hcount
        exact Node.calls_of_isDropped (hdrop n hn)
      rw [hcount, hnone]
      exact .pure rfl
    · rw [hcount]
      exact statementsOf_calls h (.breakTo label)
    · rw [hcount]
      refine (exprsOf_calls h).bind fun es hes => .pure ?_
      simpa [stmtsCalls, Stmt.calls, Expr.calls] using hes

end Lists

theorem armsOf_calls {sink : Sink} {onlyFirst : Bool} {branches : List Branch}
    (hlowered : ∀ branch ∈ branches, branch.body.Lowered)
    (hlength : onlyFirst = true → branches.length ≤ 1)
    (h : ∀ n ∈ branches.flatMap (fun branch => branch.body.all), n.isDropped = false → MakesCalls n) :
    Makes (armsOf b sink onlyFirst branches) fun arms =>
      armsCalls arms = (branches.flatMap fun branch => branch.body.all).flatMap Node.calls ∧
        (onlyFirst = true → arms.length ≤ 1) := by
  induction branches with
  | nil => exact .pure ⟨rfl, by simp⟩
  | cons branch branches ih =>
    obtain ⟨span, head, capture, body⟩ := branch
    have hbody : Makes (bodyOf b sink body) fun stmts =>
        stmtsCalls stmts = body.all.flatMap Node.calls := by
      cases body with
      | node n =>
        have htext : n.isText = false := hlowered _ (List.mem_cons_self ..)
        have hdrop : n.isDropped = false := by
          cases n <;> first | rfl | cases htext
        have hn := h n (List.mem_append_left _ (List.mem_singleton.mpr rfl)) hdrop
        rw [Body.all, List.flatMap_singleton]
        exact hn.stmts b sink
      | list ns => exact bodyOf_list_calls (fun n hn => h n (List.mem_append_left _ hn)) sink
    rw [armsOf, List.flatMap_cons, List.flatMap_append]
    refine hbody.bind fun stmts hstmts => ?_
    cases onlyFirst with
    | true =>
      have hnil : branches = [] := by simpa using hlength rfl
      subst hnil
      refine .pure ⟨?_, by simp⟩
      simp [armsCalls, hstmts]
    | false =>
      have hrest := ih (fun other hother => hlowered other (List.mem_cons_of_mem _ hother))
        (by simp) (fun n hn => h n (List.mem_append_right _ hn))
      refine hrest.bind fun arms harms => .pure ⟨?_, by simp⟩
      rw [armsCalls, hstmts, harms.1]

theorem filterMap_node?_cons (a : Attribute) (rest : List Attribute) :
    (a :: rest).filterMap Attribute.node? = a.node?.toList ++ rest.filterMap Attribute.node? := by
  rw [List.filterMap_cons]
  split <;> simp_all

theorem valueOf_calls {value : AttrValue} {flag : String} {span : Span} {name : String}
    (h : ∀ n ∈ (Attribute.static span name value).node?, MakesCalls n) :
    Makes (valueOf b flag value) fun v =>
      v.calls = (Attribute.static span name value).node?.toList.flatMap Node.calls := by
  cases value with
  | node n =>
    rw [valueOf]
    refine ((h n rfl).expr b).bind fun e he => .pure ?_
    simpa [Value.calls, Attribute.node?] using he
  | _ => exact .pure rfl

/-- The calls of attributes are those of the templates in their values. -/
theorem attrsOf_calls {attributes : List Attribute}
    (h : ∀ n ∈ attributes.filterMap Attribute.node?, MakesCalls n) :
    Makes (attrsOf b attributes) fun as =>
      attrsCalls as = (attributes.filterMap Attribute.node?).flatMap Node.calls := by
  induction attributes with
  | nil => exact .pure rfl
  | cons a rest ih =>
    rw [filterMap_node?_cons] at h ⊢
    have hrest := ih fun n hn => h n (List.mem_append_right _ hn)
    rw [List.flatMap_append]
    cases a with
    | static span name value =>
      rw [attrsOf]
      refine (valueOf_calls fun n hn => h n (List.mem_append_left _ (by simpa using hn))).bind
        fun v hv => hrest.bind fun as has => .pure ?_
      rw [attrsCalls, Attr.calls, hv, has]
    | builtin => exact hrest
    | builtinShorthand => exact hrest
    | shorthand | formatted | spread =>
      rw [attrsOf]
      exact hrest.bind fun as has => .pure has

theorem propsOf_calls {attributes : List Attribute}
    (h : ∀ n ∈ attributes.filterMap Attribute.node?, MakesCalls n) :
    Makes (propsOf b attributes) fun items =>
      items.flatMap PropItem.calls = (attributes.filterMap Attribute.node?).flatMap Node.calls := by
  induction attributes with
  | nil => exact .pure rfl
  | cons a rest ih =>
    rw [filterMap_node?_cons] at h ⊢
    have hrest := ih fun n hn => h n (List.mem_append_right _ hn)
    rw [List.flatMap_append]
    cases a with
    | static span name value =>
      rw [propsOf]
      refine (valueOf_calls fun n hn => h n (List.mem_append_left _ (by simpa using hn))).bind
        fun v hv => hrest.bind fun items hitems => .pure ?_
      rw [List.flatMap_cons, hitems, ← hv]
      rfl
    | builtin => exact hrest
    | builtinShorthand => exact hrest
    | shorthand | formatted | spread =>
      rw [propsOf]
      exact hrest.bind fun items hitems => .pure hitems

/-- What is not control flow is delivered as one expression. -/
theorem makesCalls_of_expr {node : Node}
    (hinto : ∀ b sink, into b sink node = (do return [.deliver sink (← exprOf b node)]))
    (h : ∀ b, Makes (exprOf b node) fun e => e.calls = node.calls) : MakesCalls node := by
  refine ⟨h, fun b sink => ?_⟩
  rw [hinto]
  refine (h b).bind fun e he => .pure ?_
  simpa [stmtsCalls, Stmt.calls] using he

theorem values_of_lowered {tag : Tag} (h : tag.Lowered) :
    ∀ n ∈ tag.attributes.filterMap Attribute.node?, n.isDropped = false := by
  intro n hn
  obtain ⟨a, ha, hnode⟩ := List.mem_filterMap.mp hn
  have hlowered := h.attributes a ha
  match a, hnode, hlowered with
  | .static _ _ (.node _), rfl, hlowered =>
    cases n <;> first | rfl | cases hlowered

/-- The code of an accepted node makes the calls of the node. -/
theorem makesCalls (node : Node) : node.Everywhere Node.Lowered → node.isDropped = false →
    MakesCalls node := by
  induction node using Node.induction_on_parts with
  | h node ih =>
    intro hnode hdrop
    have hparts : ∀ n ∈ node.parts, n.isDropped = false → MakesCalls n :=
      fun n hn => ih n hn (hnode.part hn)
    cases node with
    | element tag children =>
      refine makesCalls_of_expr (fun _ _ => rfl) fun b => ?_
      have hvalues : ∀ n ∈ tag.attributes.filterMap Attribute.node?, MakesCalls n :=
        fun n hn => hparts n (List.mem_append_left _ hn) (values_of_lowered hnode.here n hn)
      have hchildren : ∀ n ∈ children, n.isDropped = false → MakesCalls n :=
        fun n hn => hparts n (List.mem_append_right _ hn)
      have hcalls : (Node.element tag children).calls =
          (tag.attributes.filterMap Attribute.node?).flatMap Node.calls ++
            children.flatMap Node.calls := by
        rw [Node.calls_eq, Node.parts, List.flatMap_append]
        rfl
      rw [hcalls]
      obtain ⟨span, name, kind, attributes, mode, allocator⟩ := tag
      cases kind with
      | component =>
        rw [exprOf]
        refine (propsOf_calls hvalues).bind fun items hitems => ?_
        refine (exprsOf_calls hchildren).bind fun es hes => .pure ?_
        rw [Expr.calls, groupsCalls_groupProps, ← hitems, ← hes]
        cases es with
        | nil => simp [exprsCalls]
        | cons e es => simp [PropItem.calls, PropEntry.calls]
      | element =>
        rw [exprOf]
        refine (attrsOf_calls hvalues).bind fun as has => ?_
        refine (exprsOf_calls hchildren).bind fun es hes => .pure ?_
        rw [Expr.calls, has, hes]
    | selfClosing tag =>
      refine makesCalls_of_expr (fun _ _ => rfl) fun b => ?_
      have hvalues : ∀ n ∈ tag.attributes.filterMap Attribute.node?, MakesCalls n :=
        fun n hn => hparts n hn (values_of_lowered hnode.here n hn)
      have hcalls : (Node.selfClosing tag).calls =
          (tag.attributes.filterMap Attribute.node?).flatMap Node.calls := Node.calls_eq _
      rw [hcalls]
      obtain ⟨span, name, kind, attributes, mode, allocator⟩ := tag
      cases kind with
      | component =>
        rw [exprOf]
        refine (propsOf_calls hvalues).bind fun items hitems => .pure ?_
        rw [Expr.calls, groupsCalls_groupProps, hitems]
      | element =>
        rw [exprOf]
        refine (attrsOf_calls hvalues).bind fun as has => .pure ?_
        rw [Expr.calls, has]
    | fragment span children =>
      refine makesCalls_of_expr (fun _ _ => rfl) fun b => ?_
      rw [exprOf]
      refine (exprsOf_calls hparts).bind fun es hes => .pure ?_
      rw [Expr.calls, hes, Node.calls_eq]
      rfl
    | expr span code mode => exact makesCalls_of_expr (fun _ _ => rfl) fun _ => .pure rfl
    | text span raw mode content =>
      have hcontent : content.isSome := by simpa [Node.isDropped] using hdrop
      obtain ⟨written, rfl⟩ := Option.isSome_iff_exists.mp hcontent
      exact makesCalls_of_expr (fun _ _ => rfl) fun _ => .pure rfl
    | flow span kind subject allocator branches =>
      have hcalls : (Node.flow span kind subject allocator branches).calls =
          (branches.flatMap fun branch => branch.body.all).flatMap Node.calls := Node.calls_eq _
      have harms : ∀ b sink, Makes (armsOf b sink (isLoop kind) branches) fun arms =>
          armsCalls arms = (Node.flow span kind subject allocator branches).calls ∧
            (isLoop kind = true → arms.length ≤ 1) := by
        intro b sink
        rw [hcalls]
        refine armsOf_calls hnode.here.2 (fun hloop => ?_) hparts
        simpa using hnode.here.1.length_le_one (isLoop_iff.mp hloop)
      have hstmts : ∀ b sink, Makes (flowStatements b sink kind subject fun sink =>
          armsOf b sink (isLoop kind) branches) fun stmts => stmtsCalls stmts =
            (Node.flow span kind subject allocator branches).calls :=
        fun b sink => flowStatements_calls (harms b) sink
      refine ⟨fun b => ?_, fun b sink => hstmts b sink⟩
      rw [exprOf]
      exact .inBlock fun id => hstmts (.ofBlock id) (.breakTo (.block id))

end Code

end ZigMarkup
