import Mathlib
import ZigMarkup.Compile
import ZigMarkup.Proofs.FlowEmission
import ZigMarkup.Proofs.Resolved

/-!
The code of a template builds what the template stands for, whatever the host code around it
does. The proof follows the recursion of emission: code for a node in the place of a value
yields the tree of the node, and statements for a body serve the sink that they deliver to.
-/
namespace ZigMarkup

namespace Code

open RunM

variable {σ ν α : Type} {host : Host σ ν} {n : Nat} {blocks : List Nat} {b : Builder}

def PropItem.eval (host : Host σ ν) (blocks : List Nat) : PropItem → RunM σ ν (Setting ν)
  | .entry prop => PropEntry.eval host blocks prop
  | .spread code => do return .spread (← ask (host.read code))

def evalItems (host : Host σ ν) (blocks : List Nat) : List PropItem → RunM σ ν (List (Setting ν))
  | [] => return []
  | item :: items => do
    let setting ← item.eval host blocks
    return setting :: (← evalItems host blocks items)

/-- Props in records merged with spreads are set in the order of their items. -/
theorem evalGroups_groupProps (items : List PropItem) :
    evalGroups host blocks (groupProps items) = evalItems host blocks items := by
  induction items with
  | nil => rfl
  | cons item items ih =>
    cases item with
    | spread code =>
      rw [groupProps, evalGroups, PropGroup.eval, evalItems, PropItem.eval, ← ih]
      simp
    | entry prop =>
      rw [groupProps, evalItems, PropItem.eval, ← ih]
      split
      · next props groups heq =>
        rw [heq, evalGroups, evalGroups, PropGroup.eval, PropGroup.eval, evalEntries]
        simp
      · rw [evalGroups, PropGroup.eval, evalEntries, evalEntries]
        simp

theorem evalItems_append (first second : List PropItem) :
    evalItems host blocks (first ++ second) = (do
      let xs ← evalItems host blocks first
      let ys ← evalItems host blocks second
      return xs ++ ys) := by
  induction first with
  | nil => simp [evalItems]
  | cons item first ih => simp [evalItems, ih]

theorem readOptions_componentOptions (tag : Tag) :
    readOptions host (componentOptions tag) = (ask (host.options tag.attributes) : RunM σ ν _) := by
  have hsame : ∀ s, (componentOptions tag).map (fun o => (o.1, host.value o.2 s)) =
      (host.options tag.attributes s).1 := by
    intro s
    simp [componentOptions, Host.options, List.map_filterMap, Tag.builtin?, Function.comp_def]
  unfold readOptions
  simp only [hsame]
  rfl

theorem length_builtAll (nodes : List Node) (s : σ) :
    (host.builtAll nodes s).1.length = (nodes.filter (!·.isDropped)).length := by
  induction nodes generalizing s with
  | nil => rfl
  | cons node nodes ih =>
    rw [Host.builtAll]
    by_cases hdrop : node.isDropped
    · simpa [hdrop] using ih s
    · simp only [hdrop, List.filter_cons]
      exact congrArg (· + 1) (ih (host.built node s).2)

theorem bodyValue_of_two_le {values : List (Built ν)} (h : 2 ≤ values.length) :
    Host.bodyValue values = .fragment values := by
  match values, h with
  | _ :: _ :: _, _ => rfl

theorem builtAll_of_dropped {nodes : List Node} (h : ∀ node ∈ nodes, node.isDropped = true)  :
    host.builtAll nodes = (pure [] : StateM σ (List (Built ν))) := by
  induction nodes with
  | nil => rfl
  | cons node nodes ih =>
    rw [Host.builtAll, if_pos (h node (List.mem_cons_self ..))]
    exact ih fun other hother => h other (List.mem_cons_of_mem _ hother)

theorem statementsOf_of_dropped {nodes : List Node} (h : ∀ node ∈ nodes, node.isDropped = true)
    (sink : Sink) : statementsOf b sink nodes = pure [] := by
  induction nodes with
  | nil => rfl
  | cons node nodes ih =>
    have hnode := h node (List.mem_cons_self ..)
    have hrest := ih fun other hother => h other (List.mem_cons_of_mem _ hother)
    cases node with
    | text span raw mode content => rw [statementsOf, if_pos hnode, hrest]; simp
    | _ => simp [Node.isDropped] at hnode

theorem length_of_evalAll {es : List Expr} {m next : Memory σ ν} {values : List (Built ν)}
    (h : evalAll host blocks es m = some (values, next)) : values.length = es.length := by
  induction es generalizing m values with
  | nil =>
    cases h
    rfl
  | cons e es ih =>
    rw [evalAll] at h
    cases hfirst : Expr.eval host blocks e m with
    | none => simp [bind, StateT.bind, hfirst] at h
    | some first =>
      rw [bind_of_some hfirst] at h
      cases hrest : evalAll host blocks es first.2 with
      | none => simp [bind, StateT.bind, hrest] at h
      | some rest =>
        rw [bind_of_some hrest] at h
        cases h
        simp [ih hrest]

/-- The children of a component are a prop of their own, unless there are none. -/
theorem withChildren_yields {items : List PropItem} {es : List Expr}
    {props : StateM σ (List (Setting ν))} {content : StateM σ (List (Built ν))}
    (hitems : Yields n (evalItems host blocks items) props)
    (hcontent : Yields n (evalAll host blocks es) content) :
    Yields n (evalItems host blocks (if es.isEmpty then items else items ++ [.entry (.children es)]))
      (do
        let props ← props
        let content ← content
        return if content.isEmpty then props else props ++ [.children content]) := by
  intro s lists hfree
  have hprops := hitems s lists hfree
  have hchildren := hcontent (props s).2 lists hfree
  have hlength := length_of_evalAll hchildren
  have hden : (do
      let props ← props
      let content ← content
      return if content.isEmpty then props else props ++ [.children content] :
        StateM σ (List (Setting ν))) s =
      (if (content (props s).2).1.isEmpty then (props s).1
        else (props s).1 ++ [.children (content (props s).2).1], (content (props s).2).2) := rfl
  rw [hden]
  cases es with
  | nil =>
    have hnil : (content (props s).2).1 = [] := List.length_eq_zero_iff.mp hlength
    have hstate : (content (props s).2).2 = (props s).2 := by
      rw [evalAll] at hchildren
      simp only [pure, StateT.pure, Option.some.injEq, Prod.mk.injEq, Memory.mk.injEq] at hchildren
      exact hchildren.2.1.symm
    rw [hnil, hstate]
    exact hprops
  | cons e es =>
    have hne : (content (props s).2).1.isEmpty = false := by
      rw [List.isEmpty_eq_false_iff_exists_mem]
      exact List.exists_mem_of_length_pos (by simp [hlength])
    have hlast : evalItems host blocks [.entry (.children (e :: es))] ⟨(props s).2, lists⟩ =
        some ([.children (content (props s).2).1], ⟨(content (props s).2).2, lists⟩) := by
      rw [evalItems, PropItem.eval, PropEntry.eval, bind_assoc]
      exact bind_of_some hchildren
    rw [hne]
    change evalItems host blocks (items ++ [.entry (.children (e :: es))]) ⟨s, lists⟩ = _
    rw [evalItems_append, bind_of_some hprops, bind_of_some hlast]
    rfl

/-- Inside the blocks with these numbers, all below `n`, with the builder of one of them. -/
structure Inside (n : Nat) (blocks : List Nat) (b : Builder) : Prop where
  opened : b.Opened blocks
  below : ∀ id ∈ blocks, id < n

theorem Inside.mono {m : Nat} (h : Inside n blocks b) (hm : n ≤ m) : Inside m blocks b :=
  ⟨h.opened, fun id hid => Nat.lt_of_lt_of_le (h.below id hid) hm⟩

theorem inside_block (hblocks : ∀ id ∈ blocks, id < n) {id : Nat} (hid : n ≤ id) :
    Inside (id + 1) (id :: blocks) (.ofBlock id) := by
  refine ⟨⟨id, List.mem_cons_self .., rfl⟩, fun other hother => ?_⟩
  rcases List.mem_cons.mp hother with rfl | hother
  · exact Nat.lt_succ_self other
  · have hbelow := hblocks other hother
    omega

/-- A block around statements that break to it yields their value. -/
theorem inBlock_emits {allocator : String} {body : Nat → EmitM (List Stmt)}
    {den : StateM σ (Built ν)} (hblocks : ∀ id ∈ blocks, id < n)
    (h : ∀ id, Inside (id + 1) (id :: blocks) (.ofBlock id) → Emits (id + 1) (body id)
      fun stmts => Leaves (id + 1) (.block id) (execAll host (id :: blocks) stmts) den) :
    Emits n (inBlock allocator body) fun e => Yields n (e.eval host blocks) den := by
  refine Emits.inBlock fun id hid => ?_
  refine (h id (inside_block hblocks hid)).mono fun stmts hstmts => ?_
  have hnew : id ∉ blocks := fun hmem => absurd (hblocks id hmem) (by omega)
  exact (Leaves.block hnew hstmts).mono (by omega)

theorem alternatives_heads (branches : List Branch) :
    (host.alternatives branches).map Alternative.head = branches.map Branch.head := by
  induction branches with
  | nil => rfl
  | cons branch branches ih =>
    obtain ⟨span, head, capture, body⟩ := branch
    rw [Host.alternatives, List.map_cons, List.map_cons, ih]

variable (host) in
theorem flow_emits {flow : FlowKind} {subject : Option String} {branches : List Branch}
    (hin : Inside n blocks b) (harranged : flow.Arranged (branches.map Branch.head))
    (harms : ∀ m, n ≤ m → ∀ (sink : Sink) (onlyFirst : Bool),
      (onlyFirst = true → branches.length ≤ 1) → Emits m (armsOf b sink onlyFirst branches)
        fun arms => List.Forall₂ (ArmServes host m blocks sink) arms (host.alternatives branches))
    (sink : Sink) :
    Emits n (flowStatements b sink flow subject fun sink => armsOf b sink (isLoop flow) branches)
      (Serves host n blocks sink (host.flowValue flow subject (host.alternatives branches))
        (host.flowItems flow subject (host.alternatives branches))) := by
  refine flowStatements_emits hin.opened ?_ (fun m sink hm => ?_) sink
  · rwa [alternatives_heads]
  · exact harms m hm sink _ fun hloop => by
      simpa using harranged.length_le_one (isLoop_iff.mp hloop)

theorem execAll_append (first second : List Stmt) :
    execAll host blocks (first ++ second) =
      andThen (execAll host blocks first) (execAll host blocks second) := by
  induction first with
  | nil => rfl
  | cons stmt first ih =>
    rw [List.cons_append, execAll, ih, execAll]
    simp only [andThen, bind_assoc]
    refine congrArg _ (funext fun exit => ?_)
    cases exit <;> simp

mutual
theorem exprOf_emits : ∀ (node : Node) {n : Nat} {blocks : List Nat} {b : Builder},
    Inside n blocks b → node.Everywhere Node.Lowered →
    Emits n (exprOf b node) fun e => Yields n (e.eval host blocks) (host.built node)
  | .element ⟨_, name, .component, attributes, _, _⟩ children, n, blocks, b, hin, hnode => by
    refine (propsOf_emits attributes hin ?_).bind fun items hitems => ?_
    · exact fun part hpart => hnode.part (List.mem_append_left _ hpart)
    refine (exprsOf_emits children hin ?_).bind fun es hes => .pure ?_
    · exact fun part hpart => hnode.part (List.mem_append_right _ hpart)
    rw [Expr.eval, readOptions_componentOptions, evalGroups_groupProps, Host.built]
    refine .called hin.opened ((Yields.ask _).bind fun options => ?_)
    exact (withChildren_yields hitems hes).bind fun _ => .pure _
  | .element ⟨_, name, .element, attributes, mode, _⟩ children, n, blocks, b, hin, hnode => by
    refine (attrsOf_emits attributes hin ?_).bind fun as has => ?_
    · exact fun part hpart => hnode.part (List.mem_append_left _ hpart)
    refine (exprsOf_emits children hin ?_).bind fun es hes => .pure ?_
    · exact fun part hpart => hnode.part (List.mem_append_right _ hpart)
    rw [Expr.eval, Host.built]
    refine .called hin.opened ((Yields.ask _).bind fun opening => ?_)
    exact has.bind fun _ => hes.bind fun _ => .pure _
  | .selfClosing ⟨_, name, .component, attributes, _, _⟩, n, blocks, b, hin, hnode => by
    refine (propsOf_emits attributes hin fun part hpart => hnode.part hpart).bind
      fun items hitems => .pure ?_
    rw [Expr.eval, readOptions_componentOptions, evalGroups_groupProps, Host.built]
    refine .called hin.opened ((Yields.ask _).bind fun options => ?_)
    exact hitems.bind fun _ => .pure _
  | .selfClosing ⟨_, name, .element, attributes, mode, _⟩, n, blocks, b, hin, hnode => by
    refine (attrsOf_emits attributes hin fun part hpart => hnode.part hpart).bind
      fun as has => .pure ?_
    rw [Expr.eval, Host.built]
    refine .called hin.opened ((Yields.ask _).bind fun opening => ?_)
    exact has.bind fun _ => .pure _
  | .fragment _ children, n, blocks, b, hin, hnode => by
    refine (exprsOf_emits children hin fun part hpart => hnode.part hpart).bind
      fun es hes => .pure ?_
    rw [Expr.eval, Host.built]
    exact .called hin.opened (hes.bind fun _ => .pure _)
  | .expr _ code mode, n, blocks, b, hin, _ => by
    refine .pure ?_
    rw [Expr.eval, Host.built]
    exact .called hin.opened ((Yields.ask _).bind fun _ => .pure _)
  | .text _ _ mode content, n, blocks, b, hin, _ => by
    refine .pure ?_
    rw [Expr.eval, Host.built]
    exact .called hin.opened (.pure _)
  | .flow _ flow subject allocator branches, n, blocks, b, hin, hnode => by
    have harranged : flow.Arranged (branches.map Branch.head) := hnode.here.1
    rw [exprOf, Host.built]
    refine inBlock_emits hin.below fun id hblock => ?_
    refine flow_emits host hblock harranged (fun m hm => ?_) (.breakTo (.block id))
    exact armsOf_emits branches (hblock.mono hm) fun part hpart => hnode.part hpart

theorem exprsOf_emits : ∀ (nodes : List Node) {n : Nat} {blocks : List Nat} {b : Builder},
    Inside n blocks b → (∀ node ∈ nodes, node.Everywhere Node.Lowered) →
    Emits n (exprsOf b nodes) fun es => Yields n (evalAll host blocks es) (host.builtAll nodes)
  | [], n, blocks, b, _, _ => .pure (.pure [])
  | node :: nodes, n, blocks, b, hin, hnodes => by
    have hrest := exprsOf_emits nodes hin fun other hother => hnodes other (List.mem_cons_of_mem _ hother)
    rw [exprsOf, Host.builtAll]
    by_cases hdrop : node.isDropped
    · rw [if_pos hdrop, if_pos hdrop]
      exact hrest
    · rw [if_neg hdrop, if_neg hdrop]
      refine (exprOf_emits node hin (hnodes node (List.mem_cons_self ..))).bind fun e he => ?_
      refine hrest.bind fun es hes => .pure ?_
      rw [evalAll]
      exact he.bind fun _ => hes.bind fun _ => .pure _

theorem statementsOf_adds : ∀ (nodes : List Node) {n : Nat} {blocks : List Nat} {b : Builder},
    Inside n blocks b → (∀ node ∈ nodes, node.Everywhere Node.Lowered) → ∀ list : ListVar,
    Emits n (statementsOf b (.appendTo list) nodes) fun stmts =>
      Adds n list (execAll host blocks stmts) (host.itemsAll nodes)
  | [], n, blocks, b, _, _, list => .pure (Adds.done n list)
  | node :: nodes, n, blocks, b, hin, hnodes, list => by
    have hnode := hnodes node (List.mem_cons_self ..)
    have hrest := statementsOf_adds nodes hin
      (fun other hother => hnodes other (List.mem_cons_of_mem _ hother)) list
    have hown : Emits n (do
        if node.isDropped then statementsOf b (.appendTo list) nodes
        else
          let e ← exprOf b node
          return .deliver (.appendTo list) e :: (← statementsOf b (.appendTo list) nodes))
        fun stmts => Adds n list (execAll host blocks stmts) (do
          if node.isDropped then host.itemsAll nodes
          else
            let value ← host.built node
            return value :: (← host.itemsAll nodes)) := by
      by_cases hdrop : node.isDropped
      · rw [if_pos hdrop, if_pos hdrop]
        exact hrest
      · rw [if_neg hdrop, if_neg hdrop]
        refine (exprOf_emits node hin hnode).bind fun e he => hrest.bind fun stmts hstmts => .pure ?_
        have hfirst : Adds n list (execAll host blocks [.deliver (.appendTo list) e]) _ :=
          deliver_serves (.appendTo list) he
        rw [← List.singleton_append, execAll_append]
        exact hfirst.andThen hstmts
    cases node with
    | flow span flow subject allocator branches =>
      rw [statementsOf, Host.itemsAll]
      refine (flow_emits host hin hnode.here.1 (fun m hm => ?_) (.appendTo list)).bind fun first hfirst => ?_
      · exact armsOf_emits branches (hin.mono hm) fun part hpart => hnode.part hpart
      refine hrest.bind fun stmts hstmts => .pure ?_
      rw [execAll_append]
      exact Adds.andThen hfirst hstmts
    | _ => exact hown

theorem statementsOf_leaves : ∀ (nodes : List Node) {n : Nat} {blocks : List Nat} {b : Builder},
    Inside n blocks b → (∀ node ∈ nodes, node.Everywhere Node.Lowered) →
    (nodes.filter (!·.isDropped)).length = 1 → ∀ label : BlockLabel,
    Emits n (statementsOf b (.breakTo label) nodes) fun stmts =>
      Leaves n label (execAll host blocks stmts) (do return Host.bodyValue (← host.builtAll nodes))
  | [], n, blocks, b, _, _, hone, label => by simp at hone
  | node :: nodes, n, blocks, b, hin, hnodes, hone, label => by
    have hnode := hnodes node (List.mem_cons_self ..)
    by_cases hdrop : node.isDropped
    · have hrest := statementsOf_leaves nodes hin
        (fun other hother => hnodes other (List.mem_cons_of_mem _ hother)) (by simpa [hdrop] using hone)
        label
      rw [Host.builtAll, if_pos hdrop]
      cases node with
      | text span raw mode content =>
        rw [statementsOf, if_pos hdrop]
        · exact hrest
        · simp
      | _ => cases hdrop
    · have hothers : ∀ other ∈ nodes, other.isDropped = true := by
        simpa [hdrop] using hone
      have hden : (do return Host.bodyValue (← host.builtAll (node :: nodes))) = host.built node := by
        rw [Host.builtAll, if_neg hdrop, builtAll_of_dropped hothers]
        rfl
      rw [hden]
      have hown : Emits n (do
          let e ← exprOf b node
          return .deliver (.breakTo label) e :: (← statementsOf b (.breakTo label) nodes))
          fun stmts => Leaves n label (execAll host blocks stmts) (host.built node) := by
        rw [statementsOf_of_dropped hothers]
        exact (exprOf_emits node hin hnode).bind fun e he => .pure (deliver_serves (.breakTo label) he)
      cases node with
      | flow span flow subject allocator branches =>
        rw [statementsOf, statementsOf_of_dropped hothers, Host.built]
        refine (flow_emits host hin hnode.here.1 (fun m hm => ?_) (.breakTo label)).bind
          fun stmts hstmts => .pure ?_
        · exact armsOf_emits branches (hin.mono hm) fun part hpart => hnode.part hpart
        · rw [List.append_nil]
          exact hstmts
      | text span raw mode content =>
        rw [statementsOf, if_neg hdrop]
        · exact hown
        · simp
      | _ => exact hown

theorem bodyOf_emits : ∀ (body : Body) {n : Nat} {blocks : List Nat} {b : Builder},
    Inside n blocks b → (∀ node ∈ body.all, node.Everywhere Node.Lowered) → ∀ sink : Sink,
    Emits n (bodyOf b sink body)
      (Serves host n blocks sink (host.bodySingle body) (host.bodyItems body))
  | .node node, n, blocks, b, hin, hbody, sink => by
    have hnode := hbody node (List.mem_singleton.mpr rfl)
    have hown : Emits n (do return [.deliver sink (← exprOf b node)])
        (Serves host n blocks sink (host.built node) (do return [← host.built node])) :=
      (exprOf_emits node hin hnode).bind fun e he => .pure (deliver_serves sink he)
    cases node with
    | flow span flow subject allocator branches =>
      rw [bodyOf, Host.bodySingle, Host.bodyItems, Host.built]
      refine flow_emits host hin hnode.here.1 (fun m hm => ?_) sink
      exact armsOf_emits branches (hin.mono hm) fun part hpart => hnode.part hpart
    | _ => exact hown
  | .list nodes, n, blocks, b, hin, hbody, .appendTo list => statementsOf_adds nodes hin hbody list
  | .list nodes, n, blocks, b, hin, hbody, .breakTo label => by
    change Emits n _ fun stmts => Leaves n label (execAll host blocks stmts) _
    unfold bodyOf
    rw [Host.bodySingle]
    rcases hcount : (nodes.filter (!·.isDropped)).length with _ | _ | count
    · have hdropped : ∀ node ∈ nodes, node.isDropped = true := by simpa using hcount
      rw [hcount, builtAll_of_dropped hdropped]
      refine .pure (deliver_serves (.breakTo label) ?_)
      rw [Expr.eval]
      exact .called hin.opened (.pure _)
    · rw [hcount]
      exact statementsOf_leaves nodes hin hbody hcount label
    · have hden : (do return Host.bodyValue (← host.builtAll nodes)) =
          (do return .fragment (← host.builtAll nodes) : StateM σ (Built ν)) := by
        funext s
        have htwo : 2 ≤ (host.builtAll nodes s).1.length := by
          rw [length_builtAll, hcount]
          omega
        exact congrArg (·, (host.builtAll nodes s).2) (bodyValue_of_two_le htwo)
      rw [hcount, hden]
      refine (exprsOf_emits nodes hin hbody).bind fun es hes => .pure ?_
      refine deliver_serves (.breakTo label) ?_
      rw [Expr.eval]
      exact .called hin.opened (hes.bind fun _ => .pure _)

theorem armsOf_emits : ∀ (branches : List Branch) {n : Nat} {blocks : List Nat} {b : Builder},
    Inside n blocks b →
    (∀ node ∈ branches.flatMap (fun branch => branch.body.all), node.Everywhere Node.Lowered) →
    ∀ (sink : Sink) (onlyFirst : Bool), (onlyFirst = true → branches.length ≤ 1) →
    Emits n (armsOf b sink onlyFirst branches) fun arms =>
      List.Forall₂ (ArmServes host n blocks sink) arms (host.alternatives branches)
  | [], n, blocks, b, _, _, _, _, _ => .pure .nil
  | ⟨_, head, capture, body⟩ :: branches, n, blocks, b, hin, hparts, sink, onlyFirst, hfirst => by
    have hbody := bodyOf_emits body hin (fun node hnode => hparts node
      (List.mem_append_left _ hnode)) sink
    rw [armsOf, Host.alternatives]
    refine hbody.bind fun stmts hstmts => ?_
    cases onlyFirst with
    | true =>
      have hnil : branches = [] := by simpa using hfirst rfl
      subst hnil
      exact .pure (.cons ⟨rfl, rfl, hstmts⟩ .nil)
    | false =>
      have hrest := armsOf_emits branches hin (fun node hnode => hparts node
        (List.mem_append_right _ hnode)) sink false (by simp)
      exact hrest.bind fun arms harms => .pure (.cons ⟨rfl, rfl, hstmts⟩ harms)

theorem valueOf_emits : ∀ (value : AttrValue) {n : Nat} {blocks : List Nat} {b : Builder},
    Inside n blocks b → (∀ node, value = .node node → node.Everywhere Node.Lowered) →
    ∀ flag name : String, Emits n (valueOf b flag value) fun v =>
      Yields n (v.eval host blocks name) (host.setting flag name value)
  | .literal text, n, blocks, b, _, _, flag, name => by
    rw [Host.setting]
    exact .pure ((Yields.ask _).bind fun _ => .pure _)
  | .expr code, n, blocks, b, _, _, flag, name => by
    rw [Host.setting]
    exact .pure ((Yields.ask _).bind fun _ => .pure _)
  | .flag, n, blocks, b, _, _, flag, name => by
    rw [Host.setting]
    exact .pure ((Yields.ask _).bind fun _ => .pure _)
  | .node node, n, blocks, b, hin, hnode, flag, name => by
    rw [valueOf, Host.setting]
    refine (exprOf_emits node hin (hnode node rfl)).bind fun e he => .pure ?_
    rw [Value.eval]
    exact he.bind fun _ => .pure _

theorem attrsOf_emits : ∀ (attributes : List Attribute) {n : Nat} {blocks : List Nat} {b : Builder},
    Inside n blocks b →
    (∀ node ∈ attributes.filterMap Attribute.node?, node.Everywhere Node.Lowered) →
    Emits n (attrsOf b attributes) fun as =>
      Yields n (evalAttrs host blocks as) (host.settings "\"\"" attributes)
  | [], n, blocks, b, _, _ => .pure (.pure [])
  | a :: attributes, n, blocks, b, hin, hparts => by
    have hrest := attrsOf_emits attributes hin fun node hnode => hparts node (by
      rw [List.filterMap_cons]
      split <;> simp_all)
    match a, hparts with
    | .static span name value, hparts =>
      rw [attrsOf, Host.settings]
      refine (valueOf_emits value hin ?_ "\"\"" name).bind fun v hv => hrest.bind fun as has => .pure ?_
      · rintro node rfl
        exact hparts node (List.mem_filterMap.mpr ⟨_, List.mem_cons_self .., rfl⟩)
      rw [evalAttrs, Attr.eval, onBuilder_bind hin.opened]
      exact hv.bind fun _ => has.bind fun _ => .pure _
    | .shorthand span ident, _ =>
      rw [attrsOf, Host.settings]
      refine hrest.bind fun as has => .pure ?_
      rw [evalAttrs, Attr.eval, onBuilder_bind hin.opened, Value.eval, bind_assoc]
      exact (Yields.ask _).bind fun _ => has.bind fun _ => .pure _
    | .formatted span name format args, _ =>
      rw [attrsOf, Host.settings]
      refine hrest.bind fun as has => .pure ?_
      rw [evalAttrs, Attr.eval, onBuilder_bind hin.opened, bind_assoc]
      exact (Yields.ask _).bind fun _ => has.bind fun _ => .pure _
    | .spread span code, _ =>
      rw [attrsOf, Host.settings]
      refine hrest.bind fun as has => .pure ?_
      rw [evalAttrs, Attr.eval, onBuilder_bind hin.opened, bind_assoc]
      exact (Yields.ask _).bind fun _ => has.bind fun _ => .pure _
    | .builtin span name value, _ => exact hrest
    | .builtinShorthand span name, _ => exact hrest

theorem propsOf_emits : ∀ (attributes : List Attribute) {n : Nat} {blocks : List Nat} {b : Builder},
    Inside n blocks b →
    (∀ node ∈ attributes.filterMap Attribute.node?, node.Everywhere Node.Lowered) →
    Emits n (propsOf b attributes) fun items =>
      Yields n (evalItems host blocks items) (host.settings "true" attributes)
  | [], n, blocks, b, _, _ => .pure (.pure [])
  | a :: attributes, n, blocks, b, hin, hparts => by
    have hrest := propsOf_emits attributes hin fun node hnode => hparts node (by
      rw [List.filterMap_cons]
      split <;> simp_all)
    match a, hparts with
    | .static span name value, hparts =>
      rw [propsOf, Host.settings]
      refine (valueOf_emits value hin ?_ "true" name).bind fun v hv => hrest.bind fun as has => .pure ?_
      · rintro node rfl
        exact hparts node (List.mem_filterMap.mpr ⟨_, List.mem_cons_self .., rfl⟩)
      rw [evalItems, PropItem.eval, PropEntry.eval]
      exact hv.bind fun _ => has.bind fun _ => .pure _
    | .shorthand span ident, _ =>
      rw [propsOf, Host.settings]
      refine hrest.bind fun as has => .pure ?_
      rw [evalItems, PropItem.eval, PropEntry.eval, Value.eval, bind_assoc]
      exact (Yields.ask _).bind fun _ => has.bind fun _ => .pure _
    | .formatted span name format args, _ =>
      rw [propsOf, Host.settings]
      refine hrest.bind fun as has => .pure ?_
      rw [evalItems, PropItem.eval, PropEntry.eval, onBuilder_bind hin.opened, bind_assoc]
      exact (Yields.ask _).bind fun _ => has.bind fun _ => .pure _
    | .spread span code, _ =>
      rw [propsOf, Host.settings]
      refine hrest.bind fun as has => .pure ?_
      rw [evalItems, PropItem.eval, bind_assoc]
      exact (Yields.ask _).bind fun _ => has.bind fun _ => .pure _
    | .builtin span name value, _ => exact hrest
    | .builtinShorthand span name, _ => exact hrest
end

/-- The block of a template, started outside all blocks, yields the tree of the template. -/
theorem ofTemplate_emits {template : Template} (h : template.node.Everywhere Node.Lowered) :
    Emits 0 (ofTemplate template) fun e =>
      Yields 0 (e.eval host []) (host.built template.node) := by
  refine inBlock_emits (by simp) fun id hin => ?_
  exact bodyOf_emits (.node template.node) hin (by simpa [Body.all] using h) (.breakTo (.block id))

end Code

/-- A host whose expressions stand for themselves, whose conditions hold, whose switches take
the first prong and whose loops go round twice. -/
def Host.literal : Host Nat String where
  value code _ := code
  holds _ s := (true, s)
  capture _ s := s
  select _ _ s := (0, s)
  select_lt _ _ _ h := List.length_pos_iff.mpr h
  rounds _ _ s := (2, s)
  turn _ _ s := s + 1

/-- A list with a loop over its items, as it is read. -/
def loopTemplate : Template :=
  ⟨⟨0, 40⟩, .element ⟨⟨1, 39⟩, "ul", .element, [], .html, ""⟩
    [.flow ⟨6, 33⟩ .forLoop none "" [⟨⟨6, 33⟩, some "(xs) |x|", none,
      .node (.element ⟨⟨20, 32⟩, "li", .element, [], .html, ""⟩ [.expr ⟨24, 27⟩ "x" .html])⟩]], ""⟩

def loopSource : Bytes := utf8 "(<ul>\x7bfor (xs) |x| (<li>\x7bx\x7d</li>)\x7d</ul>)"

theorem templatesOf_loop : templatesOf loopSource (parse loopSource) = .ok [loopTemplate] := by
  cbv

end ZigMarkup
