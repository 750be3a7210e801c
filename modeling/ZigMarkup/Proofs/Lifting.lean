import ZigMarkup.Proofs.Calls
import ZigMarkup.Proofs.Inheritance
import ZigMarkup.Proofs.Naming

/-!
Which control flow is lifted into a block of its own. In the place of a value it always is: as
a child, as the value of an attribute, or as one of several values of a body. As the only value
of a body, or where values are collected in a list, it is delivered as statements. Emission
opens one block for each lifted node and takes all numbers in order.
-/
namespace ZigMarkup

open Code

/-- Control flow in the place of a value, with the tags around it. -/
structure Lifted where
  tags : List Tag
  node : Node

def Node.flowAllocator : Node → String
  | .flow _ _ _ allocator _ => allocator
  | _ => ""

namespace Node

mutual
/-- The lifted nodes of a node in the place of a value, in the order of their blocks. -/
def lifts (tags : List Tag) : Node → List Lifted
  | element ⟨span, name, kind, attributes, mode, allocator⟩ children =>
    attributeLifts (⟨span, name, kind, attributes, mode, allocator⟩ :: tags) attributes ++
      childLifts (⟨span, name, kind, attributes, mode, allocator⟩ :: tags) children
  | selfClosing ⟨span, name, kind, attributes, mode, allocator⟩ =>
    attributeLifts (⟨span, name, kind, attributes, mode, allocator⟩ :: tags) attributes
  | fragment _ children => childLifts tags children
  | expr _ _ _ => []
  | text _ _ _ _ => []
  | flow span kind subject allocator branches =>
    ⟨tags, flow span kind subject allocator branches⟩ :: branchLifts tags (isLoop kind) branches

def childLifts (tags : List Tag) : List Node → List Lifted
  | [] => []
  | node :: nodes => lifts tags node ++ childLifts tags nodes

def attributeLifts (tags : List Tag) : List Attribute → List Lifted
  | [] => []
  | .static _ _ (.node node) :: rest => lifts tags node ++ attributeLifts tags rest
  | _ :: rest => attributeLifts tags rest

/-- Bodies, whose values are `collected` in a list or make up one value each. -/
def branchLifts (tags : List Tag) (collected : Bool) : List Branch → List Lifted
  | [] => []
  | ⟨_, _, _, .node (.flow _ kind _ _ branches)⟩ :: rest =>
    branchLifts tags (collected || isLoop kind) branches ++ branchLifts tags collected rest
  | ⟨_, _, _, .node node⟩ :: rest => lifts tags node ++ branchLifts tags collected rest
  | ⟨_, _, _, .list nodes⟩ :: rest =>
    (if !collected && 2 ≤ (nodes.filter (!·.isDropped)).length then childLifts tags nodes
      else deliveredLifts tags collected nodes) ++ branchLifts tags collected rest

/-- Nodes that are delivered one by one. -/
def deliveredLifts (tags : List Tag) (collected : Bool) : List Node → List Lifted
  | [] => []
  | .flow _ kind _ _ branches :: nodes =>
    branchLifts tags (collected || isLoop kind) branches ++ deliveredLifts tags collected nodes
  | node :: nodes => lifts tags node ++ deliveredLifts tags collected nodes
end

/-- The lifted nodes of a node that is delivered. -/
def intoLifts (tags : List Tag) (collected : Bool) (node : Node) : List Lifted :=
  deliveredLifts tags collected [node]

theorem childLifts_eq (tags : List Tag) (nodes : List Node) :
    childLifts tags nodes = nodes.flatMap (lifts tags) := by
  induction nodes with
  | nil => rfl
  | cons node nodes ih => rw [childLifts, ih, List.flatMap_cons]

theorem attributeLifts_eq (tags : List Tag) (attributes : List Attribute) :
    attributeLifts tags attributes =
      (attributes.filterMap Attribute.node?).flatMap (lifts tags) := by
  induction attributes with
  | nil => rfl
  | cons a rest ih =>
    match a with
    | .static _ _ (.node node) =>
      rw [attributeLifts, ih]
      rfl
    | .static _ _ (.literal _) | .static _ _ (.expr _) | .static _ _ .flag => exact ih
    | .builtin _ _ _ | .shorthand _ _ | .builtinShorthand _ _ => exact ih
    | .spread _ _ | .formatted _ _ _ _ => exact ih

theorem deliveredLifts_eq (tags : List Tag) (collected : Bool) (nodes : List Node) :
    deliveredLifts tags collected nodes = nodes.flatMap (intoLifts tags collected) := by
  induction nodes with
  | nil => rfl
  | cons node nodes ih =>
    rw [List.flatMap_cons, ← ih]
    cases node <;> simp [intoLifts, deliveredLifts]

/-- The lifted nodes of one body. -/
def bodyLifts (tags : List Tag) (collected : Bool) : Body → List Lifted
  | .node node => intoLifts tags collected node
  | .list nodes =>
    if !collected && 2 ≤ (nodes.filter (!·.isDropped)).length then nodes.flatMap (lifts tags)
    else nodes.flatMap (intoLifts tags collected)

theorem branchLifts_eq (tags : List Tag) (collected : Bool) (branches : List Branch) :
    branchLifts tags collected branches =
      branches.flatMap fun branch => bodyLifts tags collected branch.body := by
  induction branches with
  | nil => rfl
  | cons branch rest ih =>
    obtain ⟨span, head, capture, body⟩ := branch
    rw [List.flatMap_cons, ← ih]
    cases body with
    | node node => cases node <;> simp [branchLifts, bodyLifts, intoLifts, deliveredLifts]
    | list nodes => rw [branchLifts, childLifts_eq, deliveredLifts_eq]; rfl

theorem intoLifts_flow (tags : List Tag) (collected : Bool) (span : Span) (kind : FlowKind)
    (subject : Option String) (allocator : String) (branches : List Branch) :
    intoLifts tags collected (.flow span kind subject allocator branches) =
      branchLifts tags (collected || isLoop kind) branches := by
  simp [intoLifts, deliveredLifts]

theorem lifts_of_isDropped {node : Node} (h : node.isDropped = true) (tags : List Tag) :
    node.lifts tags = [] := by
  cases node with
  | text => rfl
  | _ => cases h

theorem intoLifts_of_isDropped {node : Node} (h : node.isDropped = true) (tags : List Tag)
    (collected : Bool) : node.intoLifts tags collected = [] := by
  cases node with
  | text => rfl
  | _ => cases h

/-- Lifted nodes are control flow, and stand inside the tags that go with them. -/
def LiftedIn (outer : List Tag) (root : Node) (lifted : Lifted) : Prop :=
  ∃ inner span kind subject allocator branches, lifted.tags = inner ++ outer ∧
    lifted.node = .flow span kind subject allocator branches ∧ lifted.node.Under inner root

theorem LiftedIn.part {outer : List Tag} {root part : Node} {lifted : Lifted}
    (hpart : part ∈ root.parts) (h : LiftedIn (root.tag?.toList ++ outer) part lifted) :
    LiftedIn outer root lifted := by
  obtain ⟨inner, span, kind, subject, allocator, branches, htags, hnode, hunder⟩ := h
  exact ⟨inner ++ root.tag?.toList, span, kind, subject, allocator, branches,
    by rw [htags, List.append_assoc], hnode, .part hpart hunder⟩

/-- All lifted nodes of a node, whether it stands in the place of a value or is delivered. -/
theorem liftedIn_of_mem (root : Node) : ∀ (outer : List Tag),
    (∀ lifted ∈ root.lifts outer, LiftedIn outer root lifted) ∧
      ∀ collected, ∀ lifted ∈ root.intoLifts outer collected, LiftedIn outer root lifted := by
  induction root using induction_on_parts with
  | h root ih =>
    intro outer
    have hall : ∀ nodes ⊆ root.parts, ∀ lifted ∈ nodes.flatMap (lifts (root.tag?.toList ++ outer)),
        LiftedIn outer root lifted := by
      intro nodes hsub lifted hlifted
      obtain ⟨n, hn, hlifted⟩ := List.mem_flatMap.mp hlifted
      exact ((ih n (hsub hn) _).1 lifted hlifted).part (hsub hn)
    -- Only control flow is delivered otherwise than it stands in the place of a value.
    have hsame : (∀ tags collected, root.intoLifts tags collected = root.lifts tags) →
        (∀ lifted ∈ root.lifts outer, LiftedIn outer root lifted) →
        (∀ lifted ∈ root.lifts outer, LiftedIn outer root lifted) ∧
          ∀ collected, ∀ lifted ∈ root.intoLifts outer collected, LiftedIn outer root lifted :=
      fun heq h => ⟨h, fun collected lifted hl => h lifted (heq outer collected ▸ hl)⟩
    cases root with
    | element tag children =>
      obtain ⟨span, name, kind, attributes, mode, allocator⟩ := tag
      refine hsame (fun _ _ => by simp [intoLifts, deliveredLifts]) ?_
      rw [lifts, attributeLifts_eq, childLifts_eq, ← List.flatMap_append]
      exact hall _ (List.Subset.refl _)
    | selfClosing tag =>
      obtain ⟨span, name, kind, attributes, mode, allocator⟩ := tag
      refine hsame (fun _ _ => by simp [intoLifts, deliveredLifts]) ?_
      rw [lifts, attributeLifts_eq]
      exact hall _ (List.Subset.refl _)
    | fragment span children =>
      refine hsame (fun _ _ => by simp [intoLifts, deliveredLifts]) ?_
      rw [lifts, childLifts_eq]
      exact hall _ (List.Subset.refl _)
    | expr => exact hsame (fun _ _ => rfl) (by simp [lifts])
    | text => exact hsame (fun _ _ => rfl) (by simp [lifts])
    | flow span kind subject allocator branches =>
      have hbranches : ∀ collected, ∀ lifted ∈ branchLifts outer collected branches,
          LiftedIn outer (flow span kind subject allocator branches) lifted := by
        intro collected lifted hlifted
        rw [branchLifts_eq] at hlifted
        obtain ⟨branch, hbranch, hlifted⟩ := List.mem_flatMap.mp hlifted
        have hsub : branch.body.all ⊆ (flow span kind subject allocator branches).parts :=
          fun n hn => List.mem_flatMap.mpr ⟨branch, hbranch, hn⟩
        have hinto : ∀ nodes ⊆ branch.body.all, ∀ l ∈ nodes.flatMap (intoLifts outer collected),
            LiftedIn outer (flow span kind subject allocator branches) l := by
          intro nodes hnodes l hl
          obtain ⟨n, hn, hl⟩ := List.mem_flatMap.mp hl
          have hmem := hsub (hnodes hn)
          exact ((ih n hmem outer).2 collected l hl).part hmem
        cases hbody : branch.body with
        | node n =>
          rw [hbody] at hlifted
          refine hinto [n] ?_ lifted (by simpa [bodyLifts] using hlifted)
          simp [hbody, Body.all]
        | list ns =>
          rw [hbody] at hlifted hsub
          rw [bodyLifts] at hlifted
          split at hlifted
          · exact hall ns hsub lifted hlifted
          · exact hinto ns (by simp [hbody, Body.all]) lifted hlifted
      refine ⟨fun lifted hlifted => ?_, fun collected lifted hlifted => ?_⟩
      · rcases List.mem_cons.mp hlifted with rfl | hlifted
        · exact ⟨[], span, kind, subject, allocator, branches, rfl, rfl, .refl _⟩
        · exact hbranches _ lifted hlifted
      · rw [intoLifts_flow] at hlifted
        exact hbranches _ lifted hlifted

end Node

/-- The lifted nodes of a template, whose root is delivered. -/
def Template.lifted (template : Template) : List Lifted := template.node.intoLifts [] false

namespace Code

def Sink.collects : Sink → Bool
  | .breakTo _ => false
  | .appendTo _ => true

variable {α β : Type}

/-- Emission takes the next numbers for the blocks and lists of which `P` knows, and counts the
blocks among them. -/
def Takes (x : EmitM α) (P : α → List Opened → Prop) : Prop :=
  ∀ c : Counter, ∃ taken, P (x c).1 taken ∧
    taken.map Opened.id = List.range' c.next taken.length ∧
    (x c).2 = ⟨c.next + taken.length, c.blocks + (taken.filterMap Opened.allocator?).length⟩

theorem Takes.pure {a : α} {P : α → List Opened → Prop} (h : P a []) : Takes (pure a) P :=
  fun _ => ⟨[], h, rfl, rfl⟩

theorem Takes.bind {x : EmitM α} {f : α → EmitM β} {Q : α → List Opened → Prop}
    {P : β → List Opened → Prop} (hx : Takes x Q)
    (hf : ∀ a first, Q a first → Takes (f a) fun b later => P b (first ++ later)) :
    Takes (x >>= f) P := by
  intro c
  obtain ⟨first, hQ, hids, hnext⟩ := hx c
  obtain ⟨later, hP, hids', hnext'⟩ := hf _ first hQ (x c).2
  refine ⟨first ++ later, hP, ?_, ?_⟩
  · rw [hnext] at hids'
    rw [List.map_append, hids, hids', List.length_append]
    exact List.range'_append_1
  · change (f (x c).1 (x c).2).2 = _
    rw [hnext', hnext]
    simp only [List.length_append, List.filterMap_append, Nat.add_assoc]

theorem Takes.mono {x : EmitM α} {P Q : α → List Opened → Prop} (hx : Takes x P)
    (h : ∀ a taken, P a taken → Q a taken) : Takes x Q := by
  intro c
  obtain ⟨taken, hP, hcount⟩ := hx c
  exact ⟨taken, h _ taken hP, hcount⟩

theorem Takes.freshList {f : ListVar → EmitM α} {P : α → List Opened → Prop}
    (h : ∀ id, Takes (f (.fresh id)) fun a later => P a (.list id :: later)) :
    Takes (freshList >>= f) P := by
  intro c
  obtain ⟨later, hP, hids, hnext⟩ := h c.next ⟨c.next + 1, c.blocks⟩
  refine ⟨.list c.next :: later, hP, ?_, ?_⟩
  · rw [List.map_cons, hids, List.length_cons, List.range'_succ]
    rfl
  · change (f (.fresh c.next) ⟨c.next + 1, c.blocks⟩).2 = _
    rw [hnext, List.length_cons, List.filterMap_cons]
    simp only [Opened.allocator?, Counter.mk.injEq, and_true]
    omega

theorem Takes.inBlock {allocator : String} {body : Nat → EmitM (List Stmt)}
    {P : Expr → List Opened → Prop}
    (h : ∀ id, Takes (body id) fun stmts later =>
      P (.block id allocator stmts) (.block id allocator :: later)) :
    Takes (inBlock allocator body) P := by
  intro c
  obtain ⟨later, hP, hids, hnext⟩ := h c.next ⟨c.next + 1, c.blocks + 1⟩
  refine ⟨.block c.next allocator :: later, hP, ?_, ?_⟩
  · rw [List.map_cons, hids, List.length_cons, List.range'_succ]
    rfl
  · change (body c.next ⟨c.next + 1, c.blocks + 1⟩).2 = _
    rw [hnext, List.length_cons, List.filterMap_cons]
    simp only [Opened.allocator?, Counter.mk.injEq, List.length_cons]
    omega

/-- The blocks among what was opened are those of the lifted nodes. -/
def Fit (lifted : List Lifted) (taken : List Opened) : Prop :=
  taken.filterMap Opened.allocator? = lifted.map (·.node.flowAllocator)

theorem Fit.nil : Fit [] [] := rfl

theorem Fit.append {first second : List Lifted} {taken later : List Opened} (h : Fit first taken)
    (h' : Fit second later) : Fit (first ++ second) (taken ++ later) := by
  rw [Fit, List.filterMap_append, List.map_append, h, h']

theorem Fit.list {lifted : List Lifted} {taken : List Opened} (h : Fit lifted taken) (id : Nat) :
    Fit lifted (.list id :: taken) := h

theorem stmtsOpened_append (first second : List Stmt) :
    stmtsOpened (first ++ second) = stmtsOpened first ++ stmtsOpened second := by
  induction first with
  | nil => rfl
  | cons s first ih => rw [List.cons_append, stmtsOpened, stmtsOpened, ih, List.append_assoc]

/-- What follows statements sees the lists that they declare besides those before them. -/
theorem stmtsScoped_append {block : Option Nat} {first second : List Stmt} :
    ∀ {lists : List ListVar}, stmtsScoped block lists first →
      (∀ more, lists ⊆ more → stmtsScoped block more second) →
      stmtsScoped block lists (first ++ second) := by
  induction first with
  | nil => exact fun _ hrest => hrest _ (List.Subset.refl _)
  | cons s first ih =>
    intro lists hfirst hrest
    cases s with
    | declare list b =>
      exact ⟨hfirst.1, ih hfirst.2 fun more hmore => hrest more fun l hl => hmore (by simp [hl])⟩
    | _ => exact ⟨hfirst.1, ih hfirst.2 hrest⟩

theorem Sink.Scoped.mono {block : Option Nat} {sink : Sink} {lists more : List ListVar}
    (h : sink.Scoped block lists) (hsub : lists ⊆ more) : sink.Scoped block more := by
  cases sink with
  | breakTo label => exact h
  | appendTo list => exact hsub h

/-- What emission writes for a node: names that are new, taken in order, and used where they
may be used. -/
structure Names (node : Node) : Prop where
  expr : ∀ id tags, Takes (exprOf (.ofBlock id) node) fun e taken => e.opened = taken ∧
    Fit (node.lifts tags) taken ∧ ∀ lists, e.Scoped (some id) lists
  stmts : ∀ id tags sink, Takes (into (.ofBlock id) sink node) fun ss taken =>
    stmtsOpened ss = taken ∧ Fit (node.intoLifts tags sink.collects) taken ∧
      ∀ lists, sink.Scoped (some id) lists → stmtsScoped (some id) lists ss

section Lists

variable {nodes : List Node} (h : ∀ n ∈ nodes, Names n) (id : Nat) (tags : List Tag)

include h

theorem exprsOf_names : Takes (exprsOf (.ofBlock id) nodes) fun es taken =>
    exprsOpened es = taken ∧ Fit (nodes.flatMap (Node.lifts tags)) taken ∧
      ∀ lists, exprsScoped (some id) lists es := by
  induction nodes with
  | nil => exact .pure ⟨rfl, .nil, fun _ => trivial⟩
  | cons node nodes ih =>
    have hrest := ih fun n hn => h n (List.mem_cons_of_mem _ hn)
    rw [exprsOf, List.flatMap_cons]
    cases hdrop : node.isDropped with
    | true =>
      rw [Node.lifts_of_isDropped hdrop]
      exact hrest
    | false =>
      refine ((h node (List.mem_cons_self ..)).expr id tags).bind fun e first he => ?_
      obtain ⟨hopened, hfit, hscoped⟩ := he
      refine hrest.bind fun es later hes => .pure ?_
      obtain ⟨hopened', hfit', hscoped'⟩ := hes
      rw [List.append_nil]
      exact ⟨by rw [exprsOpened, hopened, hopened'], hfit.append hfit',
        fun lists => ⟨hscoped lists, hscoped' lists⟩⟩

theorem statementsOf_names (sink : Sink) : Takes (statementsOf (.ofBlock id) sink nodes)
    fun ss taken => stmtsOpened ss = taken ∧
      Fit (nodes.flatMap (Node.intoLifts tags sink.collects)) taken ∧
      ∀ lists, sink.Scoped (some id) lists → stmtsScoped (some id) lists ss := by
  induction nodes with
  | nil => exact .pure ⟨rfl, .nil, fun _ _ => trivial⟩
  | cons node nodes ih =>
    have hrest := ih fun n hn => h n (List.mem_cons_of_mem _ hn)
    rw [statementsOf_cons, List.flatMap_cons]
    cases hdrop : node.isDropped with
    | true =>
      rw [Node.intoLifts_of_isDropped hdrop]
      exact hrest
    | false =>
      refine ((h node (List.mem_cons_self ..)).stmts id tags sink).bind fun ss first hss => ?_
      obtain ⟨hopened, hfit, hscoped⟩ := hss
      refine hrest.bind fun rest later hrest => .pure ?_
      obtain ⟨hopened', hfit', hscoped'⟩ := hrest
      rw [List.append_nil]
      refine ⟨by rw [stmtsOpened_append, hopened, hopened'], hfit.append hfit', fun lists hsink => ?_⟩
      exact stmtsScoped_append (hscoped lists hsink) fun more hsub => hscoped' more (hsink.mono hsub)

theorem bodyOf_list_names (sink : Sink) : Takes (bodyOf (.ofBlock id) sink (.list nodes))
    fun ss taken => stmtsOpened ss = taken ∧
      Fit (Node.bodyLifts tags sink.collects (.list nodes)) taken ∧
      ∀ lists, sink.Scoped (some id) lists → stmtsScoped (some id) lists ss := by
  cases sink with
  | appendTo list => exact statementsOf_names h id tags (.appendTo list)
  | breakTo label =>
    unfold bodyOf Node.bodyLifts
    rcases hcount : (nodes.filter (!·.isDropped)).length with _ | _ | count
    · -- Nothing is produced, so nothing is lifted either.
      have hdrop : ∀ node ∈ nodes, node.isDropped = true := by simpa using hcount
      have hnone : nodes.flatMap (Node.intoLifts tags false) = [] :=
        List.flatMap_eq_nil_iff.mpr fun n hn => Node.intoLifts_of_isDropped (hdrop n hn) tags false
      simp only [Sink.collects, hcount]
      refine .pure ⟨rfl, ?_, fun lists hsink => ⟨⟨hsink, rfl⟩, trivial⟩⟩
      simpa [hnone] using Fit.nil
    · simp only [Sink.collects, hcount]
      exact statementsOf_names h id tags (.breakTo label)
    · simp only [Sink.collects, hcount]
      refine (exprsOf_names h id tags).bind fun es first hes => .pure ?_
      obtain ⟨hopened, hfit, hscoped⟩ := hes
      refine ⟨by simp [stmtsOpened, Stmt.opened, Expr.opened, hopened], by simpa using hfit, ?_⟩
      exact fun lists hsink => ⟨⟨hsink, rfl, hscoped lists⟩, trivial⟩

end Lists

theorem armsOf_names {id : Nat} {tags : List Tag} {sink : Sink} {onlyFirst : Bool}
    {branches : List Branch} (hlength : onlyFirst = true → branches.length ≤ 1)
    (h : ∀ n ∈ branches.flatMap (fun branch => branch.body.all), Names n) :
    Takes (armsOf (.ofBlock id) sink onlyFirst branches) fun arms taken =>
      (armsOpened arms = taken ∧ Fit (Node.branchLifts tags sink.collects branches) taken ∧
        ∀ lists, sink.Scoped (some id) lists → armsScoped (some id) lists arms) ∧
      (onlyFirst = true → arms.length ≤ 1) := by
  rw [Node.branchLifts_eq]
  induction branches with
  | nil => exact .pure ⟨⟨rfl, .nil, fun _ _ => trivial⟩, by simp⟩
  | cons branch branches ih =>
    obtain ⟨span, head, capture, body⟩ := branch
    have hbody : Takes (bodyOf (.ofBlock id) sink body) fun ss taken =>
        stmtsOpened ss = taken ∧ Fit (Node.bodyLifts tags sink.collects body) taken ∧
          ∀ lists, sink.Scoped (some id) lists → stmtsScoped (some id) lists ss := by
      cases body with
      | node n => exact (h n (List.mem_append_left _ (List.mem_singleton.mpr rfl))).stmts id tags sink
      | list ns => exact bodyOf_list_names (fun n hn => h n (List.mem_append_left _ hn)) id tags sink
    rw [armsOf, List.flatMap_cons]
    refine hbody.bind fun ss first hss => ?_
    obtain ⟨hopened, hfit, hscoped⟩ := hss
    cases onlyFirst with
    | true =>
      obtain rfl : branches = [] := by simpa using hlength rfl
      refine .pure ⟨⟨by simp [armsOpened, hopened], by simpa using hfit, ?_⟩, by simp⟩
      exact fun lists hsink => ⟨hscoped lists hsink, trivial⟩
    | false =>
      have hrest := ih (by simp) (fun n hn => h n (List.mem_append_right _ hn))
      refine hrest.bind fun arms later harms => .pure ?_
      obtain ⟨⟨hopened', hfit', hscoped'⟩, _⟩ := harms
      rw [List.append_nil]
      refine ⟨⟨by rw [armsOpened, hopened, hopened'], hfit.append hfit', ?_⟩, by simp⟩
      exact fun lists hsink => ⟨hscoped lists hsink, hscoped' lists hsink⟩

theorem loopOver_opened {flow : FlowKind} {arms : List Arm} (h : arms.length ≤ 1) :
    (loopOver flow arms).opened = armsOpened arms := by
  match arms, h with
  | [], _ => rfl
  | [⟨_, _, body⟩], _ => simp [loopOver, Stmt.opened, armsOpened]

theorem loopOver_scoped {flow : FlowKind} {arms : List Arm} {block : Option Nat}
    {lists : List ListVar} (h : armsScoped block lists arms) {rest : List Stmt}
    (hrest : stmtsScoped block lists rest) :
    stmtsScoped block lists (loopOver flow arms :: rest) := by
  cases arms with
  | nil => exact ⟨trivial, hrest⟩
  | cons arm arms =>
    obtain ⟨head, capture, body⟩ := arm
    exact ⟨h.1, hrest⟩

/-- Statements for control flow use the names of their arms, and for a loop in the place of a
value one list more. -/
theorem flowStatements_names {id : Nat} {tags : List Tag} {flow : FlowKind}
    {subject : Option String} {branches : List Branch} {arms : Sink → EmitM (List Arm)}
    (h : ∀ sink, Takes (arms sink) fun as taken =>
      (armsOpened as = taken ∧ Fit (Node.branchLifts tags sink.collects branches) taken ∧
        ∀ lists, sink.Scoped (some id) lists → armsScoped (some id) lists as) ∧
      (isLoop flow = true → as.length ≤ 1)) (sink : Sink) :
    Takes (flowStatements (.ofBlock id) sink flow subject arms) fun ss taken =>
      stmtsOpened ss = taken ∧
      Fit (Node.branchLifts tags (sink.collects || isLoop flow) branches) taken ∧
      ∀ lists, sink.Scoped (some id) lists → stmtsScoped (some id) lists ss := by
  cases flow with
  | ifElse =>
    cases sink with
    | breakTo label =>
      refine (h (.breakTo label)).bind fun as first has => .pure ?_
      obtain ⟨⟨hopened, hfit, hscoped⟩, _⟩ := has
      refine ⟨?_, by simpa [isLoop] using hfit, fun lists hsink => ⟨hscoped lists hsink, ?_⟩⟩
      · rw [stmtsOpened, Stmt.opened, hopened]
        split <;> simp [stmtsOpened, Stmt.opened, Expr.opened]
      · split
        · trivial
        · exact ⟨⟨hsink, rfl⟩, trivial⟩
    | appendTo list =>
      refine (h (.appendTo list)).bind fun as first has => .pure ?_
      obtain ⟨⟨hopened, hfit, hscoped⟩, _⟩ := has
      refine ⟨by simp [stmtsOpened, Stmt.opened, hopened], by simpa [isLoop] using hfit, ?_⟩
      exact fun lists hsink => ⟨hscoped lists hsink, trivial⟩
  | switch =>
    refine (h sink).bind fun as first has => .pure ?_
    obtain ⟨⟨hopened, hfit, hscoped⟩, _⟩ := has
    refine ⟨by simp [stmtsOpened, Stmt.opened, hopened], by simpa [isLoop] using hfit, ?_⟩
    exact fun lists hsink => ⟨hscoped lists hsink, trivial⟩
  | forLoop | whileLoop =>
    cases sink with
    | breakTo label =>
      refine .freshList fun list => (h (.appendTo (.fresh list))).bind fun as first has => .pure ?_
      obtain ⟨⟨hopened, hfit, hscoped⟩, hlength⟩ := has
      refine ⟨?_, ?_, fun lists hsink => ⟨rfl, ?_⟩⟩
      · simp [stmtsOpened, Stmt.opened, Expr.opened, ListVar.opened, loopOver_opened (hlength rfl),
          hopened]
      · rw [List.append_nil]
        exact hfit.list list
      · refine loopOver_scoped (hscoped _ (List.mem_cons_self ..)) ⟨⟨hsink.mono ?_, rfl, ?_⟩, trivial⟩
        · exact List.subset_cons_self ..
        · exact List.mem_cons_self ..
    | appendTo list =>
      refine (h (.appendTo list)).bind fun as first has => .pure ?_
      obtain ⟨⟨hopened, hfit, hscoped⟩, hlength⟩ := has
      refine ⟨by simp [stmtsOpened, loopOver_opened (hlength rfl), hopened], ?_, ?_⟩
      · rw [List.append_nil]
        exact hfit
      exact fun lists hsink => loopOver_scoped (hscoped lists hsink) trivial

/-! ## Attributes and props -/

theorem valueOf_names {id : Nat} (tags : List Tag) {value : AttrValue} {flag : String} {span : Span}
    {name : String} (h : ∀ n ∈ (Attribute.static span name value).node?, Names n) :
    Takes (valueOf (.ofBlock id) flag value) fun v taken => v.opened = taken ∧
      Fit ((Attribute.static span name value).node?.toList.flatMap (Node.lifts tags)) taken ∧
      ∀ lists, v.Scoped (some id) lists := by
  cases value with
  | node n =>
    rw [valueOf]
    refine ((h n rfl).expr id tags).bind fun e first he => .pure ?_
    rw [List.append_nil]
    exact ⟨he.1, by simpa [Attribute.node?] using he.2.1, he.2.2⟩
  | _ => exact .pure ⟨rfl, .nil, fun _ => trivial⟩

theorem attrsOf_names (id : Nat) (tags : List Tag) {attributes : List Attribute}
    (h : ∀ n ∈ attributes.filterMap Attribute.node?, Names n) :
    Takes (attrsOf (.ofBlock id) attributes) fun as taken => attrsOpened as = taken ∧
      Fit ((attributes.filterMap Attribute.node?).flatMap (Node.lifts tags)) taken ∧
      ∀ lists, attrsScoped (some id) lists as := by
  induction attributes with
  | nil => exact .pure ⟨rfl, .nil, fun _ => trivial⟩
  | cons a rest ih =>
    rw [filterMap_node?_cons] at h ⊢
    have hrest := ih fun n hn => h n (List.mem_append_right _ hn)
    rw [List.flatMap_append]
    cases a with
    | static span name value =>
      rw [attrsOf]
      refine (valueOf_names tags fun n hn => h n (List.mem_append_left _ (by simpa using hn))).bind
        fun v first hv => hrest.bind fun as later has => .pure ?_
      rw [List.append_nil]
      exact ⟨by rw [attrsOpened, Attr.opened, hv.1, has.1], hv.2.1.append has.2.1,
        fun lists => ⟨⟨rfl, hv.2.2 lists⟩, has.2.2 lists⟩⟩
    | builtin => exact hrest
    | builtinShorthand => exact hrest
    | shorthand | formatted | spread =>
      rw [attrsOf]
      refine hrest.bind fun as later has => .pure ?_
      rw [List.append_nil]
      exact ⟨has.1, has.2.1, fun lists => ⟨by first | exact rfl | exact ⟨rfl, trivial⟩, has.2.2 lists⟩⟩

def PropItem.opened : PropItem → List Opened
  | .entry prop => prop.opened
  | .spread _ => []

def PropItem.Scoped (block : Option Nat) (lists : List ListVar) : PropItem → Prop
  | .entry prop => prop.Scoped block lists
  | .spread _ => True

theorem groupsOpened_groupProps (items : List PropItem) :
    groupsOpened (groupProps items) = items.flatMap PropItem.opened := by
  induction items with
  | nil => rfl
  | cons item items ih =>
    rw [List.flatMap_cons, ← ih]
    cases item with
    | spread code => rw [groupProps, groupsOpened]; rfl
    | entry prop =>
      rw [groupProps]
      split
      · next props groups heq =>
        rw [heq, groupsOpened, groupsOpened, PropGroup.opened, PropGroup.opened, entriesOpened,
          List.append_assoc]
        rfl
      · rw [groupsOpened, PropGroup.opened, entriesOpened, entriesOpened, List.append_nil]
        rfl

theorem groupsScoped_groupProps {block : Option Nat} {lists : List ListVar} {items : List PropItem}
    (h : ∀ item ∈ items, item.Scoped block lists) : groupsScoped block lists (groupProps items) := by
  induction items with
  | nil => trivial
  | cons item items ih =>
    have hrest := ih fun other hother => h other (List.mem_cons_of_mem _ hother)
    have hitem := h item (List.mem_cons_self ..)
    cases item with
    | spread code => exact ⟨trivial, hrest⟩
    | entry prop =>
      rw [groupProps]
      split
      · next props groups heq =>
        rw [heq] at hrest
        exact ⟨⟨hitem, hrest.1⟩, hrest.2⟩
      · exact ⟨⟨hitem, trivial⟩, hrest⟩

theorem propsOf_names (id : Nat) (tags : List Tag) {attributes : List Attribute}
    (h : ∀ n ∈ attributes.filterMap Attribute.node?, Names n) :
    Takes (propsOf (.ofBlock id) attributes) fun items taken =>
      items.flatMap PropItem.opened = taken ∧
      Fit ((attributes.filterMap Attribute.node?).flatMap (Node.lifts tags)) taken ∧
      ∀ lists, ∀ item ∈ items, item.Scoped (some id) lists := by
  induction attributes with
  | nil => exact .pure ⟨rfl, .nil, by simp⟩
  | cons a rest ih =>
    rw [filterMap_node?_cons] at h ⊢
    have hrest := ih fun n hn => h n (List.mem_append_right _ hn)
    rw [List.flatMap_append]
    cases a with
    | static span name value =>
      rw [propsOf]
      refine (valueOf_names tags fun n hn => h n (List.mem_append_left _ (by simpa using hn))).bind
        fun v first hv => hrest.bind fun items later hitems => .pure ?_
      rw [List.append_nil]
      refine ⟨by rw [List.flatMap_cons, hitems.1, ← hv.1]; rfl, hv.2.1.append hitems.2.1, ?_⟩
      intro lists item hitem
      rcases List.mem_cons.mp hitem with rfl | hitem
      · exact hv.2.2 lists
      · exact hitems.2.2 lists item hitem
    | builtin => exact hrest
    | builtinShorthand => exact hrest
    | shorthand | formatted | spread =>
      rw [propsOf]
      refine hrest.bind fun items later hitems => .pure ?_
      rw [List.append_nil]
      refine ⟨hitems.1, hitems.2.1, fun lists item hitem => ?_⟩
      rcases List.mem_cons.mp hitem with rfl | hitem
      · first | exact rfl | exact trivial
      · exact hitems.2.2 lists item hitem

/-- What is not control flow is delivered as one expression. -/
theorem names_of_expr {node : Node}
    (hinto : ∀ b sink, into b sink node = (do return [.deliver sink (← exprOf b node)]))
    (hlifts : ∀ tags collected, node.intoLifts tags collected = node.lifts tags)
    (h : ∀ id tags, Takes (exprOf (.ofBlock id) node) fun e taken => e.opened = taken ∧
      Fit (node.lifts tags) taken ∧ ∀ lists, e.Scoped (some id) lists) : Names node := by
  refine ⟨h, fun id tags sink => ?_⟩
  rw [hinto, hlifts]
  refine (h id tags).bind fun e first he => .pure ?_
  obtain ⟨hopened, hfit, hscoped⟩ := he
  refine ⟨by simp [stmtsOpened, Stmt.opened, hopened], by simpa using hfit, ?_⟩
  exact fun lists hsink => ⟨⟨hsink, hscoped lists⟩, trivial⟩

/-- Emission keeps to the rules for names at every node of an accepted template. -/
theorem names (node : Node) : node.Everywhere Node.Lowered → Names node := by
  induction node using Node.induction_on_parts with
  | h node ih =>
    intro hnode
    have hparts : ∀ n ∈ node.parts, Names n := fun n hn => ih n hn (hnode.part hn)
    cases node with
    | element tag children =>
      have hvalues : ∀ n ∈ tag.attributes.filterMap Attribute.node?, Names n :=
        fun n hn => hparts n (List.mem_append_left _ hn)
      have hchildren : ∀ n ∈ children, Names n := fun n hn => hparts n (List.mem_append_right _ hn)
      obtain ⟨span, name, kind, attributes, mode, allocator⟩ := tag
      refine names_of_expr (fun _ _ => rfl) (fun _ _ => by simp [Node.intoLifts, Node.deliveredLifts])
        fun id tags => ?_
      rw [Node.lifts, Node.attributeLifts_eq, Node.childLifts_eq]
      generalize Tag.mk span name kind attributes mode allocator :: tags = inner
      cases kind with
      | component =>
        rw [exprOf]
        refine (propsOf_names id inner hvalues).bind fun items first hitems => ?_
        refine (exprsOf_names hchildren id inner).bind fun es later hes => .pure ?_
        obtain ⟨hopened, hfit, hscoped⟩ := hitems
        obtain ⟨hopened', hfit', hscoped'⟩ := hes
        rw [List.append_nil]
        refine ⟨?_, hfit.append hfit', fun lists => ⟨rfl, groupsScoped_groupProps ?_⟩⟩
        · rw [Expr.opened, groupsOpened_groupProps, ← hopened, ← hopened']
          cases es with
          | nil => simp [exprsOpened]
          | cons e es => simp [PropItem.opened, PropEntry.opened]
        · intro item hitem
          split at hitem
          · exact hscoped lists item hitem
          · rcases List.mem_append.mp hitem with hitem | hitem
            · exact hscoped lists item hitem
            · rw [List.mem_singleton.mp hitem]
              exact hscoped' lists
      | element =>
        rw [exprOf]
        refine (attrsOf_names id inner hvalues).bind fun as first has => ?_
        refine (exprsOf_names hchildren id inner).bind fun es later hes => .pure ?_
        rw [List.append_nil]
        exact ⟨by rw [Expr.opened, has.1, hes.1], has.2.1.append hes.2.1,
          fun lists => ⟨rfl, has.2.2 lists, hes.2.2 lists⟩⟩
    | selfClosing tag =>
      obtain ⟨span, name, kind, attributes, mode, allocator⟩ := tag
      refine names_of_expr (fun _ _ => rfl) (fun _ _ => by simp [Node.intoLifts, Node.deliveredLifts])
        fun id tags => ?_
      rw [Node.lifts, Node.attributeLifts_eq]
      generalize Tag.mk span name kind attributes mode allocator :: tags = inner
      cases kind with
      | component =>
        rw [exprOf]
        refine (propsOf_names id inner hparts).bind fun items first hitems => .pure ?_
        obtain ⟨hopened, hfit, hscoped⟩ := hitems
        rw [List.append_nil]
        exact ⟨by rw [Expr.opened, groupsOpened_groupProps, hopened], hfit,
          fun lists => ⟨rfl, groupsScoped_groupProps (hscoped lists)⟩⟩
      | element =>
        rw [exprOf]
        refine (attrsOf_names id inner hparts).bind fun as first has => .pure ?_
        rw [List.append_nil]
        exact ⟨by rw [Expr.opened, has.1], has.2.1, fun lists => ⟨rfl, has.2.2 lists⟩⟩
    | fragment span children =>
      refine names_of_expr (fun _ _ => rfl) (fun _ _ => by simp [Node.intoLifts, Node.deliveredLifts])
        fun id tags => ?_
      rw [exprOf, Node.lifts, Node.childLifts_eq]
      refine (exprsOf_names hparts id tags).bind fun es first hes => .pure ?_
      rw [List.append_nil]
      exact ⟨by rw [Expr.opened, hes.1], hes.2.1, fun lists => ⟨rfl, hes.2.2 lists⟩⟩
    | expr span code mode =>
      exact names_of_expr (fun _ _ => rfl) (fun _ _ => rfl) fun _ _ =>
        .pure ⟨rfl, .nil, fun _ => rfl⟩
    | text span raw mode content =>
      exact names_of_expr (fun _ _ => rfl) (fun _ _ => rfl) fun _ _ =>
        .pure ⟨rfl, .nil, fun _ => rfl⟩
    | flow span kind subject allocator branches =>
      have hstmts : ∀ id tags sink, Takes (flowStatements (.ofBlock id) sink kind subject fun sink =>
          armsOf (.ofBlock id) sink (isLoop kind) branches) fun ss taken =>
            stmtsOpened ss = taken ∧
            Fit (Node.branchLifts tags (sink.collects || isLoop kind) branches) taken ∧
            ∀ lists, sink.Scoped (some id) lists → stmtsScoped (some id) lists ss := by
        intro id tags sink
        refine flowStatements_names (fun sink => armsOf_names (fun hloop => ?_) hparts) sink
        simpa using hnode.here.1.length_le_one (isLoop_iff.mp hloop)
      refine ⟨fun id tags => ?_, fun id tags sink => ?_⟩
      · rw [exprOf, Node.lifts]
        refine .inBlock fun inner => (hstmts inner tags (.breakTo (.block inner))).mono ?_
        rintro ss later ⟨hopened, hfit, hscoped⟩
        exact ⟨by rw [Expr.opened, hopened], congrArg (allocator :: ·) hfit,
          fun _ => hscoped [] ⟨inner, rfl, rfl⟩⟩
      · rw [Node.intoLifts_flow]
        exact hstmts id tags sink

/-- A template is one block, with the lifted nodes of its root inside. -/
theorem ofTemplate_names {template : Template} (h : template.node.Everywhere Node.Lowered) :
    Takes (ofTemplate template) fun e taken => e.opened = taken ∧
      taken.filterMap Opened.allocator? =
        template.allocator :: template.lifted.map (·.node.flowAllocator) ∧ e.Scoped none [] := by
  refine .inBlock fun id => ((names template.node h).stmts id [] (.breakTo (.block id))).mono ?_
  rintro ss later ⟨hopened, hfit, hscoped⟩
  exact ⟨by rw [Expr.opened, hopened], congrArg (template.allocator :: ·) hfit,
    hscoped [] ⟨id, rfl, rfl⟩⟩

theorem lowered_of_mem_resolved {source : Bytes} {templates : List Template}
    (h : templatesOf source (parse source) = .ok templates) (allocator : String) :
    ∀ resolved ∈ templates.map (Template.resolve allocator),
      resolved.node.Everywhere Node.Lowered := by
  intro resolved hresolved
  obtain ⟨template, ht, rfl⟩ := List.mem_map.mp hresolved
  exact resolve_lowered_of_templatesOf h ht allocator

/-- Templates that are emitted with one counter. -/
theorem ofTemplates_names {templates : List Template}
    (h : ∀ template ∈ templates, template.node.Everywhere Node.Lowered) :
    Takes (templates.mapM ofTemplate) fun codes taken => codes.flatMap Expr.opened = taken ∧
      codes.map (fun code => code.opened.filterMap Opened.allocator?) =
        templates.map (fun template =>
          template.allocator :: template.lifted.map (·.node.flowAllocator)) ∧
      ∀ code ∈ codes, code.Scoped none [] := by
  induction templates with
  | nil => exact .pure ⟨rfl, rfl, by simp⟩
  | cons template templates ih =>
    rw [List.mapM_cons]
    refine (ofTemplate_names (h template (List.mem_cons_self ..))).bind fun code first hcode => ?_
    refine (ih fun t ht => h t (List.mem_cons_of_mem _ ht)).bind fun codes later hcodes => .pure ?_
    obtain ⟨hopened, hblocks, hscoped⟩ := hcode
    obtain ⟨hopened', hblocks', hscoped'⟩ := hcodes
    rw [List.append_nil]
    refine ⟨by rw [List.flatMap_cons, hopened, hopened'], ?_, ?_⟩
    · rw [List.map_cons, List.map_cons, hblocks', hopened, hblocks]
    · intro other hother
      rcases List.mem_cons.mp hother with rfl | hother
      · exact hscoped
      · exact hscoped' other hother

end Code

end ZigMarkup
