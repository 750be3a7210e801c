import ZigMarkup.Proofs.Written

/-!
Expressions inside generated code. Each stands in the printed code as it would stand alone, and
each component call in it is made from a tag of the template.
-/
namespace ZigMarkup.Code

/-! ## Parts -/

def Value.parts : Value → List Expr
  | .code _ => []
  | .expr e => [e]

def Attr.parts : Attr → List Expr
  | .pair _ _ value => value.parts
  | .format _ _ _ _ => []
  | .spread _ _ => []

def PropEntry.parts : PropEntry → List Expr
  | .field _ value => value.parts
  | .format _ _ _ _ => []
  | .children nodes => nodes

def PropGroup.parts : PropGroup → List Expr
  | .record props => props.flatMap PropEntry.parts
  | .spread _ => []

mutual
def Stmt.parts : Stmt → List Expr
  | .deliver _ value => [value]
  | .declare _ _ => []
  | .ifChain arms => armsParts arms
  | .loop _ _ body => stmtsParts body
  | .switch _ arms => armsParts arms
  | .blank => []

def stmtsParts : List Stmt → List Expr
  | [] => []
  | s :: ss => s.parts ++ stmtsParts ss

def armsParts : List Arm → List Expr
  | [] => []
  | ⟨_, _, body⟩ :: arms => stmtsParts body ++ armsParts arms
end

/-- The expressions directly inside an expression: among attributes, props and children, and in
the statements of a block. -/
def Expr.parts : Expr → List Expr
  | .element _ attributes children => attributes.flatMap Attr.parts ++ children
  | .selfClosing _ attributes => attributes.flatMap Attr.parts
  | .component _ _ _ props => props.flatMap PropGroup.parts
  | .fragment _ children => children
  | .collected _ _ => []
  | .empty _ => []
  | .value _ _ _ => []
  | .text _ _ _ => []
  | .block _ _ body => stmtsParts body

inductive Expr.Within : Expr → Expr → Prop
  | refl (e : Expr) : Within e e
  | part {e part root : Expr} : part ∈ root.parts → Within e part → Within e root

/-! ## Printed parts -/

variable {runtime : String}

theorem exprsPieces_eq_map (es : List Expr) :
    exprsPieces runtime es = es.map (Expr.pieces runtime) := by
  induction es with
  | nil => rfl
  | cons e es ih => rw [exprsPieces, ih, List.map_cons]

theorem attrsPieces_eq_map (as : List Attr) :
    attrsPieces runtime as = as.map (Attr.pieces runtime) := by
  induction as with
  | nil => rfl
  | cons a as ih => rw [attrsPieces, ih, List.map_cons]

theorem entriesPieces_eq_map (ps : List PropEntry) :
    entriesPieces runtime ps = ps.map (PropEntry.pieces runtime) := by
  induction ps with
  | nil => rfl
  | cons p ps ih => rw [entriesPieces, ih, List.map_cons]

theorem groupsPieces_eq_map (gs : List PropGroup) :
    groupsPieces runtime gs = gs.map (PropGroup.pieces runtime) := by
  induction gs with
  | nil => rfl
  | cons g gs ih => rw [groupsPieces, ih, List.map_cons]

theorem infix_exprsPieces {e : Expr} {es : List Expr} (h : e ∈ es) :
    e.pieces runtime <:+: listPieces (exprsPieces runtime es) := by
  rw [exprsPieces_eq_map]
  exact infix_listPieces (List.mem_map_of_mem h)

theorem Value.infix_of_mem_parts {v : Value} {e : Expr} (h : e ∈ v.parts) :
    e.pieces runtime <:+: v.pieces runtime := by
  cases v with
  | code text => cases h
  | expr inner =>
    obtain rfl := List.mem_singleton.mp h
    simp [Value.pieces]

theorem infix_attrsPieces (head : Head) {as : List Attr} {e : Expr} (h : e ∈ as.flatMap Attr.parts) :
    e.pieces runtime <:+: attributesPieces head (attrsPieces runtime as) := by
  obtain ⟨a, ha, he⟩ := List.mem_flatMap.mp h
  have hattr : e.pieces runtime <:+: a.pieces runtime := by
    cases a with
    | pair b name value =>
      rw [Attr.pieces]
      exact (Value.infix_of_mem_parts he).trans (List.infix_append _ _ _)
    | format => cases he
    | spread => cases he
  rw [attrsPieces_eq_map]
  exact hattr.trans (infix_attributesPieces head (List.mem_map_of_mem ha))

theorem PropEntry.infix_of_mem_parts {p : PropEntry} {e : Expr} (h : e ∈ p.parts) :
    e.pieces runtime <:+: p.pieces runtime := by
  cases p with
  | field name value =>
    rw [PropEntry.pieces]
    exact (Value.infix_of_mem_parts h).trans (List.infix_append _ _ _)
  | format => cases h
  | children nodes =>
    rw [PropEntry.pieces]
    exact (infix_exprsPieces h).trans (List.infix_append _ _ _)

theorem PropGroup.infix_of_mem_parts {g : PropGroup} {e : Expr} (h : e ∈ g.parts) :
    e.pieces runtime <:+: g.pieces runtime := by
  cases g with
  | record props =>
    obtain ⟨p, hp, he⟩ := List.mem_flatMap.mp h
    have hflat := List.infix_of_mem_flatten (List.mem_map_of_mem (f := PropEntry.pieces runtime) hp)
    rw [PropGroup.pieces, entriesPieces_eq_map]
    exact ((PropEntry.infix_of_mem_parts he).trans hflat).trans
      ((infix_indented _).trans (List.infix_append _ _ _))
  | spread => cases h

mutual
theorem Stmt.infix_of_mem_parts : ∀ (s : Stmt) {e : Expr}, e ∈ s.parts →
    e.pieces runtime <:+: s.pieces runtime
  | .deliver sink value, e, h => by
    rw [List.mem_singleton.mp h, Stmt.pieces]
    cases sink <;> exact List.infix_append _ _ _
  | .declare _ _, _, h => by cases h
  | .ifChain arms, e, h => by
    rw [Stmt.pieces]
    exact (infix_armsPieces true arms h).trans (List.prefix_append _ _).isInfix
  | .loop keyword head body, e, h => by
    obtain ⟨pieces, hmem, hfound⟩ := exists_stmtsPieces body h
    rw [Stmt.pieces]
    exact hfound.trans ((infix_bodyPieces hmem).trans (List.infix_append _ _ _))
  | .switch subject arms, e, h => by
    rw [Stmt.pieces]
    exact (infix_prongsPieces arms h).trans ((infix_indented _).trans (List.infix_append _ _ _))
  | .blank, _, h => by cases h

theorem exists_stmtsPieces : ∀ (ss : List Stmt) {e : Expr}, e ∈ stmtsParts ss →
    ∃ pieces ∈ stmtsPieces runtime ss, e.pieces runtime <:+: pieces
  | [], _, h => by cases h
  | s :: ss, e, h => by
    rcases List.mem_append.mp h with h | h
    · exact ⟨_, List.mem_cons_self .., Stmt.infix_of_mem_parts s h⟩
    · obtain ⟨pieces, hmem, hfound⟩ := exists_stmtsPieces ss h
      exact ⟨pieces, List.mem_cons_of_mem _ hmem, hfound⟩

theorem infix_armsPieces : ∀ (first : Bool) (arms : List Arm) {e : Expr}, e ∈ armsParts arms →
    e.pieces runtime <:+: armsPieces runtime first arms
  | _, [], _, h => by cases h
  | first, ⟨head, capture, body⟩ :: arms, e, h => by
    rw [armsPieces]
    rcases List.mem_append.mp h with h | h
    · obtain ⟨pieces, hmem, hfound⟩ := exists_stmtsPieces body h
      exact hfound.trans ((infix_bodyPieces hmem).trans (List.infix_append _ _ _))
    · exact (infix_armsPieces false arms h).trans (List.suffix_append _ _).isInfix

theorem infix_prongsPieces : ∀ (arms : List Arm) {e : Expr}, e ∈ armsParts arms →
    e.pieces runtime <:+: prongsPieces runtime arms
  | [], _, h => by cases h
  | ⟨head, capture, body⟩ :: arms, e, h => by
    rw [prongsPieces]
    rcases List.mem_append.mp h with h | h
    · obtain ⟨pieces, hmem, hfound⟩ := exists_stmtsPieces body h
      refine hfound.trans ((infix_bodyPieces hmem).trans ?_)
      simp only [List.append_assoc]
      exact infix_middle _ _ _
    · exact (infix_prongsPieces arms h).trans (List.suffix_append _ _).isInfix
end

theorem Expr.infix_of_mem_parts {root e : Expr} (h : e ∈ root.parts) :
    e.pieces runtime <:+: root.pieces runtime := by
  cases root with
  | element head attributes children =>
    rw [Expr.pieces]
    rcases List.mem_append.mp h with h | h
    · refine (infix_attrsPieces head h).trans ?_
      simp only [List.append_assoc]
      exact infix_middle _ _ _
    · refine (infix_exprsPieces h).trans ?_
      rw [List.append_assoc]
      exact List.infix_append _ _ _
  | selfClosing head attributes =>
    rw [Expr.pieces]
    exact (infix_attrsPieces head h).trans (List.infix_append _ _ _)
  | component b name options props =>
    obtain ⟨g, hg, he⟩ := List.mem_flatMap.mp h
    rw [Expr.pieces, groupsPieces_eq_map]
    exact (PropGroup.infix_of_mem_parts he).trans
      ((infix_mergedPieces (List.mem_map_of_mem hg)).trans (List.infix_append _ _ _))
  | fragment b children =>
    rw [Expr.pieces]
    exact (infix_exprsPieces h).trans (List.infix_append _ _ _)
  | block id allocator body =>
    obtain ⟨pieces, hmem, hfound⟩ := exists_stmtsPieces body h
    rw [Expr.pieces]
    have hinner := List.suffix_append (line ("var " ++ (Builder.mk (some id)).text ++ " = " ++
      runtime ++ ".Builder.init(" ++ allocator ++ ");")) (stmtsPieces runtime body).flatten
    exact (hfound.trans (List.infix_of_mem_flatten hmem)).trans
      ((hinner.isInfix.trans (infix_indented _)).trans (List.infix_append _ _ _))
  | collected | empty | value | text => cases h

/-- What is inside code is printed there. -/
theorem Expr.Within.printed {e root : Expr} (h : e.Within root) :
    e.pieces runtime <:+: root.pieces runtime := by
  induction h with
  | refl => exact List.infix_refl _
  | part hpart _ ih => exact ih.trans (infix_of_mem_parts hpart)

/-! ## Component calls -/

def Expr.isCall : Expr → Bool
  | .component _ _ _ _ => true
  | _ => false

/-- All component calls in an expression have a property. -/
def Expr.CallsHave (R : Expr → Prop) (root : Expr) : Prop :=
  ∀ e, e.Within root → e.isCall = true → R e

variable {R : Expr → Prop} {b : Builder}

theorem Expr.callsHave_iff {root : Expr} : root.CallsHave R ↔
    (root.isCall = true → R root) ∧ ∀ part ∈ root.parts, part.CallsHave R := by
  constructor
  · exact fun h => ⟨h root (.refl root), fun part hpart e he => h e (.part hpart he)⟩
  · rintro ⟨hroot, hparts⟩ e he
    cases he with
    | refl => exact hroot
    | part hpart hwithin => exact hparts _ hpart e hwithin

theorem stmtsParts_append (first second : List Stmt) :
    stmtsParts (first ++ second) = stmtsParts first ++ stmtsParts second := by
  induction first with
  | nil => rfl
  | cons s first ih => rw [List.cons_append, stmtsParts, stmtsParts, ih, List.append_assoc]

/-- What emission is to make of a node: code whose component calls have a property, as an
expression and as statements. -/
structure MakesParts (R : Expr → Prop) (node : Node) : Prop where
  expr : ∀ b, Makes (exprOf b node) (Expr.CallsHave R)
  stmts : ∀ b sink, Makes (into b sink node) fun stmts => ∀ e ∈ stmtsParts stmts, e.CallsHave R

theorem Expr.callsHave_of_leaf {e : Expr} (hcall : e.isCall = false) (hparts : e.parts = []) :
    e.CallsHave R := by
  rw [callsHave_iff, hcall, hparts]
  simp

theorem loopOver_parts {flow : FlowKind} {arms : List Arm} {e : Expr}
    (h : e ∈ (loopOver flow arms).parts) : e ∈ armsParts arms := by
  cases arms with
  | nil => cases h
  | cons arm arms =>
    obtain ⟨head, capture, body⟩ := arm
    exact List.mem_append_left _ h

theorem flowStatements_parts {flow : FlowKind} {subject : Option String}
    {arms : Sink → EmitM (List Arm)}
    (h : ∀ sink, Makes (arms sink) fun as => ∀ e ∈ armsParts as, e.CallsHave R) (sink : Sink) :
    Makes (flowStatements b sink flow subject arms) fun stmts =>
      ∀ e ∈ stmtsParts stmts, e.CallsHave R := by
  have hempty : (Expr.empty b).CallsHave R := Expr.callsHave_of_leaf rfl rfl
  have hloop {as : List Arm} (has : ∀ e ∈ armsParts as, e.CallsHave R) :
      ∀ e ∈ (loopOver flow as).parts, e.CallsHave R := fun e he => has e (loopOver_parts he)
  cases flow with
  | ifElse =>
    cases sink with
    | breakTo label =>
      refine (h (.breakTo label)).bind fun as has => .pure ?_
      rw [stmtsParts, List.forall_mem_append]
      refine ⟨has, ?_⟩
      split
      · simp [stmtsParts]
      · simpa [stmtsParts, Stmt.parts] using hempty
    | appendTo list =>
      refine (h (.appendTo list)).bind fun as has => .pure ?_
      simpa [stmtsParts, Stmt.parts] using has
  | switch =>
    refine (h sink).bind fun as has => .pure ?_
    simpa [stmtsParts, Stmt.parts] using has
  | forLoop | whileLoop =>
    cases sink with
    | breakTo label =>
      refine .freshList fun id => (h (.appendTo (.fresh id))).bind fun as has => .pure ?_
      have hcollected : (Expr.collected b (.fresh id)).CallsHave R :=
        Expr.callsHave_of_leaf rfl rfl
      simp only [stmtsParts, Stmt.parts, List.nil_append, List.append_nil, List.forall_mem_append]
      exact ⟨hloop has, List.forall_mem_singleton.mpr hcollected⟩
    | appendTo list =>
      refine (h (.appendTo list)).bind fun as has => .pure ?_
      simpa [stmtsParts] using hloop has

section Lists

variable {nodes : List Node} (h : ∀ n ∈ nodes, MakesParts R n)

include h

theorem exprsOf_parts : Makes (exprsOf b nodes) fun es => ∀ e ∈ es, e.CallsHave R := by
  induction nodes with
  | nil => exact .pure (by simp)
  | cons node nodes ih =>
    have hrest := ih fun n hn => h n (List.mem_cons_of_mem _ hn)
    rw [exprsOf]
    split
    · exact hrest
    · refine ((h node (List.mem_cons_self ..)).expr b).bind fun e he => ?_
      exact hrest.bind fun es hes => .pure (List.forall_mem_cons.mpr ⟨he, hes⟩)

theorem statementsOf_parts (sink : Sink) :
    Makes (statementsOf b sink nodes) fun stmts => ∀ e ∈ stmtsParts stmts, e.CallsHave R := by
  induction nodes with
  | nil => exact .pure (by simp [stmtsParts])
  | cons node nodes ih =>
    have hrest := ih fun n hn => h n (List.mem_cons_of_mem _ hn)
    rw [statementsOf_cons]
    split
    · exact hrest
    · refine ((h node (List.mem_cons_self ..)).stmts b sink).bind fun first hfirst => ?_
      refine hrest.bind fun rest hrest => .pure ?_
      rw [stmtsParts_append]
      exact List.forall_mem_append.mpr ⟨hfirst, hrest⟩

theorem bodyOf_list_parts (sink : Sink) :
    Makes (bodyOf b sink (.list nodes)) fun stmts => ∀ e ∈ stmtsParts stmts, e.CallsHave R := by
  unfold bodyOf
  split
  · exact .pure (List.forall_mem_singleton.mpr (Expr.callsHave_of_leaf rfl rfl))
  · refine (exprsOf_parts h).bind fun es hes => .pure (List.forall_mem_singleton.mpr ?_)
    exact Expr.callsHave_iff.mpr ⟨by simp [Expr.isCall], hes⟩
  · exact statementsOf_parts h _

end Lists

theorem armsOf_parts {sink : Sink} {onlyFirst : Bool} {branches : List Branch}
    (h : ∀ n ∈ branches.flatMap (fun branch => branch.body.all), MakesParts R n) :
    Makes (armsOf b sink onlyFirst branches) fun arms => ∀ e ∈ armsParts arms, e.CallsHave R := by
  induction branches with
  | nil => exact .pure (by simp [armsParts])
  | cons branch branches ih =>
    obtain ⟨span, head, capture, body⟩ := branch
    have hbody : Makes (bodyOf b sink body) fun stmts => ∀ e ∈ stmtsParts stmts, e.CallsHave R := by
      cases body with
      | node n => exact (h n (List.mem_append_left _ (List.mem_singleton.mpr rfl))).stmts b sink
      | list ns => exact bodyOf_list_parts (fun n hn => h n (List.mem_append_left _ hn)) sink
    rw [armsOf]
    refine hbody.bind fun stmts hstmts => ?_
    cases onlyFirst with
    | true => exact .pure (by simpa [armsParts] using hstmts)
    | false =>
      refine (ih fun n hn => h n (List.mem_append_right _ hn)).bind fun arms harms => .pure ?_
      exact List.forall_mem_append.mpr ⟨hstmts, harms⟩

theorem valueOf_parts {value : AttrValue} {flag : String} {span : Span} {name : String}
    (h : ∀ n ∈ (Attribute.static span name value).node?, MakesParts R n) :
    Makes (valueOf b flag value) fun v => ∀ e ∈ v.parts, e.CallsHave R := by
  cases value with
  | node n =>
    rw [valueOf]
    exact ((h n rfl).expr b).bind fun e he => .pure (List.forall_mem_singleton.mpr he)
  | _ => exact .pure (by simp [Value.parts])

theorem attrsOf_parts {attributes : List Attribute}
    (h : ∀ n ∈ attributes.filterMap Attribute.node?, MakesParts R n) :
    Makes (attrsOf b attributes) fun as => ∀ e ∈ as.flatMap Attr.parts, e.CallsHave R := by
  induction attributes with
  | nil => exact .pure (by simp)
  | cons a rest ih =>
    rw [filterMap_node?_cons] at h
    have hrest := ih fun n hn => h n (List.mem_append_right _ hn)
    cases a with
    | static span name value =>
      rw [attrsOf]
      refine (valueOf_parts fun n hn => h n (List.mem_append_left _ (by simpa using hn))).bind
        fun v hv => hrest.bind fun as has => .pure ?_
      exact List.forall_mem_append.mpr ⟨hv, has⟩
    | builtin => exact hrest
    | builtinShorthand => exact hrest
    | shorthand | formatted | spread =>
      rw [attrsOf]
      exact hrest.bind fun as has => .pure has

def PropItem.parts : PropItem → List Expr
  | .entry prop => prop.parts
  | .spread _ => []

theorem propsOf_parts {attributes : List Attribute}
    (h : ∀ n ∈ attributes.filterMap Attribute.node?, MakesParts R n) :
    Makes (propsOf b attributes) fun items => ∀ e ∈ items.flatMap PropItem.parts, e.CallsHave R := by
  induction attributes with
  | nil => exact .pure (by simp)
  | cons a rest ih =>
    rw [filterMap_node?_cons] at h
    have hrest := ih fun n hn => h n (List.mem_append_right _ hn)
    cases a with
    | static span name value =>
      rw [propsOf]
      refine (valueOf_parts fun n hn => h n (List.mem_append_left _ (by simpa using hn))).bind
        fun v hv => hrest.bind fun items hitems => .pure ?_
      exact List.forall_mem_append.mpr ⟨hv, hitems⟩
    | builtin => exact hrest
    | builtinShorthand => exact hrest
    | shorthand | formatted | spread =>
      rw [propsOf]
      exact hrest.bind fun items hitems => .pure hitems

theorem parts_groupProps (items : List PropItem) :
    (groupProps items).flatMap PropGroup.parts = items.flatMap PropItem.parts := by
  induction items with
  | nil => rfl
  | cons item items ih =>
    rw [List.flatMap_cons, ← ih]
    cases item with
    | spread code => rfl
    | entry prop =>
      rw [groupProps]
      split
      · next props groups heq =>
        simp [heq, PropGroup.parts, PropItem.parts]
      · simp [PropGroup.parts, PropItem.parts]

/-- What is not control flow is delivered as one expression. -/
theorem makesParts_of_expr {node : Node}
    (hinto : ∀ b sink, into b sink node = (do return [.deliver sink (← exprOf b node)]))
    (h : ∀ b, Makes (exprOf b node) (Expr.CallsHave R)) : MakesParts R node := by
  refine ⟨h, fun b sink => ?_⟩
  rw [hinto]
  exact (h b).bind fun e he => .pure (List.forall_mem_singleton.mpr he)

theorem componentOf_parts {tag : Tag} {children : List Node} (hkind : tag.kind = .component)
    (hvalues : ∀ n ∈ tag.attributes.filterMap Attribute.node?, MakesParts R n)
    (hchildren : ∀ n ∈ children, MakesParts R n) :
    Makes (exprOf b (.element tag children)) fun e => ∀ part ∈ e.parts, part.CallsHave R := by
  obtain ⟨span, name, kind, attributes, mode, allocator⟩ := tag
  obtain rfl : kind = .component := hkind
  rw [exprOf]
  refine (propsOf_parts hvalues).bind fun items hitems => ?_
  refine (exprsOf_parts hchildren).bind fun es hes => .pure ?_
  rw [Expr.parts, parts_groupProps]
  split
  · exact hitems
  · rw [List.flatMap_append]
    exact List.forall_mem_append.mpr ⟨hitems, by simpa [PropItem.parts, PropEntry.parts] using hes⟩

/-- The component calls in the code of a node have a property if all those have it that are
made of nodes in it. -/
theorem makesParts (node : Node)
    (h : ∀ n, n.Within node → ∀ b, Makes (exprOf b n) fun e => e.isCall = true → R e) :
    MakesParts R node := by
  induction node using Node.induction_on_parts with
  | h node ih =>
    have hparts : ∀ n ∈ node.parts, MakesParts R n :=
      fun n hn => ih n hn fun m hm => h m (.part hn hm)
    -- Apart from the expression itself there are only the expressions made of the parts.
    have hexpr : (∀ b, Makes (exprOf b node) fun e => ∀ part ∈ e.parts, part.CallsHave R) →
        ∀ b, Makes (exprOf b node) (Expr.CallsHave R) :=
      fun hmade b c => Expr.callsHave_iff.mpr ⟨h node (.refl node) b c, hmade b c⟩
    cases node with
    | element tag children =>
      have hvalues : ∀ n ∈ tag.attributes.filterMap Attribute.node?, MakesParts R n :=
        fun n hn => hparts n (List.mem_append_left _ hn)
      have hchildren : ∀ n ∈ children, MakesParts R n :=
        fun n hn => hparts n (List.mem_append_right _ hn)
      refine makesParts_of_expr (fun _ _ => rfl) (hexpr fun b => ?_)
      cases hkind : tag.kind with
      | component => exact componentOf_parts hkind hvalues hchildren
      | element =>
        obtain ⟨span, name, kind, attributes, mode, allocator⟩ := tag
        obtain rfl : kind = .element := hkind
        rw [exprOf]
        refine (attrsOf_parts hvalues).bind fun as has => ?_
        exact (exprsOf_parts hchildren).bind fun es hes =>
          .pure (List.forall_mem_append.mpr ⟨has, hes⟩)
    | selfClosing tag =>
      refine makesParts_of_expr (fun _ _ => rfl) (hexpr fun b => ?_)
      obtain ⟨span, name, kind, attributes, mode, allocator⟩ := tag
      cases kind with
      | component =>
        rw [exprOf]
        refine (propsOf_parts hparts).bind fun items hitems => .pure ?_
        rw [Expr.parts, parts_groupProps]
        exact hitems
      | element =>
        rw [exprOf]
        exact (attrsOf_parts hparts).bind fun as has => .pure has
    | fragment span children =>
      refine makesParts_of_expr (fun _ _ => rfl) (hexpr fun b => ?_)
      rw [exprOf]
      exact (exprsOf_parts hparts).bind fun es hes => .pure hes
    | expr => exact makesParts_of_expr (fun _ _ => rfl) (hexpr fun b => .pure (by simp [Expr.parts]))
    | text => exact makesParts_of_expr (fun _ _ => rfl) (hexpr fun b => .pure (by simp [Expr.parts]))
    | flow span kind subject allocator branches =>
      have hstmts : ∀ b sink, Makes (flowStatements b sink kind subject fun sink =>
          armsOf b sink (isLoop kind) branches) fun stmts =>
            ∀ e ∈ stmtsParts stmts, e.CallsHave R :=
        fun b sink => flowStatements_parts (fun _ => armsOf_parts hparts) sink
      refine ⟨hexpr fun b => ?_, fun b sink => hstmts b sink⟩
      rw [exprOf]
      exact .inBlock fun id => hstmts (.ofBlock id) (.breakTo (.block id))

theorem ofTemplate_parts {template : Template}
    (h : ∀ n, n.Within template.node → ∀ b, Makes (exprOf b n) fun e => e.isCall = true → R e)
    (c : Counter) : (ofTemplate template c).1.CallsHave R := by
  have hstmts := (makesParts template.node h).stmts
  have hblock : Makes (ofTemplate template) (Expr.CallsHave R) := by
    refine .inBlock fun id c => Expr.callsHave_iff.mpr ⟨by simp [Expr.isCall], ?_⟩
    exact hstmts (.ofBlock id) (.breakTo (.block id)) c
  exact hblock c

end ZigMarkup.Code
