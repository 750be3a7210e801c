import ZigMarkup.Proofs.Surface.Lowering

/-!
Markup and control flow of surface templates, lowered. One lemma for each production says what
lowering gives if it gives the right thing for the parts; the surface types hold each other, so
the theorems for whole templates are one induction over all of them.
-/
namespace ZigMarkup.Surface

open OfTree

variable {source : Bytes}

/-! ## Children -/

theorem nodesOf_yields {t : Tree} {ts : List Tree} {V W : Prop} {n : Node} {ns : List Node}
    (ht : Yields (nodeOf? source t) V (some n)) (hts : Yields (nodesOf source ts) W ns) :
    Yields (nodesOf source (t :: ts)) (V ∧ W) (n :: ns) := by
  rw [nodesOf]
  exact ht.bind (hts.map _)

theorem children_lowers {run? : Option Run} {items : Items} (hitems : items.Lowers source) :
    (Children.mk run? items).Lowers source := by
  intro pos h
  obtain ⟨hplace, hnext⟩ := located_append.mp h
  have hrest := hitems _ hnext
  cases run? with
  | none => exact hrest
  | some run =>
    have htext : (spanAt pos run.text).text source = run.text := hplace.text
    have hrun : Yields (nodeOf? source (leafAt .text pos run.text)) True
        (some (.text (spanAt pos run.text) run.text .html none)) := by
      rw [leafAt, Tree.leaf, nodeOf?]
      simp only [rawText, htext]
      exact Yields.ok _
    exact (nodesOf_yields hrun hrest).congr (iff_of_eq (true_and _))

theorem items_markup_lowers {markup : Markup} {rest : Children} (hmarkup : markup.Lowers source)
    (hrest : rest.Lowers source) : (Items.markup markup rest).Lowers source := by
  intro pos h
  obtain ⟨hplace, hnext⟩ := located_append.mp h
  exact nodesOf_yields (hmarkup _ hplace) (hrest _ hnext)

theorem items_braces_lowers {braces : Braces} {rest : Children} (hbraces : braces.Lowers source)
    (hrest : rest.Lowers source) : (Items.braces braces rest).Lowers source := by
  intro pos h
  obtain ⟨hplace, hnext⟩ := located_append.mp h
  have hnode : nodeOf? source (braces.tree .expressionBlock pos) =
      bracedOf? source (spanAt pos braces.text) (braces.tree .expressionBlock pos).children := by
    cases braces <;> rfl
  refine nodesOf_yields ?_ (hrest _ hnext)
  rw [hnode]
  exact hbraces _ _ hplace

theorem Markup.node_isBlankText (markup : Markup) (pos : Nat) :
    (markup.node pos).isBlankText = false := by
  cases markup <;> rfl

theorem Flow.node_isBlankText (flow : Flow) (pos : Nat) : (flow.node pos).isBlankText = false := by
  cases flow <;> rfl

theorem Braces.node_isBlankText (b : Braces) (pos : Nat) : (b.node pos).isBlankText = false := by
  cases b with
  | code before code after => rfl
  | root before root after =>
    cases root with
    | mk inner markup behind => exact markup.node_isBlankText _
  | flow before flow after => exact flow.node_isBlankText _

theorem Children.nodes_blank_iff (children : Children) (pos : Nat) :
    (∀ n ∈ children.nodes pos, n.isBlankText = true) ↔ children.isBlank = true := by
  cases children with
  | mk run? items =>
    cases items with
    | done => cases run? <;> simp [Children.nodes, Items.nodes, runNodes, Children.isBlank, Node.isBlankText]
    | markup m rest =>
      refine iff_of_false (fun h => ?_) Bool.false_ne_true
      have hm := h (m.node (pos + width (runText run?)))
        (List.mem_append_right _ (List.mem_cons_self ..))
      rw [m.node_isBlankText] at hm
      cases hm
    | braces b rest =>
      refine iff_of_false (fun h => ?_) Bool.false_ne_true
      have hb := h (b.node (pos + width (runText run?)))
        (List.mem_append_right _ (List.mem_cons_self ..))
      rw [b.node_isBlankText] at hb
      cases hb

mutual
theorem Children.trees_isChild (children : Children) (pos : Nat) :
    ∀ t ∈ children.trees pos, t.kind.isChild := by
  cases children with
  | mk run? items =>
    have hitems := items.trees_isChild (pos + width (runText run?))
    cases run? with
    | none => exact hitems
    | some run => exact List.forall_mem_cons.mpr ⟨rfl, hitems⟩

theorem Items.trees_isChild (items : Items) (pos : Nat) :
    ∀ t ∈ items.trees pos, t.kind.isChild := by
  cases items with
  | done => simp [Items.trees]
  | markup m rest =>
    have hm : (m.tree pos).kind.isChild := by cases m <;> rfl
    exact List.forall_mem_cons.mpr ⟨hm, rest.trees_isChild _⟩
  | braces b rest =>
    have hb : (b.tree .expressionBlock pos).kind.isChild := by cases b <;> rfl
    exact List.forall_mem_cons.mpr ⟨hb, rest.trees_isChild _⟩
end

/-! ## Markup -/

theorem checkChildren_yields (tag : Tag) (children : Children) (pos : Nat) :
    Yields (do if tag.isComponent then checkChildren tag (children.nodes pos)
               return Node.element tag (children.nodes pos))
      (tag.isComponent → "children" ∈ tag.attributes.filterMap Attribute.name? →
        children.isBlank) (.element tag (children.nodes pos)) := by
  have hcheck : Yields (checkChildren tag (children.nodes pos))
      ("children" ∈ tag.attributes.filterMap Attribute.name? → children.isBlank) () := by
    refine (Yields.of_decides (checkChildren_decides tag _) fun _ _ => rfl).congr ?_
    rw [children.nodes_blank_iff]
  split
  · next hyes => exact (hcheck.map _).congr ⟨fun h _ => h, fun h => h hyes⟩
  · next hno => exact (Yields.ok _).congr (iff_of_true trivial fun h => absurd h hno)

theorem element_lowers {name : Name} {proper : isVoidElement name.text = false}
    {attributes : Attrs} {gap before after : Gap} {children : Children}
    (hattributes : attributes.Lowers source) (hchildren : children.Lowers source) :
    (Markup.element name proper attributes gap children before after).Lowers source := by
  intro pos h
  simp only [Markup.text, located_append, width_append, ← Nat.add_assoc] at h
  obtain ⟨⟨⟨⟨⟨⟨⟨⟨⟨⟨_, hname⟩, hattrs⟩, _⟩, _⟩, hinner⟩, _⟩, _⟩, hclose⟩, _⟩, _⟩ := h
  have htag := tagOf_yields (spanAt pos
    (Markup.element name proper attributes gap children before after).text) hname hattrs hattributes
  rw [Markup.tree]
  simp only [nodeAt, Tree.node, List.cons_append]
  rw [nodeOf?, Markup.Valid, Markup.node]
  refine Yields.map some ?_
  rw [elementOf]
  refine htag.bind ?_
  have hlast : ∀ (items : List Tree) (close start : Tree),
      (items ++ [close]).getLastD start = close := by
    intro items close start
    simp
  have hclosed : childText? source .tagName [leafAt .tagName
      (pos + width ("<" ++ name.text ++ attributes.text ++ gap.text ++ ">") +
        width children.text + width ("</" ++ before.text)) name.text] = some name.text := by
    refine childText?_first ?_ []
    simpa only [width_append, ← Nat.add_assoc] using hclose
  have hplace : Located source
      (pos + width ("<" ++ name.text ++ attributes.text ++ gap.text ++ ">")) children.text := by
    simpa only [width_append, ← Nat.add_assoc] using hinner
  simp only [hlast]
  rw [if_neg (not_not_intro hclosed), innerNodesOf_append]
  refine (hchildren _ hplace).bind ((checkChildren_yields _ children _).congr ?_)
  rw [Tag.isComponent, decide_eq_true_iff, ofName_eq_component_iff, attributes.attributes_names]

theorem selfClosing_lowers {name : Name} {attributes : Attrs} {gap : Gap}
    (hattributes : attributes.Lowers source) :
    (Markup.selfClosing name attributes gap).Lowers source := by
  intro pos h
  simp only [Markup.text, located_append, width_append, ← Nat.add_assoc] at h
  obtain ⟨⟨⟨⟨_, hname⟩, hattrs⟩, _⟩, _⟩ := h
  have htag := tagOf_yields (spanAt pos (Markup.selfClosing name attributes gap).text) hname hattrs
    hattributes
  rw [Markup.tree, nodeAt, Tree.node, nodeOf?, Markup.Valid, Markup.node]
  exact htag.map fun tag => some (Node.selfClosing tag)

theorem fragment_lowers {children : Children} {gap : Gap} (hchildren : children.Lowers source) :
    (Markup.fragment children gap).Lowers source := by
  intro pos h
  simp only [Markup.text, located_append] at h
  obtain ⟨⟨⟨⟨_, hinner⟩, _⟩, _⟩, _⟩ := h
  have hend : ∀ span p s, checkFragmentEnd source span
      (children.trees (pos + 2) ++ [nodeAt .endTag p s []]) = .ok () := by
    intro span p s
    rw [checkFragmentEnd, List.getLast?_append]
    rfl
  rw [Markup.tree, nodeAt, Tree.node, nodeOf?, Markup.Valid, Markup.node]
  simp only [hend, innerNodesOf_append]
  exact (hchildren _ hinner).map fun nodes => some (Node.fragment _ nodes)

/-! ## Braces and bodies -/

theorem root_lowers {before after : Gap} {markup : Markup} (hmarkup : markup.Lowers source) :
    (Root.mk before markup after).Lowers source := by
  intro pos h
  simp only [Root.text, located_append] at h
  obtain ⟨⟨⟨_, hplace⟩, _⟩, _⟩ := h
  have hkind : ∀ p, (markup.tree p).kind ≠ .comment := by
    intro p
    cases markup <;> exact Kind.noConfusion
  rw [Root.tree, nodeAt, Tree.node, rootOf, if_neg (hkind _)]
  refine Yields.congr (V := markup.Valid ∧ True) ((hmarkup _ hplace).bind (Yields.ok _)) ?_
  simp only [Root.Valid, and_true]

theorem braces_code_lowers {before after : Gap} {code : Expr} :
    (Braces.code before code after).Lowers source := by
  intro kind pos h
  simp only [Braces.text, located_append] at h
  obtain ⟨⟨⟨_, hcode⟩, _⟩, _⟩ := h
  rw [Braces.tree, nodeAt, Tree.node, bracedOf?_code hcode]
  exact Yields.ok _

theorem braces_root_lowers {before after : Gap} {root : Root} (hroot : root.Lowers source) :
    (Braces.root before root after).Lowers source := by
  intro kind pos h
  simp only [Braces.text, located_append] at h
  obtain ⟨⟨⟨_, hplace⟩, _⟩, _⟩ := h
  have hinner := hroot _ hplace
  cases root with
  | mk inner markup behind =>
    rw [Braces.tree, nodeAt, Tree.node, Root.tree, nodeAt, Tree.node, bracedOf?]
    exact hinner.map some

theorem braces_flow_lowers {before after : Gap} {flow : Flow} (hflow : flow.Lowers source) :
    (Braces.flow before flow after).Lowers source := by
  intro kind pos h
  simp only [Braces.text, located_append] at h
  obtain ⟨⟨⟨_, hplace⟩, _⟩, _⟩ := h
  exact hflow _ hplace _

theorem body_root_lowers {root : Root} (hroot : root.Lowers source) :
    (Body.root root).Lowers source := by
  intro pos h span
  have hinner := hroot pos h
  cases root with
  | mk inner markup behind =>
    rw [Body.tree, nodeAt, Tree.node, Root.tree, nodeAt, Tree.node, bodyOf]
    exact hinner.map ZigMarkup.Body.node

theorem body_list_lowers {children : Children} (hchildren : children.Lowers source) :
    (Body.list children).Lowers source := by
  intro pos h span
  simp only [Body.text, located_append] at h
  obtain ⟨⟨_, hplace⟩, _⟩ := h
  rw [Body.tree, nodeAt, Tree.node, bodyOf_list (children.trees_isChild _)]
  exact (hchildren _ hplace).map ZigMarkup.Body.list

/-! ## Control flow -/

theorem childText?_skip {kind : Kind} {t : Tree} (h : t.kind ≠ kind) (rest : List Tree) :
    childText? source kind (t :: rest) = childText? source kind rest := by
  have hkind : (t.kind == kind) = false := beq_eq_false_iff_ne.mpr h
  simp only [childText?, List.find?_cons, hkind]

theorem Body.tree_kind (body : Body) (pos : Nat) : (body.tree pos).kind = .body := by
  cases body <;> rfl

theorem childText?_body {kind : Kind} (h : kind ≠ .body) (body : Body) (pos : Nat) :
    childText? source kind [body.tree pos] = none :=
  childText?_skip (by rw [body.tree_kind]; exact h.symm) []

/-- What stands in a branch before its body. -/
structure Heads (source : Bytes) (heads : List Tree) (head capture : Option String) : Prop where
  kinds : ∀ t ∈ heads, t.kind ≠ .body
  head : ∀ (body : Body) p, headOf? source (heads ++ [body.tree p]) = head
  capture : ∀ (body : Body) p, childText? source .capture (heads ++ [body.tree p]) = capture

theorem heads_header {pos : Nat} {s : String} (h : Located source pos s) :
    Heads source [leafAt .header pos s] (some s) none := by
  refine ⟨by simp [leafAt, Tree.leaf], fun body p => ?_, fun body p => ?_⟩
  · rw [headOf?, List.singleton_append, childText?_first h]
    rfl
  · rw [List.singleton_append, childText?_skip (by simp [leafAt, Tree.leaf])]
    exact childText?_body (by decide) body p

theorem childText?_captures {kind : Kind} (h : kind ≠ .capture) (pos : Nat)
    (capture? : Option (Capture × Gap)) (rest : List Tree) :
    childText? source kind (captureTrees pos capture? ++ rest) = childText? source kind rest := by
  cases capture? with
  | none => rfl
  | some c => exact childText?_skip h.symm rest

theorem childText?_capture {pos : Nat} {capture? : Option (Capture × Gap)}
    (h : Located source pos (captureText capture?)) (body : Body) (p : Nat) :
    childText? source .capture (captureTrees pos capture? ++ [body.tree p]) =
      captureOf capture? := by
  cases capture? with
  | none => exact childText?_body (by decide) body p
  | some c =>
    obtain ⟨capture, gap⟩ := c
    exact childText?_first (located_append.mp h).1 _

theorem kind_of_mem_captureTrees {pos : Nat} {capture? : Option (Capture × Gap)} :
    ∀ t ∈ captureTrees pos capture?, t.kind ≠ .body := by
  cases capture? <;> simp [captureTrees, leafAt, Tree.leaf]

theorem heads_capture {pos : Nat} {capture? : Option (Capture × Gap)}
    (h : Located source pos (captureText capture?)) :
    Heads source (captureTrees pos capture?) none (captureOf capture?) := by
  refine ⟨kind_of_mem_captureTrees, fun body p => ?_, childText?_capture h⟩
  rw [headOf?, childText?_captures (by decide), childText?_captures (by decide),
    childText?_body (by decide), childText?_body (by decide)]
  rfl

theorem heads_pattern {pos next : Nat} {s : String} {capture? : Option (Capture × Gap)}
    (hpattern : Located source pos s) (h : Located source next (captureText capture?)) :
    Heads source (leafAt .pattern pos s :: captureTrees next capture?) (some s)
      (captureOf capture?) := by
  have hskip : ∀ {kind} rest, kind ≠ .pattern →
      childText? source kind (leafAt .pattern pos s :: rest) = childText? source kind rest :=
    fun rest hkind => childText?_skip hkind.symm rest
  refine ⟨?_, fun body p => ?_, fun body p => ?_⟩
  · exact List.forall_mem_cons.mpr ⟨by simp [leafAt, Tree.leaf], kind_of_mem_captureTrees⟩
  · rw [headOf?, List.cons_append, hskip _ (by decide), childText?_captures (by decide),
      childText?_body (by decide), childText?_first hpattern]
    rfl
  · rw [List.cons_append, hskip _ (by decide)]
    exact childText?_capture h body p

theorem branchesOf_yields {heads ts : List Tree} {head capture : Option String} {body : Body}
    {branches : List Branch} {W : Prop} {pos p : Nat} {s : String}
    (hheads : Heads source heads head capture)
    (hbody : ∀ span, Yields (bodyOf source span [body.tree p]) body.Valid (body.body p))
    (hrest : Yields (branchesOf source ts) W branches) :
    Yields (branchesOf source (nodeAt .branch pos s (heads ++ [body.tree p]) :: ts))
      (body.Valid ∧ W) (⟨spanAt pos s, head, capture, body.body p⟩ :: branches) := by
  rw [nodeAt, Tree.node, branchesOf, if_pos rfl, bodyOf_append hheads.kinds, hheads.head,
    hheads.capture]
  exact (hbody _).bind (hrest.map _)

theorem onlyBranch_yields {heads : List Tree} {head capture : Option String} {body : Body}
    {pos p : Nat} {s : String} (hheads : Heads source heads head capture)
    (hbody : ∀ span, Yields (bodyOf source span [body.tree p]) body.Valid (body.body p)) :
    Yields (branchesOf source [nodeAt .branch pos s (heads ++ [body.tree p])]) body.Valid
      [⟨spanAt pos s, head, capture, body.body p⟩] := by
  have hnil : Yields (branchesOf source []) True [] := Yields.ok []
  exact (branchesOf_yields hheads hbody hnil).congr (iff_of_eq (and_true _))

theorem flow_yields {kind : Kind} {flow : FlowKind} (hkind : FlowKind.ofKind? kind = some flow)
    {span : Span} {pos : Nat} {s : String} {children : List Tree} {V : Prop}
    {branches : List Branch} (h : Yields (branchesOf source children) V branches) :
    Yields (bracedOf? source span [nodeAt kind pos s children]) V
      (some (.flow (spanAt pos s) flow
        (if flow = .switch then childText? source .header children else none) "" branches)) := by
  rw [nodeAt, Tree.node]
  unfold bracedOf?
  cases kind <;> cases hkind <;> exact h.map _

theorem switch_yields {span : Span} {pos next : Nat} {s subject : String} {prongs : List Tree}
    {V : Prop} {branches : List Branch} (hsubject : Located source next subject)
    (h : Yields (branchesOf source prongs) V branches) :
    Yields (bracedOf? source span
        [nodeAt .switchBlock pos s (leafAt .header next subject :: prongs)]) V
      (some (.flow (spanAt pos s) .switch (some subject) "" branches)) := by
  have hbranches : Yields (branchesOf source (leafAt .header next subject :: prongs)) V branches := h
  rw [← childText?_first hsubject prongs]
  exact flow_yields rfl hbranches

theorem ifElse_lowers {before after : Gap} {header : Header} {body : Body} {chain : Chain}
    (hbody : body.Lowers source) (hchain : chain.Lowers source) :
    (Flow.ifElse before header after body chain).Lowers source := by
  intro pos h span
  simp only [Flow.text, located_append, width_append, ← Nat.add_assoc] at h
  obtain ⟨⟨⟨⟨⟨_, _⟩, hheader⟩, _⟩, hplace⟩, hnext⟩ := h
  rw [Flow.tree, Flow.Valid, Flow.node]
  simp only [width_append, ← Nat.add_assoc]
  exact flow_yields rfl (branchesOf_yields (heads_header hheader) (hbody _ hplace)
    (hchain _ hnext))

theorem forLoop_lowers {before after : Gap} {header : Header} {body : Body}
    (hbody : body.Lowers source) : (Flow.forLoop before header after body).Lowers source := by
  intro pos h span
  simp only [Flow.text, located_append, width_append, ← Nat.add_assoc] at h
  obtain ⟨⟨⟨⟨_, _⟩, hheader⟩, _⟩, hplace⟩ := h
  rw [Flow.tree, Flow.Valid, Flow.node]
  simp only [width_append, ← Nat.add_assoc]
  exact flow_yields rfl (onlyBranch_yields (heads_header hheader) (hbody _ hplace))

theorem whileLoop_lowers {before after : Gap} {header : Header} {continue? : Option Continue}
    {body : Body} (hbody : body.Lowers source) :
    (Flow.whileLoop before header continue? after body).Lowers source := by
  intro pos h span
  simp only [Flow.text, located_append, width_append, ← Nat.add_assoc] at h
  obtain ⟨⟨⟨⟨_, _⟩, hheader⟩, _⟩, hplace⟩ := h
  rw [Flow.tree, Flow.Valid, Flow.node]
  simp only [width_append, ← Nat.add_assoc]
  exact flow_yields rfl (onlyBranch_yields (heads_header hheader) (hbody _ hplace))

theorem switch_lowers {before between first : Gap} {subject : Group} {prongs : Prongs}
    (hprongs : prongs.Lowers source) :
    (Flow.switch before subject between first prongs).Lowers source := by
  intro pos h span
  simp only [Flow.text, located_append, width_append, ← Nat.add_assoc] at h
  obtain ⟨⟨⟨⟨⟨⟨⟨_, _⟩, hsubject⟩, _⟩, _⟩, _⟩, hplace⟩, _⟩ := h
  rw [Flow.tree, Flow.Valid, Flow.node]
  simp only [width_append, ← Nat.add_assoc]
  exact switch_yields hsubject (hprongs _ hplace)

theorem elseIf_lowers {before gap after : Gap} {space : Space} {header : Header} {body : Body}
    {rest : Chain} (hbody : body.Lowers source) (hrest : rest.Lowers source) :
    (Chain.elseIf before space gap header after body rest).Lowers source := by
  intro pos h
  simp only [Chain.text, located_append, width_append, ← Nat.add_assoc] at h
  obtain ⟨⟨⟨⟨⟨⟨⟨⟨_, _⟩, _⟩, _⟩, _⟩, hheader⟩, _⟩, hplace⟩, hnext⟩ := h
  rw [Chain.trees, Chain.Valid, Chain.branches]
  simp only [width_append, ← Nat.add_assoc]
  exact branchesOf_yields (heads_header hheader) (hbody _ hplace) (hrest _ hnext)

theorem otherwise_lowers {before gap : Gap} {capture? : Option (Capture × Gap)} {body : Body}
    (hbody : body.Lowers source) : (Chain.otherwise before gap capture? body).Lowers source := by
  intro pos h
  simp only [Chain.text, located_append, width_append, ← Nat.add_assoc] at h
  obtain ⟨⟨⟨⟨_, _⟩, _⟩, hcapture⟩, hplace⟩ := h
  rw [Chain.trees, Chain.Valid, Chain.branches]
  simp only [width_append, ← Nat.add_assoc]
  exact onlyBranch_yields (heads_capture hcapture) (hbody _ hplace)

theorem lastProng_lowers {pattern : Pattern} {before after gap : Gap}
    {capture? : Option (Capture × Gap)} {body : Body} {comma? : Option Gap}
    (hbody : body.Lowers source) :
    (Prongs.last pattern before after capture? body gap comma?).Lowers source := by
  intro pos h
  simp only [Prongs.text, located_append, width_append, ← Nat.add_assoc] at h
  obtain ⟨⟨⟨⟨⟨⟨⟨hpattern, _⟩, _⟩, _⟩, hcapture⟩, hplace⟩, _⟩, _⟩ := h
  rw [Prongs.trees, Prongs.Valid, Prongs.branches]
  simp only [width_append, ← Nat.add_assoc]
  exact onlyBranch_yields (heads_pattern hpattern hcapture) (hbody _ hplace)

theorem moreProngs_lowers {pattern : Pattern} {before after gap next : Gap}
    {capture? : Option (Capture × Gap)} {body : Body} {rest : Prongs}
    (hbody : body.Lowers source) (hrest : rest.Lowers source) :
    (Prongs.more pattern before after capture? body gap next rest).Lowers source := by
  intro pos h
  simp only [Prongs.text, located_append, width_append, ← Nat.add_assoc] at h
  obtain ⟨⟨⟨⟨⟨⟨⟨⟨⟨hpattern, _⟩, _⟩, _⟩, hcapture⟩, hplace⟩, _⟩, _⟩, _⟩, hnext⟩ := h
  rw [Prongs.trees, Prongs.Valid, Prongs.branches]
  simp only [width_append, ← Nat.add_assoc]
  exact branchesOf_yields (heads_pattern hpattern hcapture) (hbody _ hplace) (hrest _ hnext)

/-! ## Whole templates -/

mutual
theorem Markup.lowered (markup : Markup) : markup.Lowers source := by
  cases markup with
  | element name proper attributes gap children before after =>
    exact element_lowers attributes.lowered children.lowered
  | selfClosing name attributes gap => exact selfClosing_lowers attributes.lowered
  | fragment children gap => exact fragment_lowers children.lowered

theorem Children.lowered (children : Children) : children.Lowers source := by
  cases children with
  | mk run? items => exact children_lowers items.lowered

theorem Items.lowered (items : Items) : items.Lowers source := by
  cases items with
  | done => exact fun _ _ => Yields.ok []
  | markup markup rest => exact items_markup_lowers markup.lowered rest.lowered
  | braces braces rest => exact items_braces_lowers braces.lowered rest.lowered

theorem Braces.lowered (braces : Braces) : braces.Lowers source := by
  cases braces with
  | code before code after => exact braces_code_lowers
  | root before root after => exact braces_root_lowers root.lowered
  | flow before flow after => exact braces_flow_lowers flow.lowered

theorem Root.lowered (root : Root) : root.Lowers source := by
  cases root with
  | mk before markup after => exact root_lowers markup.lowered

theorem Body.lowered (body : Body) : body.Lowers source := by
  cases body with
  | root root => exact body_root_lowers root.lowered
  | list children => exact body_list_lowers children.lowered

theorem Flow.lowered (flow : Flow) : flow.Lowers source := by
  cases flow with
  | ifElse before header after body chain => exact ifElse_lowers body.lowered chain.lowered
  | forLoop before header after body => exact forLoop_lowers body.lowered
  | whileLoop before header continue? after body => exact whileLoop_lowers body.lowered
  | switch before subject between first prongs => exact switch_lowers prongs.lowered

theorem Chain.lowered (chain : Chain) : chain.Lowers source := by
  cases chain with
  | done => exact fun _ _ => Yields.ok []
  | elseIf before space gap header after body rest => exact elseIf_lowers body.lowered rest.lowered
  | otherwise before gap capture? body => exact otherwise_lowers body.lowered

theorem Prongs.lowered (prongs : Prongs) : prongs.Lowers source := by
  cases prongs with
  | last pattern before after capture? body gap comma? => exact lastProng_lowers body.lowered
  | more pattern before after capture? body gap next rest =>
    exact moreProngs_lowers body.lowered rest.lowered

theorem Attrs.lowered (attributes : Attrs) : attributes.Lowers source := by
  cases attributes with
  | done => exact fun _ _ => Yields.ok []
  | more space attr rest => exact attrs_lowers attr.lowered rest.lowered

theorem Attr.lowered (attr : Attr) : attr.Lowers source := by
  cases attr with
  | static name before after value => exact static_lowers value.lowered
  | _ => exact attr_lowers fun _ _ _ _ => Attr.noConfusion

theorem Value.lowered (value : Value) : value.Lowers source := by
  cases value with
  | string quoted => exact string_lowers quoted
  | enum ident => exact enum_lowers ident
  | braces braces => exact braces_value_lowers braces.lowered
  | template first? rest => exact template_lowers first? rest
end

end ZigMarkup.Surface
