import ZigMarkup.Proofs.CodeParts
import ZigMarkup.Proofs.Dedent
import ZigMarkup.Proofs.Escaping
import ZigMarkup.Proofs.Resolved

/-!
Names in the props of components. Props between two spreads are written as one record, and the
content of a component goes into the last one as `children`. Main statement: the names in a
record are distinct, but for one case. Blank text under a component that is given `children` as
an attribute is accepted as layout, and yet blank text is kept where escaping is off or where it
holds no line feed; then, unless a spread follows the attribute, a record has `children` twice.
-/
namespace ZigMarkup

/-! ## Blank text -/

theorem subset_of_mem_splitLines {cs line : List Char} (h : line ∈ splitLines cs) : line ⊆ cs := by
  induction cs generalizing line with
  | nil =>
    rw [List.mem_singleton.mp h]
    exact List.nil_subset _
  | cons c cs ih =>
    rw [splitLines] at h
    split at h
    · rcases List.mem_cons.mp h with rfl | h
      · exact List.nil_subset _
      · exact List.subset_cons_of_subset c (ih h)
    · split at h
      · rw [List.mem_singleton.mp h]
        simp
      · next first lines hsplit =>
        rw [hsplit] at ih
        rcases List.mem_cons.mp h with rfl | h
        · exact List.cons_subset_cons c (ih List.mem_cons_self)
        · exact List.subset_cons_of_subset c (ih (List.mem_cons_of_mem _ h))

theorem isBlankLine_of_mem_rawLines {raw : String} (hblank : raw.toList.all isBlank = true)
    {line : List Char} (h : line ∈ rawLines raw) : isBlankLine line = true := by
  obtain ⟨full, hfull, rfl⟩ := List.mem_map.mp h
  rw [isBlankLine, List.all_eq_true]
  exact fun c hc => List.all_eq_true.mp hblank c
    (subset_of_mem_splitLines hfull (dropReturn_subset full hc))

/-- Blank text is layout only if it is escaped and holds a line feed. -/
theorem contentOf_of_blank {raw : String} (hblank : raw.toList.all isBlank = true)
    (mode : Escaping) :
    contentOf mode raw = none ↔ raw = "" ∨ mode = .html ∧ '\n' ∈ raw.toList := by
  cases mode with
  | none => simp [contentOf]
  | html =>
    rw [contentOf, dedent]
    by_cases hline : '\n' ∈ raw.toList
    · simp [hline, dedentLines_eq_nil.mpr fun _ => isBlankLine_of_mem_rawLines hblank]
    · simp [hline]

namespace Node

/-- Blank text that is no layout: it is not escaped, or it holds no line feed. -/
def isKeptBlank : Node → Bool
  | text _ raw mode _ => raw.toList.all isBlank && raw != "" &&
      (mode = .none || !raw.toList.contains '\n')
  | _ => false

end Node

/-! ## Names of props -/

namespace Code

def PropEntry.name : PropEntry → String
  | .field name _ => name
  | .format _ name _ _ => name
  | .children _ => "children"

/-- An entry is written under its name. -/
theorem PropEntry.pieces_name (runtime : String) (p : PropEntry) : ∃ text rest,
    p.pieces runtime = .text (Literal.enumLiteral p.name ++ " = " ++ text) :: rest := by
  cases p with
  | field name value =>
    refine ⟨"", Value.pieces runtime value ++ line ",", ?_⟩
    simp [PropEntry.pieces, PropEntry.name]
  | format b name format args =>
    refine ⟨b.call "format" ++ "(\"" ++ format ++ "\", " ++ formatArgs b args ++ "),",
      [.newline], ?_⟩
    simp [PropEntry.pieces, PropEntry.name, line, String.append_assoc]
  | children nodes =>
    refine ⟨"", listPieces (exprsPieces runtime nodes) ++ line ",", ?_⟩
    have hname : Literal.enumLiteral "children" ++ " = " ++ "" = ".children = " := by decide
    rw [PropEntry.name, hname, PropEntry.pieces, List.append_assoc]
    rfl

def PropGroup.names : PropGroup → List String
  | .record props => props.map PropEntry.name
  | .spread _ => []

def Expr.groups : Expr → List PropGroup
  | .component _ _ _ props => props
  | _ => []

/-- The name of a prop; a spread has none. -/
def PropItem.name? : PropItem → Option String
  | .entry prop => some prop.name
  | .spread _ => none

/-- The names before the first spread. -/
def firstNames : List (Option String) → List String
  | [] => []
  | none :: _ => []
  | some name :: names => name :: firstNames names

/-- No two props of the same name are without a spread between them. -/
def Spaced : List (Option String) → Prop
  | [] => True
  | none :: names => Spaced names
  | some name :: names => name ∉ firstNames names ∧ Spaced names

theorem names_groupProps (items : List PropItem) :
    (groupProps items).flatMap PropGroup.names = items.filterMap PropItem.name? := by
  induction items with
  | nil => rfl
  | cons item items ih =>
    cases item with
    | spread code =>
      rw [List.filterMap_cons_none rfl, ← ih]
      rfl
    | entry prop =>
      rw [List.filterMap_cons_some (show PropItem.name? (.entry prop) = some prop.name from rfl), ← ih,
        groupProps]
      split
      · next props groups heq => simp [heq, PropGroup.names]
      · simp [PropGroup.names]

theorem names_headD_of_no_record {groups : List PropGroup}
    (h : ∀ props rest, groups = .record props :: rest → False) :
    (groups.headD (.spread "")).names = [] := by
  cases groups with
  | nil => rfl
  | cons group rest =>
    cases group with
    | record props => exact (h props rest rfl).elim
    | spread code => rfl

theorem firstNames_groupProps (items : List PropItem) :
    firstNames (items.map PropItem.name?) = ((groupProps items).headD (.spread "")).names := by
  induction items with
  | nil => rfl
  | cons item items ih =>
    cases item with
    | spread code => rfl
    | entry prop =>
      rw [List.map_cons, PropItem.name?, firstNames, ih, groupProps]
      split
      · next props groups heq => simp [heq, PropGroup.names]
      · next hother =>
        rw [names_headD_of_no_record hother]
        rfl

/-- The names in each record are distinct if equal names have spreads between them. -/
theorem nodup_groupProps_iff (items : List PropItem) :
    (∀ group ∈ groupProps items, group.names.Nodup) ↔ Spaced (items.map PropItem.name?) := by
  induction items with
  | nil => simp [groupProps, Spaced]
  | cons item items ih =>
    cases item with
    | spread code =>
      rw [groupProps, List.forall_mem_cons, ih, List.map_cons, PropItem.name?, Spaced]
      simp [PropGroup.names]
    | entry prop =>
      rw [List.map_cons, PropItem.name?, Spaced, ← ih, firstNames_groupProps, groupProps]
      split
      · next props groups heq =>
        rw [heq]
        simp [PropGroup.names, and_assoc]
      · next hother =>
        rw [names_headD_of_no_record hother]
        simp [PropGroup.names]

end Code

/-! ## Names of attributes -/

/-- The name that an attribute gives a prop; a spread gives none. -/
def Attribute.propName? (a : Attribute) : Option (Option String) :=
  if a.isSpread then some none else a.name?.map some

/-- An attribute names a prop, is a spread or has nothing to do with props. -/
theorem Attribute.prop_cases (a : Attribute) :
    (∃ name, a.name? = some name ∧ a.isSpread = false ∧ a.propName? = some (some name)) ∨
      (a.name? = none ∧ a.isSpread = true ∧ a.propName? = some none) ∨
      (a.name? = none ∧ a.isSpread = false ∧ a.propName? = none) := by
  cases a <;> simp [Attribute.propName?, Attribute.name?, Attribute.isSpread]

/-- A `children` attribute that no spread follows. -/
def ChildrenLast (attributes : List Attribute) : Prop :=
  ∃ before a after, attributes = before ++ a :: after ∧ a.name? = some "children" ∧
    ∀ other ∈ after, other.isSpread = false

theorem childrenLast_cons {a : Attribute} {attributes : List Attribute} :
    ChildrenLast (a :: attributes) ↔
      (a.name? = some "children" ∧ ∀ other ∈ attributes, other.isSpread = false) ∨
        ChildrenLast attributes := by
  constructor
  · rintro ⟨before, declared, after, heq, hname, hafter⟩
    cases before with
    | nil =>
      obtain ⟨rfl, rfl⟩ := List.cons.inj heq
      exact .inl ⟨hname, hafter⟩
    | cons _ before =>
      obtain ⟨_, rfl⟩ := List.cons.inj heq
      exact .inr ⟨before, declared, after, rfl, hname, hafter⟩
  · rintro (⟨hname, hafter⟩ | ⟨before, declared, after, rfl, hname, hafter⟩)
    · exact ⟨[], a, attributes, rfl, hname, hafter⟩
    · exact ⟨a :: before, declared, after, rfl, hname, hafter⟩

namespace Code

theorem mem_firstNames {name : String} {attributes : List Attribute} (more : List (Option String))
    (h : name ∉ attributes.filterMap Attribute.name?) :
    name ∈ firstNames (attributes.filterMap Attribute.propName? ++ more) ↔
      (∀ a ∈ attributes, a.isSpread = false) ∧ name ∈ firstNames more := by
  induction attributes with
  | nil => simp
  | cons a attributes ih =>
    rcases a.prop_cases with ⟨own, hname, hspread, hprop⟩ | ⟨hname, hspread, hprop⟩ |
      ⟨hname, hspread, hprop⟩
    · rw [List.filterMap_cons_some hname, List.mem_cons, not_or] at h
      rw [List.filterMap_cons_some hprop, List.cons_append, firstNames, List.mem_cons, ih h.2]
      simp [h.1, hspread]
    · rw [List.filterMap_cons_some hprop, List.cons_append, firstNames]
      simp [hspread]
    · rw [List.filterMap_cons_none hname] at h
      rw [List.filterMap_cons_none hprop, ih h]
      simp [hspread]

/-- Props with distinct names are spaced, and so are they with content behind them, unless no
spread follows an attribute `children`. -/
theorem spaced_attributes {attributes : List Attribute}
    (h : (attributes.filterMap Attribute.name?).Nodup) :
    Spaced (attributes.filterMap Attribute.propName?) ∧
      (Spaced (attributes.filterMap Attribute.propName? ++ [some "children"]) ↔
        ¬ ChildrenLast attributes) := by
  induction attributes with
  | nil => simp [Spaced, firstNames, ChildrenLast]
  | cons a attributes ih =>
    rw [childrenLast_cons]
    rcases a.prop_cases with ⟨own, hname, hspread, hprop⟩ | ⟨hname, hspread, hprop⟩ |
      ⟨hname, hspread, hprop⟩
    · rw [List.filterMap_cons_some hname, List.nodup_cons] at h
      have halone := mem_firstNames [] h.1
      have hcontent := mem_firstNames [some "children"] h.1
      rw [List.append_nil] at halone
      rw [List.filterMap_cons_some hprop, List.cons_append, Spaced, Spaced, halone, hcontent,
        (ih h.2).2, hname]
      refine ⟨⟨by simp [firstNames], (ih h.2).1⟩, ?_⟩
      simp only [firstNames, List.mem_singleton, Option.some.injEq, not_or]
      exact and_congr_left fun _ => not_congr and_comm
    · rw [List.filterMap_cons_none hname] at h
      rw [List.filterMap_cons_some hprop, List.cons_append, Spaced, Spaced, (ih h).2, hname]
      simpa using (ih h).1
    · rw [List.filterMap_cons_none hname] at h
      rw [List.filterMap_cons_none hprop, (ih h).2, hname]
      simpa using (ih h).1

theorem propsOf_named (b : Builder) (attributes : List Attribute) :
    Makes (propsOf b attributes) fun items =>
      items.map PropItem.name? = attributes.filterMap Attribute.propName? := by
  induction attributes with
  | nil => exact .pure rfl
  | cons a rest ih =>
    cases a with
    | static span name value =>
      rw [propsOf]
      have hvalue : Makes (valueOf b "true" value) fun _ => True := fun _ => trivial
      refine hvalue.bind fun v _ => ih.bind fun items hitems => .pure ?_
      rw [List.map_cons, hitems]
      rfl
    | builtin | builtinShorthand => exact ih
    | shorthand | formatted | spread =>
      rw [propsOf]
      refine ih.bind fun items hitems => .pure ?_
      rw [List.map_cons, hitems]
      rfl

theorem exprsOf_eq_nil_iff (b : Builder) (nodes : List Node) :
    Makes (exprsOf b nodes) fun es => es = [] ↔ ∀ n ∈ nodes, n.isDropped = true := by
  induction nodes with
  | nil => exact .pure (by simp)
  | cons node nodes ih =>
    rw [exprsOf]
    split
    · next hdrop => exact fun c => by simpa [hdrop] using ih c
    · next hdrop =>
      have hexpr : Makes (exprOf b node) fun _ => True := fun _ => trivial
      refine hexpr.bind fun e _ => ih.bind fun es _ => .pure ?_
      simp [hdrop]

/-- What is known of the call that a component tag is made into: each prop has its name and place,
and content comes last. -/
structure CallOf (tag : Tag) (children : List Node) (call : Expr) : Prop where
  head : ∃ b, call = .component b tag.name (componentOptions tag) call.groups
  props : ∃ items, call.groups = groupProps items ∧
    items.map PropItem.name? = tag.attributes.filterMap Attribute.propName? ++
      if children.all Node.isDropped then [] else [some "children"]

/-- What a component is given, its content last. -/
def itemsOf (b : Builder) (attributes : List Attribute) (children : List Node) :
    EmitM (List PropItem) := do
  let items ← propsOf b attributes
  let content ← exprsOf b children
  return if content.isEmpty then items else items ++ [.entry (.children content)]

theorem itemsOf_named (b : Builder) (attributes : List Attribute) (children : List Node) :
    Makes (itemsOf b attributes children) fun items => items.map PropItem.name? =
      attributes.filterMap Attribute.propName? ++
        if children.all Node.isDropped then [] else [some "children"] := by
  refine (propsOf_named b attributes).bind fun items hitems => ?_
  refine (exprsOf_eq_nil_iff b children).bind fun content hcontent => .pure ?_
  rw [← List.all_eq_true] at hcontent
  cases content with
  | nil => simp [hitems, hcontent.mp rfl]
  | cons e content =>
    have hkept : children.all Node.isDropped = false := by simpa using hcontent
    simp [hitems, hkept, PropItem.name?, PropEntry.name]

end Code

/-- A tag with what it encloses, at a node. -/
inductive Node.Encloses : Node → Tag → List Node → Prop
  | element (tag : Tag) (children : List Node) : Encloses (.element tag children) tag children
  | selfClosing (tag : Tag) : Encloses (.selfClosing tag) tag []

namespace Code

theorem exprOf_encloses (b : Builder) {node : Node} {tag : Tag} {children : List Node}
    (hnode : node.Encloses tag children) (hkind : tag.kind = .component) : exprOf b node = do
      let items ← itemsOf b tag.attributes children
      return .component b tag.name (componentOptions tag) (groupProps items) := by
  unfold itemsOf
  cases hnode with
  | element tag children =>
    obtain ⟨span, name, kind, attributes, mode, allocator⟩ := tag
    obtain rfl : kind = .component := hkind
    rw [exprOf]
    simp only [bind_assoc, pure_bind]
  | selfClosing tag =>
    obtain ⟨span, name, kind, attributes, mode, allocator⟩ := tag
    obtain rfl : kind = .component := hkind
    rw [exprOf]
    simp only [bind_assoc, pure_bind, exprsOf, List.isEmpty_nil, if_true]

theorem callOf_encloses (b : Builder) {node : Node} {tag : Tag} {children : List Node}
    (hnode : node.Encloses tag children) (hkind : tag.kind = .component) :
    Makes (exprOf b node) (CallOf tag children) := by
  rw [exprOf_encloses b hnode hkind]
  exact (itemsOf_named b tag.attributes children).bind fun items hitems =>
    .pure ⟨⟨b, rfl⟩, items, rfl, hitems⟩

/-- Component calls are made of component tags only. -/
theorem exprOf_isCall (b : Builder) (node : Node) : Makes (exprOf b node) fun e => e.isCall = true →
    ∃ tag children, node.Encloses tag children ∧ tag.kind = .component ∧ CallOf tag children e := by
  cases node with
  | element tag children =>
    cases hkind : tag.kind with
    | component =>
      exact fun c _ => ⟨tag, children, .element tag children, hkind,
        callOf_encloses b (.element tag children) hkind c⟩
    | element =>
      obtain ⟨span, name, kind, attributes, mode, allocator⟩ := tag
      obtain rfl : kind = .element := hkind
      intro c hcall
      cases hcall
  | selfClosing tag =>
    cases hkind : tag.kind with
    | component =>
      exact fun c _ => ⟨tag, [], .selfClosing tag, hkind,
        callOf_encloses b (.selfClosing tag) hkind c⟩
    | element =>
      obtain ⟨span, name, kind, attributes, mode, allocator⟩ := tag
      obtain rfl : kind = .element := hkind
      intro c hcall
      cases hcall
  | fragment | expr | text | flow =>
    intro c hcall
    cases hcall

end Code

/-! ## What is checked -/

/-- What is known of a tag and its children: names are set once, and a component that is given
`children` as an attribute has no content but blank text. -/
structure Tag.PropsChecked (tag : Tag) (children : List Node) : Prop where
  names : (tag.attributes.filterMap Attribute.name?).Nodup
  blank : tag.kind = .component → "children" ∈ tag.attributes.filterMap Attribute.name? →
    ∀ n ∈ children, n.isBlankText = true

/-- In a resolved template, moreover, blank text is dropped or kept as its mode has it. -/
structure Tag.PropsResolved (tag : Tag) (children : List Node) : Prop
    extends tag.PropsChecked children where
  kept : ∀ n ∈ children, n.isBlankText = true → n.isDropped = !n.isKeptBlank

namespace OfTree

theorem blank_of_checkChildren {tag : Tag} {children : List Node}
    (h : checkChildren tag children = .ok ())
    (hname : "children" ∈ tag.attributes.filterMap Attribute.name?) :
    ∀ n ∈ children, n.isBlankText = true := by
  obtain ⟨a, ha, haname⟩ := List.mem_filterMap.mp hname
  unfold checkChildren at h
  split at h
  · cases h
  · next hpass =>
    intro n hn
    cases hblank : n.isBlankText with
    | true => rfl
    | false =>
      have hdeclared : (tag.attributes.find? (·.name? = some "children")).isSome :=
        List.find?_isSome.mpr ⟨a, ha, by simpa using haname⟩
      have hcontent : (children.find? (!·.isBlankText)).isSome :=
        List.find?_isSome.mpr ⟨n, hn, by simpa using hblank⟩
      obtain ⟨declared, hdeclared⟩ := Option.isSome_iff_exists.mp hdeclared
      obtain ⟨content, hcontent⟩ := Option.isSome_iff_exists.mp hcontent
      exact (hpass declared content hdeclared hcontent).elim

theorem names_of_tagOf {source : Bytes} {span : Span} {ts : List Tree} {tag : Tag}
    (h : tagOf source span ts = .ok tag) : (tag.attributes.filterMap Attribute.name?).Nodup := by
  obtain ⟨_, _, _, _, _, _, hcheck⟩ := exists_of_tagOf h
  exact (checkAttributes_ok_iff.mp hcheck).1

theorem reads_propsChecked (source : Bytes) : Reads source Tree.Shaped
    fun node => ∀ tag children, node.Encloses tag children → tag.PropsChecked children where
  shaped h := h
  element hcheck _ _ htag := by
    rintro _ _ ⟨⟩
    exact ⟨names_of_tagOf htag, fun hkind => blank_of_checkChildren
      (hcheck (by simp [Tag.isComponent, hkind]))⟩
  selfClosing _ _ htag := by
    rintro _ _ ⟨⟩
    exact ⟨names_of_tagOf htag, fun _ _ => by simp⟩
  fragment _ _ := by rintro _ _ ⟨⟩
  expr _ _ _ _ _ := by rintro _ _ ⟨⟩
  text _ _ _ _ := by rintro _ _ ⟨⟩
  flow _ _ _ := by rintro _ _ ⟨⟩

end OfTree

namespace Node

theorem isBlankText_resolve (allocator : String) (mode : Escaping) (node : Node) :
    (node.resolve allocator mode).isBlankText = node.isBlankText := by
  cases node <;> rfl

theorem isBlankText_of_isKeptBlank {node : Node} (h : node.isKeptBlank = true) :
    node.isBlankText = true := by
  cases node with
  | text span raw mode content =>
    simp only [isKeptBlank, Bool.and_eq_true] at h
    exact h.1.1
  | _ => cases h

theorem isDropped_resolve {allocator : String} {mode : Escaping} {node : Node}
    (h : node.isBlankText = true) : (node.resolve allocator mode).isDropped =
      !(node.resolve allocator mode).isKeptBlank := by
  cases node with
  | text span raw _ _ =>
    have hblank : raw.toList.all isBlank = true := h
    have hiff := contentOf_of_blank hblank mode
    rw [← Option.isNone_iff_eq_none] at hiff
    rw [resolve, isDropped, isKeptBlank, Bool.eq_iff_iff, hiff]
    cases mode <;> simp [hblank]
  | _ => cases h

end Node

theorem Attribute.name?_resolve (allocator : String) (a : Attribute) :
    (a.resolve allocator).name? = a.name? := by
  rcases a.static_or_resolve_eq with ⟨span, name, node, rfl⟩ | ⟨_, h⟩
  · rfl
  · rw [h]

theorem Tag.names_resolve (allocator : String) (tag : Tag) :
    (Node.resolveTag allocator tag).attributes.filterMap Attribute.name? =
      tag.attributes.filterMap Attribute.name? := by
  rw [attributes_resolve, List.filterMap_map]
  exact congrArg (List.filterMap · tag.attributes) (funext fun a => Attribute.name?_resolve _ a)

theorem Tag.kind_resolve (allocator : String) (tag : Tag) :
    (Node.resolveTag allocator tag).kind = tag.kind := by
  cases tag
  rfl

theorem Tag.PropsChecked.resolve {tag : Tag} {children : List Node}
    (h : tag.PropsChecked children) (outer allocator : String) (mode : Escaping) :
    (Node.resolveTag outer tag).PropsResolved (Node.resolveAll allocator mode children) := by
  rw [Node.resolveAll_eq_map]
  refine ⟨⟨?_, ?_⟩, ?_⟩
  · rw [names_resolve]
    exact h.names
  · rw [names_resolve, kind_resolve]
    intro hkind hname n hn
    obtain ⟨part, hpart, rfl⟩ := List.mem_map.mp hn
    rw [Node.isBlankText_resolve]
    exact h.blank hkind hname part hpart
  · intro n hn hblank
    obtain ⟨part, _, rfl⟩ := List.mem_map.mp hn
    rw [Node.isBlankText_resolve] at hblank
    exact Node.isDropped_resolve hblank

/-- All tags of an accepted template, resolved. -/
theorem propsResolved_of_templatesOf {source : Bytes} {templates : List Template}
    (h : templatesOf source (parse source) = .ok templates) {template : Template}
    (ht : template ∈ templates) (allocator : String) :
    (template.resolve allocator).node.Everywhere fun node => ∀ tag children,
      node.Encloses tag children → tag.PropsResolved children := by
  refine Node.resolve_everywhere ?_ ?_ template.node allocator .html
    (everywhere_of_templatesOf (OfTree.reads_propsChecked source) (parse_shaped source) h ht)
  · rintro node allocator mode hnode _ _ hencloses
    cases node with
    | element tag children =>
      cases hencloses
      exact (hnode tag children (.element tag children)).resolve allocator _ _
    | selfClosing tag =>
      cases hencloses
      exact (hnode tag [] (.selfClosing tag)).resolve allocator allocator mode
    | fragment | expr | text | flow => cases hencloses
  · rintro _ _ _ _ _ _ ⟨⟩

namespace Code

theorem nodup_groups_iff {tag : Tag} {children : List Node} (h : tag.PropsResolved children)
    (hkind : tag.kind = .component) {call : Expr} (hcall : CallOf tag children call) :
    (∀ group ∈ call.groups, group.names.Nodup) ↔
      ¬ (ChildrenLast tag.attributes ∧ ∃ n ∈ children, n.isKeptBlank = true) := by
  obtain ⟨items, hgroups, hitems⟩ := hcall.props
  have hspaced := spaced_attributes h.names
  rw [hgroups, nodup_groupProps_iff, hitems]
  cases hall : children.all Node.isDropped with
  | true =>
    have hnone : ¬ ∃ n ∈ children, n.isKeptBlank = true := by
      rintro ⟨n, hn, hkept⟩
      have hdrop := List.all_eq_true.mp hall n hn
      rw [h.kept n hn (Node.isBlankText_of_isKeptBlank hkept), hkept] at hdrop
      cases hdrop
    simpa [hnone] using hspaced.1
  | false =>
    obtain ⟨n, hn, hkept⟩ := List.all_eq_false.mp hall
    have hcontent : ChildrenLast tag.attributes → ∃ n ∈ children, n.isKeptBlank = true := by
      rintro ⟨before, a, after, heq, hname, _⟩
      have hmem : "children" ∈ tag.attributes.filterMap Attribute.name? :=
        List.mem_filterMap.mpr ⟨a, by simp [heq], hname⟩
      exact ⟨n, hn, by simpa [h.kept n hn (h.blank hkind hmem n hn)] using hkept⟩
    simp only [Bool.false_eq_true, if_false, hspaced.2]
    exact not_congr ⟨fun hlast => ⟨hlast, hcontent hlast⟩, And.left⟩

theorem filterMap_propName? (attributes : List Attribute) :
    (attributes.filterMap Attribute.propName?).filterMap id = attributes.filterMap Attribute.name? := by
  rw [List.filterMap_filterMap]
  refine congrArg (List.filterMap · attributes) (funext fun a => ?_)
  rcases a.prop_cases with ⟨own, hname, _, hprop⟩ | ⟨hname, _, hprop⟩ | ⟨hname, _, hprop⟩ <;>
    simp [hname, hprop]

/-- Only `children` can be set twice, and not more often. -/
theorem nodup_erase_names {tag : Tag} {children : List Node} (h : tag.PropsResolved children)
    {call : Expr} (hcall : CallOf tag children call) :
    ∀ group ∈ call.groups, (group.names.erase "children").Nodup := by
  obtain ⟨items, hgroups, hitems⟩ := hcall.props
  have hnames : (items.filterMap PropItem.name?).Sublist
      (tag.attributes.filterMap Attribute.name? ++ ["children"]) := by
    have hmap : items.filterMap PropItem.name? = (items.map PropItem.name?).filterMap id := by
      rw [List.filterMap_map, Function.id_comp]
    rw [hmap, hitems, List.filterMap_append, filterMap_propName?]
    refine List.Sublist.append (List.Sublist.refl _) ?_
    split
    · exact List.nil_sublist _
    · exact List.Sublist.refl _
  rw [hgroups]
  intro group hgroup
  have hgroupNames : group.names.Sublist (items.filterMap PropItem.name?) := by
    rw [← names_groupProps]
    exact List.sublist_flatten_of_mem (List.mem_map_of_mem hgroup)
  rw [List.nodup_iff_count]
  intro name
  have hcount := (hgroupNames.trans hnames).count_le name
  have hown := List.nodup_iff_count.mp h.names name
  rw [List.count_append, List.count_singleton] at hcount
  rw [List.count_erase]
  omega

end Code

open Code in
/-- In a file that compiles, each component call is printed with its props under their names.
The names in each of its records are distinct, unless its tag has an attribute `children` that no
spread follows and encloses blank text that is kept; then `children` is set twice. -/
theorem prop_names_distinct {options : Options} {source : String} {compiled : Compiled}
    (h : compile options source = .ok compiled) :
    ∃ templates, templatesOf (utf8 source) (parse (utf8 source)) = .ok templates ∧
      ∀ template ∈ templates, ∀ resolved, resolved = template.resolve options.defaultAllocator →
        ∀ c call, call.Within (ofTemplate resolved c).1 → call.isCall = true →
          call.pieces options.runtime <:+: (ofTemplate resolved c).1.pieces options.runtime ∧
          (∀ props, .record props ∈ call.groups → ∀ p ∈ props, ∃ text rest,
            p.pieces options.runtime = .text (Literal.enumLiteral p.name ++ " = " ++ text) :: rest) ∧
          ∃ (node : Node) (tag : Tag) (children : List Node),
            node.Within resolved.node ∧ node.Encloses tag children ∧ tag.kind = .component ∧
            CallOf tag children call ∧
            (∀ group ∈ call.groups, (group.names.erase "children").Nodup) ∧
            ((∀ group ∈ call.groups, group.names.Nodup) ↔
              ¬ (ChildrenLast tag.attributes ∧ ∃ n ∈ children, n.isKeptBlank = true)) := by
  obtain ⟨templates, htemplates⟩ := templatesOf_of_compile h
  refine ⟨templates, htemplates, fun template ht resolved hresolved c call hwithin hcall => ?_⟩
  have hchecked := propsResolved_of_templatesOf htemplates ht options.defaultAllocator
  rw [← hresolved] at hchecked
  have hmade : (ofTemplate resolved c).1.CallsHave fun e =>
      ∃ (node : Node) (tag : Tag) (children : List Node), node.Within resolved.node ∧
        node.Encloses tag children ∧ tag.kind = .component ∧ CallOf tag children e := by
    refine ofTemplate_parts (fun node hnode b c hcall => ?_) c
    obtain ⟨tag, children, hencloses, hkind, hcallOf⟩ := exprOf_isCall b node c hcall
    exact ⟨node, tag, children, hnode, hencloses, hkind, hcallOf⟩
  obtain ⟨node, tag, children, hnode, hencloses, hkind, hcallOf⟩ := hmade call hwithin hcall
  have hprops := hchecked node hnode tag children hencloses
  exact ⟨hwithin.printed, fun props _ p _ => p.pieces_name options.runtime,
    node, tag, children, hnode, hencloses, hkind, hcallOf, nodup_erase_names hprops hcallOf,
    nodup_groups_iff hprops hkind hcallOf⟩

def blankCard : String := "(<Card children=\x7bx\x7d> </Card>)"

theorem compile_blankCard : ∃ compiled, compile {} blankCard = .ok compiled :=
  Checked.exists_of_toBool (by decide +kernel)

open Code in
theorem names_blankCard : (templatesOf (utf8 blankCard) (parse (utf8 blankCard))).toOption.map
    (List.map fun template => (ofTemplate (template.resolve "std.heap.page_allocator") {}).1.parts.map
      fun e => (e.isCall, e.groups.map PropGroup.names)) =
        some [[(true, [["children", "children"]])]] := by
  decide +kernel

open Code in
/-- A space under a component with an attribute `children` makes a record with two fields of that
name. -/
theorem prop_names_distinct_space : ∃ (template : Template) (call : Expr),
    templatesOf (utf8 blankCard) (parse (utf8 blankCard)) = .ok [template] ∧
      call.Within (ofTemplate (template.resolve "std.heap.page_allocator") {}).1 ∧
      call.groups.map PropGroup.names = [["children", "children"]] ∧
      ∃ tag children, CallOf tag children call ∧ ChildrenLast tag.attributes ∧
        ∃ n ∈ children, n.isKeptBlank = true := by
  obtain ⟨compiled, hcompiled⟩ := compile_blankCard
  obtain ⟨templates, htemplates, h⟩ := prop_names_distinct hcompiled
  have hnames := names_blankCard
  rw [htemplates] at hnames
  obtain ⟨template, rfl, hparts⟩ := List.map_eq_singleton_iff.mp (Option.some.inj hnames)
  obtain ⟨call, hcall, hfields⟩ := List.map_eq_singleton_iff.mp hparts
  obtain ⟨hisCall, hgroups⟩ := Prod.mk.inj hfields
  have hwithin : call.Within (ofTemplate (template.resolve "std.heap.page_allocator") {}).1 :=
    .part (by rw [hcall]; exact List.mem_singleton.mpr rfl) (.refl call)
  obtain ⟨_, _, node, tag, children, _, _, _, hcallOf, _, hiff⟩ :=
    h template (List.mem_singleton.mpr rfl) _ rfl {} call hwithin hisCall
  refine ⟨template, call, htemplates, hwithin, hgroups, tag, children, hcallOf, ?_⟩
  -- The two fields have the same name, so the exception applies.
  refine Classical.not_not.mp fun hno => ?_
  obtain ⟨group, hgroup, hgroupNames⟩ := List.map_eq_singleton_iff.mp hgroups
  have hnodup := hiff.mpr hno group (by rw [hgroup]; exact List.mem_singleton.mpr rfl)
  rw [hgroupNames] at hnodup
  exact absurd hnodup (by decide)

end ZigMarkup
