import ZigMarkup.Proofs.Resolved

/-!
Allocators as they are inherited. Where a node stands is told by the tags around it, innermost
first; a node in the value of an attribute stands inside the tag of the attribute. After
resolving, a tag has the allocator that it declares, or else the one declared nearest around it,
and control flow has the allocator of the tag around it. Nothing but allocators, modes and the
content of text is touched.
-/
namespace ZigMarkup

/-- A tag whose first `@allocator` gives this value; alone in braces it gives its name. -/
def Tag.DeclaresAllocator (tag : Tag) (value : String) : Prop :=
  ∃ before a after, tag.attributes = before ++ a :: after ∧
    (∀ other ∈ before, other.builtin? ≠ some .allocator) ∧
    ((∃ span, a = .builtin span .allocator value) ∨
      (∃ span, a = .builtinShorthand span .allocator) ∧ value = "allocator")

/-- The allocator that tags, innermost first, hand down. -/
inductive Inherits (fallback : String) : List Tag → String → Prop where
  | fallback : Inherits fallback [] fallback
  | own {tag : Tag} {tags : List Tag} {value : String} :
      tag.DeclaresAllocator value → Inherits fallback (tag :: tags) value
  | outer {tag : Tag} {tags : List Tag} {value : String} :
      (∀ other, ¬ tag.DeclaresAllocator other) → Inherits fallback tags value →
        Inherits fallback (tag :: tags) value

namespace Node

/-- The tag of an element. -/
def tag? : Node → Option Tag
  | element tag _ => some tag
  | selfClosing tag => some tag
  | fragment _ _ | expr _ _ _ | text _ _ _ _ | flow _ _ _ _ _ => none

/-- The node stands in the root, inside these tags, innermost first. -/
inductive Under : List Tag → Node → Node → Prop where
  | refl (root : Node) : Under [] root root
  | part {tags : List Tag} {node part root : Node} : part ∈ root.parts →
      Under tags node part → Under (tags ++ root.tag?.toList) node root

mutual
/-- A node with its resolved fields blank. -/
def bare : Node → Node
  | element tag children => element (bareTag tag) (bareAll children)
  | selfClosing tag => selfClosing (bareTag tag)
  | fragment span children => fragment span (bareAll children)
  | expr span code _ => expr span code .html
  | text span raw _ _ => text span raw .html none
  | flow span kind subject _ branches => flow span kind subject "" (bareBranches branches)

def bareAll : List Node → List Node
  | [] => []
  | node :: nodes => bare node :: bareAll nodes

def bareTag : Tag → Tag
  | ⟨span, name, kind, attributes, _, _⟩ => ⟨span, name, kind, bareAttributes attributes, .html, ""⟩

def bareAttributes : List Attribute → List Attribute
  | [] => []
  | .static span name (.node node) :: rest =>
    .static span name (.node (bare node)) :: bareAttributes rest
  | a :: rest => a :: bareAttributes rest

def bareBranches : List Branch → List Branch
  | [] => []
  | ⟨span, head, capture, .node node⟩ :: rest =>
    ⟨span, head, capture, .node (bare node)⟩ :: bareBranches rest
  | ⟨span, head, capture, .list nodes⟩ :: rest =>
    ⟨span, head, capture, .list (bareAll nodes)⟩ :: bareBranches rest
end

end Node

/-- A template with its resolved fields blank. -/
def Template.bare (template : Template) : Template := ⟨template.span, template.node.bare, ""⟩

/-! ## What is declared -/

theorem Attribute.builtinValue?_allocator_iff {a : Attribute} {value : String} :
    a.builtinValue? .allocator = some value ↔
      (∃ span, a = .builtin span .allocator value) ∨
        (∃ span, a = .builtinShorthand span .allocator) ∧ value = "allocator" := by
  cases a with
  | builtin span b v => cases b <;> simp [Attribute.builtinValue?]
  | builtinShorthand span b =>
    cases b <;> simp [Attribute.builtinValue?, Builtin.name, eq_comm]
  | _ => simp [Attribute.builtinValue?]

theorem Attribute.builtinValue?_allocator_eq_none_iff {a : Attribute} :
    a.builtinValue? .allocator = none ↔ a.builtin? ≠ some .allocator := by
  cases a with
  | builtin span b v => cases b <;> simp [Attribute.builtinValue?, Attribute.builtin?]
  | builtinShorthand span b => cases b <;> simp [Attribute.builtinValue?, Attribute.builtin?]
  | _ => simp [Attribute.builtinValue?, Attribute.builtin?]

/-- The search for a builtin finds what is declared. -/
theorem Tag.declaresAllocator_iff {tag : Tag} {value : String} :
    tag.DeclaresAllocator value ↔ tag.builtin? .allocator = some value := by
  rw [Tag.builtin?, builtinValue?, List.findSome?_eq_some_iff]
  constructor
  · rintro ⟨before, a, after, heq, hbefore, ha⟩
    exact ⟨before, a, after, heq, Attribute.builtinValue?_allocator_iff.mpr ha,
      fun other hother => Attribute.builtinValue?_allocator_eq_none_iff.mpr (hbefore other hother)⟩
  · rintro ⟨before, a, after, heq, ha, hbefore⟩
    exact ⟨before, a, after, heq, fun other hother =>
      Attribute.builtinValue?_allocator_eq_none_iff.mp (hbefore other hother),
      Attribute.builtinValue?_allocator_iff.mp ha⟩

/-- A tag hands down what it declares, or else what it was handed. -/
theorem Inherits.step {fallback value : String} {tags : List Tag} (h : Inherits fallback tags value)
    (tag : Tag) : Inherits fallback (tag :: tags) ((tag.builtin? .allocator).getD value) := by
  cases hown : tag.builtin? .allocator with
  | some own => exact .own (Tag.declaresAllocator_iff.mpr hown)
  | none =>
    refine .outer (fun other hother => ?_) h
    rw [Tag.declaresAllocator_iff.mp hother] at hown
    cases hown

/-! ## What resolving does to a place -/

namespace Node

theorem builtin?_resolveTag (allocator : String) (tag : Tag) (b : Builtin) :
    (resolveTag allocator tag).builtin? b = tag.builtin? b := by
  rw [Tag.builtin?, Tag.attributes_resolve, builtinValue?_map_resolve]
  rfl

theorem allocator_resolveTag (allocator : String) (tag : Tag) :
    (resolveTag allocator tag).allocator =
      ((resolveTag allocator tag).builtin? .allocator).getD allocator := by
  rw [builtin?_resolveTag, Tag.allocator_resolve]

/-- The parts of a resolved node are resolved with the allocator of the node, if it is a tag,
and with the allocator around it otherwise. -/
theorem mem_parts_resolve_rootAllocator {node n : Node} {allocator : String} {mode : Escaping}
    (h : n ∈ (node.resolve allocator mode).parts) : ∃ part ∈ node.parts, ∃ mode',
      n = part.resolve ((node.resolve allocator mode).rootAllocator allocator) mode' ∨
        n = (part.resolve ((node.resolve allocator mode).rootAllocator allocator) mode').dropPadding := by
  have hvalues : ∀ tag : Tag, n ∈ (resolveTag allocator tag).attributes.filterMap Attribute.node? →
      ∃ part ∈ tag.attributes.filterMap Attribute.node?, ∃ mode',
        n = part.resolve (resolveTag allocator tag).allocator mode' := by
    intro tag hn
    rw [Tag.nodes_resolve] at hn
    obtain ⟨part, hpart, rfl⟩ := List.mem_map.mp hn
    exact ⟨part, hpart, .html, by rw [Tag.allocator_resolve]⟩
  have hall : ∀ (own : String) (mode : Escaping) (nodes : List Node),
      n ∈ resolveAll own mode nodes → ∃ part ∈ nodes, ∃ mode', n = part.resolve own mode' := by
    intro own mode nodes hn
    rw [resolveAll_eq_map] at hn
    obtain ⟨part, hpart, rfl⟩ := List.mem_map.mp hn
    exact ⟨part, hpart, mode, rfl⟩
  cases node with
  | element tag children =>
    rcases List.mem_append.mp h with h | h
    · obtain ⟨part, hpart, mode', heq⟩ := hvalues tag h
      exact ⟨part, List.mem_append_left _ hpart, mode', Or.inl heq⟩
    · obtain ⟨part, hpart, mode', heq⟩ := hall _ _ children h
      exact ⟨part, List.mem_append_right _ hpart, mode', Or.inl heq⟩
  | selfClosing tag =>
    obtain ⟨part, hpart, mode', heq⟩ := hvalues tag h
    exact ⟨part, hpart, mode', Or.inl heq⟩
  | fragment span children =>
    obtain ⟨part, hpart, mode', heq⟩ := hall _ _ children h
    exact ⟨part, hpart, mode', Or.inl heq⟩
  | expr => cases h
  | text => cases h
  | flow span kind subject _ branches =>
    rw [resolve, parts, resolveBranches_eq_map, List.flatMap_map] at h
    obtain ⟨branch, hbranch, hn⟩ := List.mem_flatMap.mp h
    rw [Body.all_resolve] at hn
    obtain ⟨part, hpart, rfl⟩ := List.mem_map.mp hn
    exact ⟨part, List.mem_flatMap.mpr ⟨branch, hbranch, hpart⟩, mode, Or.inr rfl⟩

/-- What holds at a place of resolved nodes: tags have the allocator that they inherit, and
control flow has the allocator of the tag around it. -/
def Supplied (fallback : String) (tags : List Tag) (node : Node) : Prop :=
  (∀ tag, node.tag? = some tag → Inherits fallback (tag :: tags) tag.allocator) ∧
    ∀ span kind subject allocator branches, node = .flow span kind subject allocator branches →
      allocator = (tags.head?.map Tag.allocator).getD fallback

/-- The allocator in force inside tags. -/
structure InForce (fallback : String) (tags : List Tag) (allocator : String) : Prop where
  inherited : Inherits fallback tags allocator
  nearest : allocator = (tags.head?.map Tag.allocator).getD fallback

theorem InForce.inside {fallback allocator : String} {tags : List Tag}
    (h : InForce fallback tags allocator) (node : Node) (mode : Escaping) :
    InForce fallback ((node.resolve allocator mode).tag?.toList ++ tags)
      ((node.resolve allocator mode).rootAllocator allocator) := by
  have htag : ∀ tag, InForce fallback (resolveTag allocator tag :: tags)
      (resolveTag allocator tag).allocator := by
    intro tag
    refine ⟨?_, rfl⟩
    rw [allocator_resolveTag]
    exact h.inherited.step _
  cases node with
  | element tag children => exact htag tag
  | selfClosing tag => exact htag tag
  | fragment | expr | text | flow => exact h

theorem supplied_resolve {fallback allocator : String} {tags : List Tag}
    (h : InForce fallback tags allocator) (node : Node) (mode : Escaping) :
    Supplied fallback tags (node.resolve allocator mode) := by
  refine ⟨fun tag htag => ?_, fun span kind subject own branches heq => ?_⟩
  · have hinside := (h.inside node mode).inherited
    cases node with
    | element => cases htag; exact hinside
    | selfClosing => cases htag; exact hinside
    | fragment | expr | text | flow => cases htag
  · cases node with
    | flow => cases heq; exact h.nearest
    | element | selfClosing | fragment | expr | text => cases heq

theorem under_dropPadding {tags : List Tag} {node root : Node} (h : Under tags node root.dropPadding) :
    Under tags node root ∨ ∃ span raw mode content, node = .text span raw mode content := by
  cases root with
  | text span raw mode content =>
    cases h with
    | refl => exact Or.inr ⟨_, _, _, _, rfl⟩
    | part hpart => cases hpart
  | _ => exact Or.inl h

/-- Every place of a resolved node is supplied. -/
theorem supplied_of_under (root : Node) : ∀ {fallback allocator : String} {outer tags : List Tag}
    {node : Node} {mode : Escaping}, InForce fallback outer allocator →
    Under tags node (root.resolve allocator mode) → Supplied fallback (tags ++ outer) node := by
  induction root using induction_on_parts with
  | h root ih =>
    intro fallback allocator outer tags node mode hforce hunder
    cases hunder with
    | refl => exact supplied_resolve hforce root mode
    | part hpart hunder =>
      have hinside := hforce.inside root mode
      obtain ⟨part, hmem, mode', rfl | rfl⟩ := mem_parts_resolve_rootAllocator hpart
      · rw [List.append_assoc]
        exact ih part hmem hinside hunder
      · rcases under_dropPadding hunder with hunder | ⟨_, _, _, _, rfl⟩
        · rw [List.append_assoc]
          exact ih part hmem hinside hunder
        · exact ⟨fun _ htag => (by cases htag), fun _ _ _ _ _ heq => (by cases heq)⟩

/-! ## What resolving leaves alone -/

@[simp] theorem bare_dropPadding (node : Node) : node.dropPadding.bare = node.bare := by
  cases node <;> simp [dropPadding, bare]

theorem bareAll_eq_map (nodes : List Node) : bareAll nodes = nodes.map bare := by
  induction nodes with
  | nil => rfl
  | cons node nodes ih => rw [bareAll, ih, List.map_cons]

mutual
theorem bare_resolve (allocator : String) (mode : Escaping) :
    ∀ node : Node, (node.resolve allocator mode).bare = node.bare
  | .element tag children => by
    rw [resolve, bare, bare, bareTag_resolve, bareAll_resolve]
  | .selfClosing tag => by rw [resolve, bare, bare, bareTag_resolve]
  | .fragment span children => by rw [resolve, bare, bare, bareAll_resolve]
  | .expr _ _ _ => rfl
  | .text _ _ _ _ => rfl
  | .flow _ _ _ _ branches => by rw [resolve, bare, bare, bareBranches_resolve]

theorem bareAll_resolve (allocator : String) (mode : Escaping) :
    ∀ nodes : List Node, bareAll (resolveAll allocator mode nodes) = bareAll nodes
  | [] => rfl
  | node :: nodes => by
    rw [resolveAll, bareAll, bareAll, bare_resolve allocator mode node, bareAll_resolve]

theorem bareTag_resolve (allocator : String) :
    ∀ tag : Tag, bareTag (resolveTag allocator tag) = bareTag tag
  | ⟨span, name, kind, attributes, _, _⟩ => by
    rw [resolveTag, bareTag, bareTag, bareAttributes_resolve]

theorem bareAttributes_resolve (allocator : String) : ∀ attributes : List Attribute,
    bareAttributes (resolveAttributes allocator attributes) = bareAttributes attributes
  | [] => rfl
  | .static span name (.node node) :: rest => by
    rw [resolveAttributes, bareAttributes, bareAttributes, bare_resolve, bareAttributes_resolve]
  | .static _ _ (.literal _) :: rest => congrArg (_ :: ·) (bareAttributes_resolve allocator rest)
  | .static _ _ (.expr _) :: rest => congrArg (_ :: ·) (bareAttributes_resolve allocator rest)
  | .static _ _ .flag :: rest => congrArg (_ :: ·) (bareAttributes_resolve allocator rest)
  | .builtin _ _ _ :: rest => congrArg (_ :: ·) (bareAttributes_resolve allocator rest)
  | .shorthand _ _ :: rest => congrArg (_ :: ·) (bareAttributes_resolve allocator rest)
  | .builtinShorthand _ _ :: rest => congrArg (_ :: ·) (bareAttributes_resolve allocator rest)
  | .spread _ _ :: rest => congrArg (_ :: ·) (bareAttributes_resolve allocator rest)
  | .formatted _ _ _ _ :: rest => congrArg (_ :: ·) (bareAttributes_resolve allocator rest)

theorem bareBranches_resolve (allocator : String) (mode : Escaping) : ∀ branches : List Branch,
    bareBranches (resolveBranches allocator mode branches) = bareBranches branches
  | [] => rfl
  | ⟨_, _, _, .node node⟩ :: rest => by
    rw [resolveBranches, bareBranches, bareBranches, bare_dropPadding, bare_resolve,
      bareBranches_resolve]
  | ⟨_, _, _, .list nodes⟩ :: rest => by
    have hall : bareAll ((resolveAll allocator mode nodes).map dropPadding) = bareAll nodes := by
      rw [← bareAll_resolve allocator mode nodes, bareAll_eq_map, bareAll_eq_map, List.map_map]
      exact List.map_congr_left fun node _ => bare_dropPadding node
    rw [resolveBranches, bareBranches, bareBranches, hall, bareBranches_resolve]
end

end Node

/-- Resolving changes no field but the resolved ones. -/
theorem Template.bare_resolve (template : Template) (allocator : String) :
    (template.resolve allocator).bare = template.bare := by
  rw [Template.bare, Template.bare, Template.resolve, Node.bare_resolve]

/-- Every place of a resolved template is supplied. -/
theorem Template.supplied_resolve (template : Template) (allocator : String) {tags : List Tag}
    {node : Node} (h : node.Under tags (template.resolve allocator).node) :
    node.Supplied allocator tags := by
  have hforce : Node.InForce allocator [] allocator := ⟨.fallback, rfl⟩
  simpa using Node.supplied_of_under template.node hforce h

end ZigMarkup
