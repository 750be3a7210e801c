import ZigMarkup.Proofs.Leaves
import ZigMarkup.Template.Resolve

/-!
What resolving a template keeps. It works on each attribute, node and branch on its own and
changes nothing but modes, allocators and the content of text, so constructs, heads of branches
and builtins are what they were, and a template that was accepted stays as it was accepted.
-/
namespace ZigMarkup

/-- An attribute with the template in its value resolved. -/
def Attribute.resolve (allocator : String) : Attribute → Attribute
  | .static span name (.node node) => .static span name (.node (node.resolve allocator .html))
  | a => a

/-- A body with its nodes resolved and its padding dropped. -/
def Body.resolve (allocator : String) (mode : Escaping) : Body → Body
  | .node n => .node (n.resolve allocator mode).dropPadding
  | .list ns => .list (ns.map fun n => (n.resolve allocator mode).dropPadding)

namespace Node

theorem resolveAll_eq_map (allocator : String) (mode : Escaping) (nodes : List Node) :
    resolveAll allocator mode nodes = nodes.map (resolve allocator mode) := by
  induction nodes with
  | nil => rfl
  | cons node nodes ih => rw [resolveAll, ih, List.map_cons]

theorem resolveAttributes_eq_map (allocator : String) (attributes : List Attribute) :
    resolveAttributes allocator attributes = attributes.map (Attribute.resolve allocator) := by
  induction attributes with
  | nil => rfl
  | cons a attributes ih =>
    have hcons : resolveAttributes allocator (a :: attributes) =
        a.resolve allocator :: resolveAttributes allocator attributes := by
      match a with
      | .static _ _ (.node _) => rfl
      | .static _ _ (.literal _) | .static _ _ (.expr _) | .static _ _ .flag => rfl
      | .builtin _ _ _ | .shorthand _ _ | .builtinShorthand _ _ => rfl
      | .spread _ _ | .formatted _ _ _ _ => rfl
    rw [hcons, ih, List.map_cons]

theorem resolveBranches_eq_map (allocator : String) (mode : Escaping) (branches : List Branch) :
    resolveBranches allocator mode branches =
      branches.map fun b => { b with body := b.body.resolve allocator mode } := by
  induction branches with
  | nil => rfl
  | cons branch branches ih =>
    obtain ⟨span, head, capture, body⟩ := branch
    cases body with
    | node n => rw [resolveBranches, ih]; rfl
    | list ns => rw [resolveBranches, ih, resolveAll_eq_map, List.map_map]; rfl

@[simp] theorem isText_resolve (allocator : String) (mode : Escaping) (node : Node) :
    (node.resolve allocator mode).isText = node.isText := by
  cases node <;> rfl

@[simp] theorem isText_dropPadding (node : Node) : node.dropPadding.isText = node.isText := by
  cases node <;> rfl

end Node

namespace Attribute

theorem static_or_resolve_eq (a : Attribute) :
    (∃ span name node, a = .static span name (.node node)) ∨
      a.node? = none ∧ ∀ allocator, a.resolve allocator = a := by
  match a with
  | .static span name (.node node) => exact Or.inl ⟨span, name, node, rfl⟩
  | .static _ _ (.literal _) | .static _ _ (.expr _) | .static _ _ .flag =>
    exact Or.inr ⟨rfl, fun _ => rfl⟩
  | .builtin _ _ _ | .shorthand _ _ | .builtinShorthand _ _ => exact Or.inr ⟨rfl, fun _ => rfl⟩
  | .spread _ _ | .formatted _ _ _ _ => exact Or.inr ⟨rfl, fun _ => rfl⟩

@[simp] theorem builtin?_resolve (allocator : String) (a : Attribute) :
    (a.resolve allocator).builtin? = a.builtin? := by
  rcases a.static_or_resolve_eq with ⟨span, name, node, rfl⟩ | ⟨_, h⟩
  · rfl
  · rw [h]

@[simp] theorem builtinValue?_resolve (b : Builtin) (allocator : String) (a : Attribute) :
    (a.resolve allocator).builtinValue? b = a.builtinValue? b := by
  rcases a.static_or_resolve_eq with ⟨span, name, node, rfl⟩ | ⟨_, h⟩
  · rfl
  · rw [h]

@[simp] theorem node?_resolve (allocator : String) (a : Attribute) :
    (a.resolve allocator).node? = a.node?.map (Node.resolve allocator .html) := by
  rcases a.static_or_resolve_eq with ⟨span, name, node, rfl⟩ | ⟨hnode, h⟩
  · rfl
  · rw [h, hnode, Option.map_none]

theorem Lowered.resolve {a : Attribute} (h : a.Lowered) (allocator : String) :
    (a.resolve allocator).Lowered := by
  rcases a.static_or_resolve_eq with ⟨span, name, node, rfl⟩ | ⟨_, heq⟩
  · exact (Node.isText_resolve allocator .html node).trans h
  · rwa [heq]

end Attribute

theorem builtinValue?_map_resolve (allocator : String) (attributes : List Attribute) (b : Builtin) :
    builtinValue? (attributes.map (Attribute.resolve allocator)) b = builtinValue? attributes b := by
  rw [builtinValue?, List.findSome?_map]
  exact congrArg (List.findSome? · attributes)
    (funext fun a => Attribute.builtinValue?_resolve b allocator a)

theorem Body.all_resolve (allocator : String) (mode : Escaping) (body : Body) :
    (body.resolve allocator mode).all =
      body.all.map fun n => (n.resolve allocator mode).dropPadding := by
  cases body <;> rfl

theorem Body.Lowered.resolve {body : Body} (h : body.Lowered) (allocator : String)
    (mode : Escaping) : (body.resolve allocator mode).Lowered := by
  cases body with
  | node n =>
    have hn : n.isText = false := h
    exact (Node.isText_dropPadding _).trans ((Node.isText_resolve allocator mode n).trans hn)
  | list ns => trivial

namespace Tag

theorem name_resolve (allocator : String) (tag : Tag) :
    (Node.resolveTag allocator tag).name = tag.name := by
  cases tag
  rfl

theorem attributes_resolve (allocator : String) (tag : Tag) :
    (Node.resolveTag allocator tag).attributes = tag.attributes.map
      (Attribute.resolve (Node.resolveTag allocator tag).allocator) := by
  cases tag
  exact Node.resolveAttributes_eq_map ..

theorem allocator_resolve (allocator : String) (tag : Tag) :
    (Node.resolveTag allocator tag).allocator = (tag.builtin? .allocator).getD allocator := by
  cases tag
  rfl

/-- The templates in the attributes of a resolved tag. -/
theorem nodes_resolve (allocator : String) (tag : Tag) :
    (Node.resolveTag allocator tag).attributes.filterMap Attribute.node? =
      (tag.attributes.filterMap Attribute.node?).map
        (Node.resolve ((tag.builtin? .allocator).getD allocator) .html) := by
  rw [attributes_resolve, allocator_resolve, List.filterMap_map, List.map_filterMap]
  exact congrArg (List.filterMap · tag.attributes) (funext fun a => Attribute.node?_resolve _ a)

theorem Lowered.resolve {tag : Tag} (h : tag.Lowered) (allocator : String) :
    (Node.resolveTag allocator tag).Lowered := by
  constructor
  · rw [attributes_resolve, List.filterMap_map]
    have hsame : Attribute.builtin? ∘ Attribute.resolve (Node.resolveTag allocator tag).allocator =
        Attribute.builtin? := funext fun a => Attribute.builtin?_resolve _ a
    rw [hsame]
    exact h.builtins
  · intro a ha
    rw [attributes_resolve] at ha
    obtain ⟨original, horiginal, rfl⟩ := List.mem_map.mp ha
    exact (h.attributes original horiginal).resolve _

end Tag

/-- The mode that holds under a tag, and under none. -/
def modeUnder : Option (Path × Tag) → Escaping
  | none => .html
  | some (_, tag) => tag.escaping

namespace Node

/-- A part of a resolved node is resolved with the mode of the tag that it stands under. -/
theorem mem_places_resolve {node : Node} {allocator : String} {path : Path}
    {owner : Option (Path × Tag)} {p : Path × Option (Path × Tag) × Node}
    (h : p ∈ (node.resolve allocator (modeUnder owner)).places path owner) :
    ∃ part ∈ node.parts, ∃ allocator, p.2.2 = part.resolve allocator (modeUnder p.2.1) ∨
      p.2.2 = (part.resolve allocator (modeUnder p.2.1)).dropPadding := by
  have hattributes : ∀ tag : Tag,
      p ∈ ((resolveTag allocator tag).attributes.filterMap Attribute.node?).zipIdx.map
        (fun q => (path ++ [.value q.2], none, q.1)) →
      ∃ part ∈ tag.attributes.filterMap Attribute.node?, ∃ allocator,
        p.2.2 = part.resolve allocator (modeUnder p.2.1) := by
    intro tag hp
    obtain ⟨q, hq, rfl⟩ := List.mem_map.mp hp
    have hmem := List.fst_mem_of_mem_zipIdx hq
    rw [Tag.nodes_resolve] at hmem
    obtain ⟨part, hpart, heq⟩ := List.mem_map.mp hmem
    exact ⟨part, hpart, _, heq.symm⟩
  have hchildren : ∀ allocator owner nodes,
      p ∈ (resolveAll allocator (modeUnder owner) nodes).zipIdx.map
        (fun q => (path ++ [.child q.2], owner, q.1)) →
      ∃ part ∈ nodes, ∃ allocator, p.2.2 = part.resolve allocator (modeUnder p.2.1) := by
    intro allocator owner nodes hp
    obtain ⟨q, hq, rfl⟩ := List.mem_map.mp hp
    have hmem := List.fst_mem_of_mem_zipIdx hq
    rw [resolveAll_eq_map] at hmem
    obtain ⟨part, hpart, heq⟩ := List.mem_map.mp hmem
    exact ⟨part, hpart, allocator, heq.symm⟩
  cases node with
  | element tag children =>
    rcases List.mem_append.mp h with h | h
    · obtain ⟨part, hpart, allocator, heq⟩ := hattributes tag h
      exact ⟨part, List.mem_append_left _ hpart, allocator, Or.inl heq⟩
    · obtain ⟨part, hpart, allocator, heq⟩ := hchildren _ (some (path, _)) children h
      exact ⟨part, List.mem_append_right _ hpart, allocator, Or.inl heq⟩
  | selfClosing tag =>
    obtain ⟨part, hpart, allocator, heq⟩ := hattributes tag h
    exact ⟨part, hpart, allocator, Or.inl heq⟩
  | fragment span children =>
    obtain ⟨part, hpart, allocator, heq⟩ := hchildren allocator owner children h
    exact ⟨part, hpart, allocator, Or.inl heq⟩
  | expr => cases h
  | text => cases h
  | flow span kind subject _ branches =>
    rw [resolve, places, resolveBranches_eq_map] at h
    obtain ⟨⟨b, index⟩, hb, hp⟩ := List.mem_flatMap.mp h
    obtain ⟨q, hq, rfl⟩ := List.mem_map.mp hp
    obtain ⟨original, horiginal, rfl⟩ := List.mem_map.mp (List.fst_mem_of_mem_zipIdx hb)
    have hmem := List.fst_mem_of_mem_zipIdx hq
    rw [Body.all_resolve] at hmem
    obtain ⟨part, hpart, heq⟩ := List.mem_map.mp hmem
    exact ⟨part, List.mem_flatMap.mpr ⟨original, horiginal, hpart⟩, allocator, Or.inr heq.symm⟩

/-- The parts of a resolved node are the parts of the node, resolved. -/
theorem mem_parts_resolve {node n : Node} {allocator : String} {mode : Escaping}
    (h : n ∈ (node.resolve allocator mode).parts) : ∃ part ∈ node.parts, ∃ allocator mode,
      n = part.resolve allocator mode ∨ n = (part.resolve allocator mode).dropPadding := by
  let owner : Option (Path × Tag) := some ([], ⟨⟨0, 0⟩, "", .element, [], mode, ""⟩)
  rw [parts_eq_map_places [] owner] at h
  obtain ⟨p, hp, rfl⟩ := List.mem_map.mp h
  have hplace : p ∈ (node.resolve allocator (modeUnder owner)).places [] owner := hp
  obtain ⟨part, hpart, allocator, heq⟩ := mem_places_resolve hplace
  exact ⟨part, hpart, allocator, _, heq⟩

theorem Lowered.resolve {node : Node} (h : node.Lowered) (allocator : String) (mode : Escaping) :
    (node.resolve allocator mode).Lowered := by
  cases node with
  | element tag children => exact Tag.Lowered.resolve h allocator
  | selfClosing tag => exact Tag.Lowered.resolve h allocator
  | flow span kind subject _ branches =>
    rw [Node.resolve, Lowered, resolveBranches_eq_map, List.map_map]
    refine ⟨h.1, fun b hb => ?_⟩
    obtain ⟨original, horiginal, rfl⟩ := List.mem_map.mp hb
    exact (h.2 original horiginal).resolve allocator mode
  | _ => trivial

/-- What resolving brings about at each node, it brings about everywhere. -/
theorem resolve_everywhere {P Q : Node → Prop}
    (h : ∀ node allocator mode, Q node → P (node.resolve allocator mode))
    (htext : ∀ span raw mode content, P (.text span raw mode content)) (node : Node) :
    ∀ (allocator : String) (mode : Escaping), node.Everywhere Q →
      (node.resolve allocator mode).Everywhere P := by
  have hpadding : ∀ node : Node, node.Everywhere P → node.dropPadding.Everywhere P := by
    intro node hnode
    cases node with
    | text => exact everywhere_iff.mpr ⟨htext .., by simp [dropPadding, parts]⟩
    | _ => exact hnode
  induction node using induction_on_parts with
  | h node ih =>
    intro allocator mode hnode
    refine everywhere_iff.mpr ⟨h node allocator mode hnode.here, fun n hn => ?_⟩
    obtain ⟨part, hpart, allocator, mode, rfl | rfl⟩ := mem_parts_resolve hn
    · exact ih part hpart allocator mode (hnode.part hpart)
    · exact hpadding _ (ih part hpart allocator mode (hnode.part hpart))

theorem resolve_lowered (node : Node) (allocator : String) (mode : Escaping)
    (h : node.Everywhere Lowered) : (node.resolve allocator mode).Everywhere Lowered :=
  resolve_everywhere (fun _ allocator mode hnode => hnode.resolve allocator mode)
    (fun _ _ _ _ => trivial) node allocator mode h

end Node

theorem resolve_lowered_of_templatesOf {source : Bytes} {templates : List Template}
    (h : templatesOf source (parse source) = .ok templates) {template : Template}
    (ht : template ∈ templates) (allocator : String) :
    (template.resolve allocator).node.Everywhere Node.Lowered :=
  Node.resolve_lowered template.node allocator .html (lowered_of_templatesOf h ht)

end ZigMarkup
