import ZigMarkup.Proofs.Lowered

/-!
The text runs and expression blocks of a template, each with the tag that it stands under:
the nearest one, looking through fragments and control flow only. What stands in the value of
an attribute is under no tag until one is opened there. Tags are told apart by the steps that
lead to them from the root.
-/
namespace ZigMarkup

/-- A step from a node to one of its parts. -/
inductive Step where
  | value (index : Nat)
  | child (index : Nat)
  | branch (index item : Nat)
deriving DecidableEq, Repr

abbrev Path := List Step

/-- A text run or an expression block and the tag that it stands under. -/
structure Leaf where
  owner : Option (Path × Tag)
  node : Node

namespace Node

mutual
/-- Induction on nodes: what holds of a node if it holds of all its parts holds of all nodes. -/
theorem induction_on_parts {P : Node → Prop} (h : ∀ node, (∀ n ∈ node.parts, P n) → P node) :
    ∀ node, P node
  | .element ⟨_, _, _, attributes, _, _⟩ children => h _ fun n hn => by
    rcases List.mem_append.mp hn with hn | hn
    · exact attributes_induction h attributes n hn
    · exact nodes_induction h children n hn
  | .selfClosing ⟨_, _, _, attributes, _, _⟩ => h _ (attributes_induction h attributes)
  | .fragment _ children => h _ (nodes_induction h children)
  | .expr _ _ _ => h _ (by simp [parts])
  | .text _ _ _ _ => h _ (by simp [parts])
  | .flow _ _ _ _ branches => h _ (branches_induction h branches)

theorem nodes_induction {P : Node → Prop} (h : ∀ node, (∀ n ∈ node.parts, P n) → P node) :
    ∀ (nodes : List Node), ∀ n ∈ nodes, P n
  | [], _, hn => by simp at hn
  | node :: nodes, n, hn => by
    rcases List.mem_cons.mp hn with heq | hn
    · rw [heq]
      exact induction_on_parts h node
    · exact nodes_induction h nodes n hn

theorem attributes_induction {P : Node → Prop} (h : ∀ node, (∀ n ∈ node.parts, P n) → P node) :
    ∀ (attributes : List Attribute), ∀ n ∈ attributes.filterMap Attribute.node?, P n
  | [], _, hn => by simp at hn
  | .static _ _ (.node node) :: attributes, n, hn => by
    rcases List.mem_cons.mp hn with heq | hn
    · rw [heq]
      exact induction_on_parts h node
    · exact attributes_induction h attributes n hn
  | .static _ _ (.literal _) :: attributes, n, hn => attributes_induction h attributes n hn
  | .static _ _ (.expr _) :: attributes, n, hn => attributes_induction h attributes n hn
  | .static _ _ .flag :: attributes, n, hn => attributes_induction h attributes n hn
  | .builtin _ _ _ :: attributes, n, hn => attributes_induction h attributes n hn
  | .shorthand _ _ :: attributes, n, hn => attributes_induction h attributes n hn
  | .builtinShorthand _ _ :: attributes, n, hn => attributes_induction h attributes n hn
  | .spread _ _ :: attributes, n, hn => attributes_induction h attributes n hn
  | .formatted _ _ _ _ :: attributes, n, hn => attributes_induction h attributes n hn

theorem branches_induction {P : Node → Prop} (h : ∀ node, (∀ n ∈ node.parts, P n) → P node) :
    ∀ (branches : List Branch), ∀ n ∈ branches.flatMap (fun b => b.body.all), P n
  | [], _, hn => by simp at hn
  | ⟨_, _, _, .node node⟩ :: branches, n, hn => by
    rcases List.mem_append.mp hn with hn | hn
    · rw [List.mem_singleton.mp hn]
      exact induction_on_parts h node
    · exact branches_induction h branches n hn
  | ⟨_, _, _, .list nodes⟩ :: branches, n, hn => by
    rcases List.mem_append.mp hn with hn | hn
    · exact nodes_induction h nodes n hn
    · exact branches_induction h branches n hn
end

/-- The mode of a text run or an expression block. -/
def escaping? : Node → Option Escaping
  | expr _ _ mode => some mode
  | text _ _ mode _ => some mode
  | _ => none

mutual
/-- The leaves of a node in the order in which they are written. -/
def leaves (path : Path) (owner : Option (Path × Tag)) : Node → List Leaf
  | element ⟨span, name, kind, attributes, mode, allocator⟩ children =>
    attributeLeaves path 0 attributes ++
      childLeaves path (some (path, ⟨span, name, kind, attributes, mode, allocator⟩)) 0 children
  | selfClosing ⟨_, _, _, attributes, _, _⟩ => attributeLeaves path 0 attributes
  | fragment _ children => childLeaves path owner 0 children
  | expr span code mode => [⟨owner, expr span code mode⟩]
  | text span raw mode content => [⟨owner, text span raw mode content⟩]
  | flow _ _ _ _ branches => branchLeaves path owner 0 branches

def childLeaves (path : Path) (owner : Option (Path × Tag)) (index : Nat) : List Node → List Leaf
  | [] => []
  | node :: nodes =>
    leaves (path ++ [.child index]) owner node ++ childLeaves path owner (index + 1) nodes

/-- Only attributes with a template in them are counted. -/
def attributeLeaves (path : Path) (index : Nat) : List Attribute → List Leaf
  | [] => []
  | .static _ _ (.node node) :: rest =>
    leaves (path ++ [.value index]) none node ++ attributeLeaves path (index + 1) rest
  | _ :: rest => attributeLeaves path index rest

def branchLeaves (path : Path) (owner : Option (Path × Tag)) (index : Nat) :
    List Branch → List Leaf
  | [] => []
  | ⟨_, _, _, .node node⟩ :: rest =>
    leaves (path ++ [.branch index 0]) owner node ++ branchLeaves path owner (index + 1) rest
  | ⟨_, _, _, .list nodes⟩ :: rest =>
    itemLeaves path owner index 0 nodes ++ branchLeaves path owner (index + 1) rest

def itemLeaves (path : Path) (owner : Option (Path × Tag)) (index item : Nat) :
    List Node → List Leaf
  | [] => []
  | node :: nodes => leaves (path ++ [.branch index item]) owner node ++
      itemLeaves path owner index (item + 1) nodes
end

theorem childLeaves_eq (path : Path) (owner : Option (Path × Tag)) (index : Nat)
    (nodes : List Node) : childLeaves path owner index nodes =
      (nodes.zipIdx index).flatMap fun p => p.1.leaves (path ++ [.child p.2]) owner := by
  induction nodes generalizing index with
  | nil => rfl
  | cons node nodes ih => rw [childLeaves, ih, List.zipIdx_cons, List.flatMap_cons]

theorem itemLeaves_eq (path : Path) (owner : Option (Path × Tag)) (index item : Nat)
    (nodes : List Node) : itemLeaves path owner index item nodes =
      (nodes.zipIdx item).flatMap fun p => p.1.leaves (path ++ [.branch index p.2]) owner := by
  induction nodes generalizing item with
  | nil => rfl
  | cons node nodes ih => rw [itemLeaves, ih, List.zipIdx_cons, List.flatMap_cons]

theorem attributeLeaves_eq (path : Path) (index : Nat) (attributes : List Attribute) :
    attributeLeaves path index attributes =
      ((attributes.filterMap Attribute.node?).zipIdx index).flatMap fun p =>
        p.1.leaves (path ++ [.value p.2]) none := by
  induction attributes generalizing index with
  | nil => rfl
  | cons a rest ih =>
    match a with
    | .static _ _ (.node node) =>
      rw [attributeLeaves, ih]
      rfl
    | .static _ _ (.literal _) | .static _ _ (.expr _) | .static _ _ .flag => exact ih index
    | .builtin _ _ _ | .shorthand _ _ | .builtinShorthand _ _ => exact ih index
    | .spread _ _ | .formatted _ _ _ _ => exact ih index

theorem branchLeaves_eq (path : Path) (owner : Option (Path × Tag)) (index : Nat)
    (branches : List Branch) : branchLeaves path owner index branches =
      (branches.zipIdx index).flatMap fun p => p.1.body.all.zipIdx.flatMap fun q =>
        q.1.leaves (path ++ [.branch p.2 q.2]) owner := by
  induction branches generalizing index with
  | nil => rfl
  | cons branch rest ih =>
    obtain ⟨span, head, capture, body⟩ := branch
    cases body with
    | node n =>
      rw [branchLeaves, ih, List.zipIdx_cons, List.flatMap_cons]
      simp [Body.all]
    | list ns =>
      rw [branchLeaves, ih, itemLeaves_eq]
      rfl

/-- Where a part stands: the steps to it, the tag that it stands under, and the part itself. -/
def places (path : Path) (owner : Option (Path × Tag)) :
    Node → List (Path × Option (Path × Tag) × Node)
  | element tag children =>
    ((tag.attributes.filterMap Attribute.node?).zipIdx.map fun p =>
      (path ++ [.value p.2], none, p.1)) ++
    children.zipIdx.map fun p => (path ++ [.child p.2], some (path, tag), p.1)
  | selfClosing tag => (tag.attributes.filterMap Attribute.node?).zipIdx.map fun p =>
      (path ++ [.value p.2], none, p.1)
  | fragment _ children => children.zipIdx.map fun p => (path ++ [.child p.2], owner, p.1)
  | expr _ _ _ => []
  | text _ _ _ _ => []
  | flow _ _ _ _ branches => branches.zipIdx.flatMap fun p => p.1.body.all.zipIdx.map fun q =>
      (path ++ [.branch p.2 q.2], owner, q.1)

/-- The leaves of a node that is none are the leaves of its parts. -/
theorem leaves_eq (path : Path) (owner : Option (Path × Tag)) (node : Node) :
    node.leaves path owner = (if node.escaping?.isSome then [⟨owner, node⟩] else []) ++
      (node.places path owner).flatMap fun p => p.2.2.leaves p.1 p.2.1 := by
  cases node with
  | element tag children =>
    obtain ⟨span, name, kind, attributes, mode, allocator⟩ := tag
    rw [leaves, attributeLeaves_eq, childLeaves_eq, places, List.flatMap_append, List.flatMap_map,
      List.flatMap_map]
    rfl
  | selfClosing tag =>
    obtain ⟨span, name, kind, attributes, mode, allocator⟩ := tag
    rw [leaves, attributeLeaves_eq, places, List.flatMap_map]
    rfl
  | fragment span children =>
    rw [leaves, childLeaves_eq, places, List.flatMap_map]
    rfl
  | expr => rfl
  | text => rfl
  | flow span kind subject allocator branches =>
    rw [leaves, branchLeaves_eq, places, List.flatMap_assoc]
    simp only [List.flatMap_map]
    rfl

theorem parts_eq_map_places (path : Path) (owner : Option (Path × Tag)) (node : Node) :
    node.parts = (node.places path owner).map (·.2.2) := by
  have hindexed : ∀ (nodes : List Node) (step : Nat → Step) (under : Option (Path × Tag)),
      (nodes.zipIdx.map fun p => (path ++ [step p.2], under, p.1)).map (·.2.2) = nodes := by
    intro nodes step under
    rw [List.map_map]
    exact List.zipIdx_map_fst 0 nodes
  cases node with
  | element tag children => rw [parts, places, List.map_append, hindexed, hindexed]
  | selfClosing tag => rw [parts, places, hindexed]
  | fragment span children => rw [parts, places, hindexed]
  | expr => rfl
  | text => rfl
  | flow span kind subject allocator branches =>
    rw [parts, places, List.map_flatMap]
    simp only [fun (p : Branch × Nat) => hindexed p.1.body.all (.branch p.2) owner]
    rw [← List.flatMap_map Prod.fst fun b : Branch => b.body.all, List.zipIdx_map_fst]

/-- A part stands under no tag, under the tag around its node, or under its node. -/
theorem owner_of_mem_places {node : Node} {path : Path} {owner : Option (Path × Tag)}
    {p : Path × Option (Path × Tag) × Node} (h : p ∈ node.places path owner) :
    p.2.1 = none ∨ p.2.1 = owner ∨
      ∃ tag children, p.2.1 = some (path, tag) ∧ node = .element tag children := by
  cases node with
  | element tag children =>
    rcases List.mem_append.mp h with h | h
    · obtain ⟨_, _, rfl⟩ := List.mem_map.mp h
      exact Or.inl rfl
    · obtain ⟨_, _, rfl⟩ := List.mem_map.mp h
      exact Or.inr (Or.inr ⟨tag, children, rfl, rfl⟩)
  | selfClosing tag =>
    obtain ⟨_, _, rfl⟩ := List.mem_map.mp h
    exact Or.inl rfl
  | fragment span children =>
    obtain ⟨_, _, rfl⟩ := List.mem_map.mp h
    exact Or.inr (Or.inl rfl)
  | expr => cases h
  | text => cases h
  | flow span kind subject allocator branches =>
    obtain ⟨_, _, h⟩ := List.mem_flatMap.mp h
    obtain ⟨_, _, rfl⟩ := List.mem_map.mp h
    exact Or.inr (Or.inl rfl)

/-- A leaf stands under no tag, under the tag around the root, or under a tag in the root. -/
theorem owner_of_mem_leaves (root : Node) : ∀ {path : Path} {owner : Option (Path × Tag)}
    {leaf : Leaf}, leaf ∈ root.leaves path owner → leaf.owner = none ∨ leaf.owner = owner ∨
      ∃ place tag children, leaf.owner = some (place, tag) ∧
        (element tag children).Within root := by
  induction root using induction_on_parts with
  | h root ih =>
    intro path owner leaf hleaf
    rw [leaves_eq] at hleaf
    rcases List.mem_append.mp hleaf with hleaf | hleaf
    · split at hleaf
      · rw [List.mem_singleton.mp hleaf]
        exact Or.inr (Or.inl rfl)
      · cases hleaf
    · obtain ⟨p, hp, hleaf⟩ := List.mem_flatMap.mp hleaf
      have hpart : p.2.2 ∈ root.parts := by
        rw [parts_eq_map_places path owner]
        exact List.mem_map_of_mem hp
      rcases ih p.2.2 hpart hleaf with hnone | hsame | ⟨place, tag, children, hown, hwithin⟩
      · exact Or.inl hnone
      · rw [hsame]
        rcases owner_of_mem_places hp with hnone | hup | ⟨tag, children, hown, rfl⟩
        · exact Or.inl hnone
        · exact Or.inr (Or.inl hup)
        · exact Or.inr (Or.inr ⟨path, tag, children, hown, .refl _⟩)
      · exact Or.inr (Or.inr ⟨place, tag, children, hown, .part hpart hwithin⟩)

/-- Every text run and every expression block is among the leaves. -/
theorem exists_leaf_of_within {root node : Node} (h : node.Within root)
    (hnode : node.escaping?.isSome) : ∀ (path : Path) (owner : Option (Path × Tag)),
    ∃ leaf ∈ root.leaves path owner, leaf.node = node := by
  induction h with
  | refl =>
    intro path owner
    refine ⟨⟨owner, _⟩, ?_, rfl⟩
    rw [leaves_eq, if_pos hnode]
    exact List.mem_append_left _ (List.mem_singleton.mpr rfl)
  | part hpart _ ih =>
    intro path owner
    rw [parts_eq_map_places path owner] at hpart
    obtain ⟨p, hp, rfl⟩ := List.mem_map.mp hpart
    obtain ⟨leaf, hleaf, heq⟩ := ih p.1 p.2.1
    refine ⟨leaf, ?_, heq⟩
    rw [leaves_eq]
    exact List.mem_append_right _ (List.mem_flatMap.mpr ⟨p, hp, hleaf⟩)

end Node

end ZigMarkup
