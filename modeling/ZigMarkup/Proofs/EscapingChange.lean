import ZigMarkup.Proofs.Modes

/-!
Changing the `@escaping` of one tag. All leaves that stand under another tag, or under none,
keep their mode and content: what the changed mode reaches is the text and the expressions
that stand under that very tag.
-/
namespace ZigMarkup

/-- The attribute with its value replaced, if it is `@escaping`. -/
def Attribute.withEscaping (value : String) : Attribute → Attribute
  | .builtin span .escaping _ => .builtin span .escaping value
  | a => a

def Tag.withEscaping (value : String) (tag : Tag) : Tag :=
  { tag with attributes := tag.attributes.map (Attribute.withEscaping value) }

/-- Changes the template in the value of one attribute, counting those that have one. -/
def modifyNode (index : Nat) (f : Node → Node) : List Attribute → List Attribute
  | [] => []
  | .static span name (.node node) :: rest =>
    match index with
    | 0 => .static span name (.node (f node)) :: rest
    | index + 1 => .static span name (.node node) :: modifyNode index f rest
  | a :: rest => a :: modifyNode index f rest

def Tag.modifyNode (index : Nat) (f : Node → Node) (tag : Tag) : Tag :=
  { tag with attributes := ZigMarkup.modifyNode index f tag.attributes }

def Body.modify (item : Nat) (f : Node → Node) : Body → Body
  | .node n => match item with
    | 0 => .node (f n)
    | _ + 1 => .node n
  | .list ns => .list (ns.modify item f)

/-- The node with the `@escaping` of the tag at a place set to a value. -/
def Node.rescape (value : String) : Path → Node → Node
  | [], .element tag children => .element (tag.withEscaping value) children
  | [], .selfClosing tag => .selfClosing (tag.withEscaping value)
  | .value index :: path, .element tag children =>
    .element (tag.modifyNode index (rescape value path)) children
  | .value index :: path, .selfClosing tag =>
    .selfClosing (tag.modifyNode index (rescape value path))
  | .child index :: path, .element tag children =>
    .element tag (children.modify index (rescape value path))
  | .child index :: path, .fragment span children =>
    .fragment span (children.modify index (rescape value path))
  | .branch index item :: path, .flow span kind subject allocator branches =>
    .flow span kind subject allocator (branches.modify index fun b =>
      { b with body := b.body.modify item (rescape value path) })
  | _, node => node

/-- A leaf as it is told apart from others: by the place of its tag. -/
def Leaf.mark (leaf : Leaf) : Option Path × Node := (leaf.owner.map Prod.fst, leaf.node)

namespace Node

/-- The leaves of a node that do not stand under the tag at `place`. -/
def marksApart (place path : Path) (owner : Option (Path × Tag)) (node : Node) :
    List (Option Path × Node) :=
  ((node.leaves path owner).map Leaf.mark).filter (·.1 ≠ some place)

theorem flatMap_zipIdx_modify {α β : Type} {f : α → α} {g : α × Nat → List β} (as : List α)
    (index start : Nat) (h : ∀ a, g (f a, start + index) = g (a, start + index)) :
    ((as.modify index f).zipIdx start).flatMap g = (as.zipIdx start).flatMap g := by
  induction as generalizing index start with
  | nil => simp
  | cons a as ih =>
    cases index with
    | zero => simpa using h a
    | succ index =>
      rw [List.modify_succ_cons, List.zipIdx_cons, List.zipIdx_cons, List.flatMap_cons,
        List.flatMap_cons, ih index (start + 1)]
      intro b
      have hindex : start + 1 + index = start + (index + 1) := by omega
      rw [hindex]
      exact h b

section Marks

variable (place path : Path) (owner : Option (Path × Tag))

theorem marksApart_eq (node : Node) : node.marksApart place path owner =
    ((if node.escaping?.isSome then [(owner.map Prod.fst, node)] else []).filter
      (·.1 ≠ some place)) ++
      (node.places path owner).flatMap fun p => p.2.2.marksApart place p.1 p.2.1 := by
  rw [marksApart, leaves_eq, List.map_append, List.filter_append, List.map_flatMap,
    List.filter_flatMap]
  congr 1
  split <;> rfl

theorem marksApart_element (tag : Tag) (children : List Node) :
    (element tag children).marksApart place path owner =
      ((tag.attributes.filterMap Attribute.node?).zipIdx.flatMap fun p =>
        p.1.marksApart place (path ++ [.value p.2]) none) ++
      children.zipIdx.flatMap fun p =>
        p.1.marksApart place (path ++ [.child p.2]) (some (path, tag)) := by
  rw [marksApart_eq, places, List.flatMap_append, List.flatMap_map, List.flatMap_map]
  rfl

theorem marksApart_selfClosing (tag : Tag) :
    (selfClosing tag).marksApart place path owner =
      (tag.attributes.filterMap Attribute.node?).zipIdx.flatMap fun p =>
        p.1.marksApart place (path ++ [.value p.2]) none := by
  rw [marksApart_eq, places, List.flatMap_map]
  rfl

theorem marksApart_fragment (span : Span) (children : List Node) :
    (fragment span children).marksApart place path owner =
      children.zipIdx.flatMap fun p =>
        p.1.marksApart place (path ++ [.child p.2]) owner := by
  rw [marksApart_eq, places, List.flatMap_map]
  rfl

theorem marksApart_flow (span : Span) (kind : FlowKind) (subject : Option String)
    (allocator : String) (branches : List Branch) :
    (flow span kind subject allocator branches).marksApart place path owner =
      branches.zipIdx.flatMap fun p => p.1.body.all.zipIdx.flatMap fun q =>
        q.1.marksApart place (path ++ [.branch p.2 q.2]) owner := by
  rw [marksApart_eq, places, List.flatMap_assoc]
  simp only [List.flatMap_map]
  rfl

end Marks

variable {place path : Path} {owner other : Option (Path × Tag)}

theorem flatMap_zipIdx_congr {α β : Type} {as : List α} {start : Nat} {f g : α × Nat → List β}
    (h : ∀ a ∈ as, ∀ index, f (a, index) = g (a, index)) :
    (as.zipIdx start).flatMap f = (as.zipIdx start).flatMap g := by
  rw [List.flatMap_def, List.flatMap_def]
  refine congrArg List.flatten (List.map_congr_left fun p hp => ?_)
  exact h p.1 (List.fst_mem_of_mem_zipIdx hp) p.2

/-- Marks show of a tag no more than its place. -/
theorem marksApart_congr_owner (node : Node) : ∀ {path : Path} {owner other : Option (Path × Tag)},
    owner.map Prod.fst = other.map Prod.fst →
    node.marksApart place path owner = node.marksApart place path other := by
  induction node using induction_on_parts with
  | h node ih =>
    intro path owner other h
    cases node with
    | element tag children => rw [marksApart_element, marksApart_element]
    | selfClosing tag => rw [marksApart_selfClosing, marksApart_selfClosing]
    | fragment span children =>
      rw [marksApart_fragment, marksApart_fragment]
      exact flatMap_zipIdx_congr fun n hn _ => ih n hn h
    | expr => rw [marksApart_eq, marksApart_eq, h]; rfl
    | text => rw [marksApart_eq, marksApart_eq, h]; rfl
    | flow span kind subject allocator branches =>
      rw [marksApart_flow, marksApart_flow]
      refine flatMap_zipIdx_congr fun b hb _ => flatMap_zipIdx_congr fun n hn _ => ?_
      exact ih n (List.mem_flatMap.mpr ⟨b, hb, hn⟩) h

/-- Leaves directly under the tag do not count, so their mode does not matter. -/
theorem marksApart_of_isLeaf {node : Node} (hnode : node.escaping?.isSome)
    (h : owner.map Prod.fst = some place) : node.marksApart place path owner = [] := by
  rw [marksApart_eq, if_pos hnode]
  cases node <;> simp_all [escaping?, places]

theorem dropPadding_of_not_isText {node : Node} (h : node.isText = false) :
    node.dropPadding = node := by
  cases node <;> first | rfl | cases h

/-- The mode around a node reaches only the leaves that stand under the same tag. -/
theorem marksApart_resolve_mode (node : Node) : ∀ {allocator : String} {mode mode' : Escaping}
    {path : Path} {owner other : Option (Path × Tag)},
    owner.map Prod.fst = some place → other.map Prod.fst = some place →
    (node.resolve allocator mode).marksApart place path owner =
      (node.resolve allocator mode').marksApart place path other := by
  induction node using induction_on_parts with
  | h node ih =>
    intro allocator mode mode' path owner other hown hother
    have hsame := hown.trans hother.symm
    cases node with
    | element tag children => exact marksApart_congr_owner _ hsame
    | selfClosing tag => exact marksApart_congr_owner _ hsame
    | fragment span children =>
      rw [resolve, resolve, marksApart_fragment, marksApart_fragment, resolveAll_eq_map,
        resolveAll_eq_map, List.zipIdx_map, List.zipIdx_map, List.flatMap_map, List.flatMap_map]
      exact flatMap_zipIdx_congr fun n hn _ => ih n hn hown hother
    | expr => rw [marksApart_of_isLeaf rfl hown, marksApart_of_isLeaf rfl hother]
    | text => rw [marksApart_of_isLeaf rfl hown, marksApart_of_isLeaf rfl hother]
    | flow span kind subject _ branches =>
      rw [resolve, resolve, marksApart_flow, marksApart_flow, resolveBranches_eq_map,
        resolveBranches_eq_map, List.zipIdx_map, List.zipIdx_map, List.flatMap_map, List.flatMap_map]
      refine flatMap_zipIdx_congr fun b hb _ => ?_
      dsimp only [Prod.map]
      rw [Body.all_resolve, Body.all_resolve, List.zipIdx_map, List.zipIdx_map, List.flatMap_map,
        List.flatMap_map]
      refine flatMap_zipIdx_congr fun n hn _ => ?_
      dsimp only [Prod.map]
      cases htext : n.isText with
      | true =>
        cases n <;> cases htext
        rw [marksApart_of_isLeaf rfl hown, marksApart_of_isLeaf rfl hother]
      | false =>
        rw [dropPadding_of_not_isText (by simpa using htext),
          dropPadding_of_not_isText (by simpa using htext)]
        exact ih n (List.mem_flatMap.mpr ⟨b, hb, hn⟩) hown hother

theorem modifyNode_cons_of_none {a : Attribute} (h : a.node? = none) (index : Nat)
    (f : Node → Node) (rest : List Attribute) :
    modifyNode index f (a :: rest) = a :: modifyNode index f rest := by
  rw [modifyNode]
  rintro span name node rfl
  cases h

theorem filterMap_modifyNode (index : Nat) (f : Node → Node) (attributes : List Attribute) :
    (modifyNode index f attributes).filterMap Attribute.node? =
      (attributes.filterMap Attribute.node?).modify index f := by
  induction attributes generalizing index with
  | nil => simp [modifyNode]
  | cons a rest ih =>
    rcases a.static_or_resolve_eq with ⟨span, name, node, rfl⟩ | ⟨hnone, _⟩
    · cases index with
      | zero => rfl
      | succ index =>
        change node :: (modifyNode index f rest).filterMap Attribute.node? = _
        rw [ih]
        rfl
    · rw [modifyNode_cons_of_none hnone, List.filterMap_cons_none hnone,
        List.filterMap_cons_none hnone, ih]

theorem map_modifyNode {β : Type} {g : Attribute → β} {f : Node → Node}
    (hg : ∀ span name node, g (.static span name (.node (f node))) = g (.static span name (.node node)))
    (index : Nat) (attributes : List Attribute) :
    (modifyNode index f attributes).map g = attributes.map g := by
  induction attributes generalizing index with
  | nil => rfl
  | cons a rest ih =>
    rcases a.static_or_resolve_eq with ⟨span, name, node, rfl⟩ | ⟨hnone, _⟩
    · cases index with
      | zero => exact congrArg (· :: rest.map g) (hg ..)
      | succ index => exact congrArg (_ :: ·) (ih index)
    · rw [modifyNode_cons_of_none hnone, List.map_cons, List.map_cons, ih]

theorem builtin?_modifyNode (tag : Tag) (index : Nat) (f : Node → Node) (b : Builtin) :
    (tag.modifyNode index f).builtin? b = tag.builtin? b := by
  have hvalue : ∀ attributes : List Attribute, builtinValue? attributes b =
      (attributes.map (Attribute.builtinValue? b)).findSome? id := by
    intro attributes
    rw [List.findSome?_map]
    rfl
  rw [Tag.builtin?, Tag.builtin?, hvalue, hvalue, Tag.modifyNode, map_modifyNode]
  exact fun _ _ _ => rfl

theorem node?_withEscaping (value : String) (a : Attribute) :
    (a.withEscaping value).node? = a.node? := by
  match a with
  | .builtin _ .escaping _ | .builtin _ .allocator _ | .builtin _ .rendering _ => rfl
  | .static _ _ _ | .shorthand _ _ | .builtinShorthand _ _ => rfl
  | .spread _ _ | .formatted _ _ _ _ => rfl

theorem builtinValue?_withEscaping (value : String) (a : Attribute) :
    (a.withEscaping value).builtinValue? .allocator = a.builtinValue? .allocator := by
  match a with
  | .builtin _ .escaping _ | .builtin _ .allocator _ | .builtin _ .rendering _ => rfl
  | .static _ _ _ | .shorthand _ _ | .builtinShorthand _ _ => rfl
  | .spread _ _ | .formatted _ _ _ _ => rfl

theorem nodes_withEscaping (value : String) (tag : Tag) :
    (tag.withEscaping value).attributes.filterMap Attribute.node? =
      tag.attributes.filterMap Attribute.node? := by
  rw [Tag.withEscaping, List.filterMap_map]
  exact congrArg (List.filterMap · tag.attributes) (funext (node?_withEscaping value))

theorem allocator_withEscaping (value : String) (tag : Tag) :
    (tag.withEscaping value).builtin? .allocator = tag.builtin? .allocator := by
  rw [Tag.builtin?, builtinValue?, Tag.withEscaping, List.findSome?_map]
  exact congrArg (List.findSome? · tag.attributes) (funext (builtinValue?_withEscaping value))

theorem isText_rescape (value : String) (path : Path) (node : Node) :
    (node.rescape value path).isText = node.isText := by
  cases node <;> rcases path with _ | ⟨step, path⟩ <;> first | rfl | (cases step <;> rfl)

theorem rescape_of_isText {value : String} {path : Path} {node : Node} (h : node.isText = true) :
    node.rescape value path = node := by
  cases node <;> cases h
  rcases path with _ | ⟨step, path⟩
  · rfl
  · cases step <;> rfl

theorem all_modify (item : Nat) (f : Node → Node) (body : Body) :
    (body.modify item f).all = body.all.modify item f := by
  cases body with
  | node n => cases item <;> simp [Body.modify, Body.all]
  | list ns => rfl

/-- Another value of `@escaping` on the tag at `place` changes no leaf that stands elsewhere. -/
theorem marksApart_rescape (value : String) (rel : Path) : ∀ (node : Node) {allocator : String}
    {mode : Escaping} {path : Path} {owner : Option (Path × Tag)},
    ((node.rescape value rel).resolve allocator mode).marksApart (path ++ rel) path owner =
      (node.resolve allocator mode).marksApart (path ++ rel) path owner := by
  induction rel with
  | nil =>
    intro node allocator mode path owner
    rw [List.append_nil]
    cases node with
    | element tag children =>
      rw [rescape, resolve, resolve, marksApart_element, marksApart_element, Tag.nodes_resolve,
        Tag.nodes_resolve, Tag.allocator_resolve, Tag.allocator_resolve, nodes_withEscaping,
        allocator_withEscaping]
      congr 1
      rw [resolveAll_eq_map, resolveAll_eq_map, List.zipIdx_map, List.zipIdx_map,
        List.flatMap_map, List.flatMap_map]
      refine flatMap_zipIdx_congr fun n _ _ => ?_
      exact marksApart_resolve_mode n rfl rfl
    | selfClosing tag =>
      rw [rescape, resolve, resolve, marksApart_selfClosing, marksApart_selfClosing,
        Tag.nodes_resolve, Tag.nodes_resolve, nodes_withEscaping, allocator_withEscaping]
    | _ => rfl
  | cons step rel ih =>
    intro node allocator mode path owner
    have hassoc : path ++ step :: rel = (path ++ [step]) ++ rel := by simp
    cases step with
    | value index =>
      have hvalues : ∀ (tag : Tag) (allocator : String),
          (((resolveTag allocator (tag.modifyNode index (rescape value rel))).attributes.filterMap
            Attribute.node?).zipIdx.flatMap fun p =>
              p.1.marksApart (path ++ .value index :: rel) (path ++ [.value p.2]) none) =
          ((resolveTag allocator tag).attributes.filterMap Attribute.node?).zipIdx.flatMap fun p =>
            p.1.marksApart (path ++ .value index :: rel) (path ++ [.value p.2]) none := by
        intro tag allocator
        rw [Tag.nodes_resolve, Tag.nodes_resolve, builtin?_modifyNode, Tag.modifyNode,
          filterMap_modifyNode, List.zipIdx_map, List.zipIdx_map, List.flatMap_map, List.flatMap_map]
        refine flatMap_zipIdx_modify _ index 0 fun n => ?_
        dsimp only [Prod.map]
        rw [Nat.zero_add, id_eq, hassoc]
        exact ih n
      cases node with
      | element tag children =>
        rw [rescape, resolve, resolve, marksApart_element, marksApart_element, hvalues]
        congr 1
        rw [Tag.allocator_resolve, Tag.allocator_resolve, builtin?_modifyNode, resolveTag_escaping,
          resolveTag_escaping, Tag.declaredMode, Tag.declaredMode, builtin?_modifyNode]
        exact flatMap_zipIdx_congr fun n _ _ => marksApart_congr_owner n rfl
      | selfClosing tag =>
        rw [rescape, resolve, resolve, marksApart_selfClosing, marksApart_selfClosing]
        exact hvalues tag allocator
      | _ => rfl
    | child index =>
      cases node with
      | element tag children =>
        rw [rescape, resolve, resolve, marksApart_element, marksApart_element]
        congr 1
        rw [resolveAll_eq_map, resolveAll_eq_map, List.zipIdx_map, List.zipIdx_map,
          List.flatMap_map, List.flatMap_map]
        refine flatMap_zipIdx_modify children index 0 fun n => ?_
        dsimp only [Prod.map]
        rw [Nat.zero_add, id_eq, hassoc]
        exact ih n
      | fragment span children =>
        rw [rescape, resolve, resolve, marksApart_fragment, marksApart_fragment, resolveAll_eq_map,
          resolveAll_eq_map, List.zipIdx_map, List.zipIdx_map, List.flatMap_map, List.flatMap_map]
        refine flatMap_zipIdx_modify children index 0 fun n => ?_
        dsimp only [Prod.map]
        rw [Nat.zero_add, id_eq, hassoc]
        exact ih n
      | _ => rfl
    | branch index item =>
      cases node with
      | flow span kind subject _ branches =>
        rw [rescape, resolve, resolve, marksApart_flow, marksApart_flow, resolveBranches_eq_map,
          resolveBranches_eq_map, List.zipIdx_map, List.zipIdx_map, List.flatMap_map,
          List.flatMap_map]
        refine flatMap_zipIdx_modify branches index 0 fun b => ?_
        dsimp only [Prod.map]
        rw [Body.all_resolve, Body.all_resolve, all_modify, List.zipIdx_map, List.zipIdx_map,
          List.flatMap_map, List.flatMap_map]
        refine flatMap_zipIdx_modify b.body.all item 0 fun n => ?_
        dsimp only [Prod.map]
        rw [Nat.zero_add, Nat.zero_add, id_eq, id_eq, hassoc]
        cases htext : n.isText with
        | true => rw [rescape_of_isText htext]
        | false =>
          rw [dropPadding_of_not_isText (by simpa [isText_rescape] using htext),
            dropPadding_of_not_isText (by simpa using htext)]
          exact ih n
      | _ => rfl

theorem mem_modify {α : Type} {f : α → α} {as : List α} {index : Nat} {a : α}
    (h : a ∈ as.modify index f) : a ∈ as ∨ ∃ b ∈ as, a = f b := by
  induction as generalizing index with
  | nil => simp at h
  | cons b as ih =>
    cases index with
    | zero =>
      rw [List.modify_zero_cons] at h
      rcases List.mem_cons.mp h with rfl | h
      · exact Or.inr ⟨b, List.mem_cons_self .., rfl⟩
      · exact Or.inl (List.mem_cons_of_mem _ h)
    | succ index =>
      rw [List.modify_succ_cons] at h
      rcases List.mem_cons.mp h with rfl | h
      · exact Or.inl (List.mem_cons_self ..)
      · rcases ih h with h | ⟨c, hc, rfl⟩
        · exact Or.inl (List.mem_cons_of_mem _ h)
        · exact Or.inr ⟨c, List.mem_cons_of_mem _ hc, rfl⟩

theorem map_modify_of_eq {α β : Type} {f : α → α} {g : α → β} (h : ∀ a, g (f a) = g a)
    (as : List α) (index : Nat) : (as.modify index f).map g = as.map g := by
  induction as generalizing index with
  | nil => simp
  | cons a as ih =>
    cases index with
    | zero => rw [List.modify_zero_cons, List.map_cons, List.map_cons, h]
    | succ index => rw [List.modify_succ_cons, List.map_cons, List.map_cons, ih]

theorem everywhere_modify {P : Node → Prop} {f : Node → Node} {nodes : List Node} {index : Nat}
    (hf : ∀ n, n.Everywhere P → (f n).Everywhere P) (h : ∀ n ∈ nodes, n.Everywhere P) :
    ∀ n ∈ nodes.modify index f, n.Everywhere P := by
  intro n hn
  rcases mem_modify hn with hn | ⟨original, horiginal, rfl⟩
  · exact h n hn
  · exact hf original (h original horiginal)

theorem withEscaping_lowered {value : String} (hvalue : (Escaping.ofText? value).isSome) {tag : Tag}
    (h : tag.Lowered) : (tag.withEscaping value).Lowered := by
  constructor
  · have hsame : ∀ a : Attribute, (a.withEscaping value).builtin? = a.builtin? := by
      intro a
      match a with
      | .builtin _ .escaping _ | .builtin _ .allocator _ | .builtin _ .rendering _ => rfl
      | .static _ _ _ | .shorthand _ _ | .builtinShorthand _ _ => rfl
      | .spread _ _ | .formatted _ _ _ _ => rfl
    rw [Tag.withEscaping, List.filterMap_map]
    have hkept := congrArg (List.filterMap · tag.attributes) (funext hsame)
    exact hkept ▸ h.builtins
  · intro a ha
    obtain ⟨original, horiginal, rfl⟩ := List.mem_map.mp ha
    have hlowered := h.attributes original horiginal
    match original, hlowered with
    | .builtin _ .escaping _, _ => exact fun _ => hvalue
    | .builtin _ .allocator _, _ | .builtin _ .rendering _, _ => rintro ⟨⟩
    | .static _ _ _, hlowered => exact hlowered
    | .builtinShorthand _ _, hlowered => exact hlowered
    | .shorthand _ _, _ | .spread _ _, _ | .formatted _ _ _ _, _ => trivial

theorem modifyNode_lowered {f : Node → Node} (hf : ∀ n, (f n).isText = n.isText) {index : Nat}
    {tag : Tag} (h : tag.Lowered) : (tag.modifyNode index f).Lowered := by
  constructor
  · have hkept := map_modifyNode (g := Attribute.builtin?) (f := f) (fun _ _ _ => rfl) index
      tag.attributes
    have hlisted : ∀ attributes : List Attribute, attributes.filterMap Attribute.builtin? =
        (attributes.map Attribute.builtin?).filterMap id := by
      intro attributes
      rw [List.filterMap_map]
      rfl
    rw [hlisted, Tag.modifyNode, hkept, ← hlisted]
    exact h.builtins
  · have hkept := map_modifyNode (g := Attribute.Lowered) (f := f)
      (fun _ _ n => congrArg (· = false) (hf n)) index tag.attributes
    intro a ha
    have hmem : a.Lowered ∈ (ZigMarkup.modifyNode index f tag.attributes).map Attribute.Lowered :=
      List.mem_map_of_mem ha
    rw [hkept] at hmem
    obtain ⟨original, horiginal, heq⟩ := List.mem_map.mp hmem
    exact heq ▸ h.attributes original horiginal

theorem modify_lowered {f : Node → Node} (hf : ∀ n, (f n).isText = n.isText) {item : Nat}
    {body : Body} (h : body.Lowered) : (body.modify item f).Lowered := by
  cases body with
  | node n =>
    cases item with
    | zero => exact (hf n).trans h
    | succ item => exact h
  | list ns => trivial

/-- Another mode on one tag leaves a template as it was accepted. -/
theorem rescape_lowered {value : String} (hvalue : (Escaping.ofText? value).isSome) (path : Path) :
    ∀ node : Node, node.Everywhere Lowered → (node.rescape value path).Everywhere Lowered := by
  induction path with
  | nil =>
    intro node h
    cases node with
    | element tag children =>
      refine everywhere_iff.mpr ⟨withEscaping_lowered hvalue h.here, fun n hn => ?_⟩
      rw [rescape, parts, nodes_withEscaping] at hn
      exact h.part hn
    | selfClosing tag =>
      refine everywhere_iff.mpr ⟨withEscaping_lowered hvalue h.here, fun n hn => ?_⟩
      rw [rescape, parts, nodes_withEscaping] at hn
      exact h.part hn
    | _ => exact h
  | cons step path ih =>
    intro node h
    have htext := isText_rescape value path
    cases step with
    | value index =>
      cases node with
      | element tag children =>
        refine everywhere_iff.mpr ⟨modifyNode_lowered htext h.here, fun n hn => ?_⟩
        rw [rescape, parts, Tag.modifyNode, filterMap_modifyNode] at hn
        rcases List.mem_append.mp hn with hn | hn
        · exact everywhere_modify ih (fun m hm => h.part (List.mem_append_left _ hm)) n hn
        · exact h.part (List.mem_append_right _ hn)
      | selfClosing tag =>
        refine everywhere_iff.mpr ⟨modifyNode_lowered htext h.here, fun n hn => ?_⟩
        rw [rescape, parts, Tag.modifyNode, filterMap_modifyNode] at hn
        exact everywhere_modify ih (fun m hm => h.part hm) n hn
      | _ => exact h
    | child index =>
      cases node with
      | element tag children =>
        refine everywhere_iff.mpr ⟨h.here, fun n hn => ?_⟩
        rcases List.mem_append.mp hn with hn | hn
        · exact h.part (List.mem_append_left _ hn)
        · exact everywhere_modify ih (fun m hm => h.part (List.mem_append_right _ hm)) n hn
      | fragment span children =>
        exact everywhere_iff.mpr ⟨trivial, everywhere_modify ih fun m hm => h.part hm⟩
      | _ => exact h
    | branch index item =>
      cases node with
      | flow span kind subject allocator branches =>
        refine everywhere_iff.mpr ⟨⟨?_, fun b hb => ?_⟩, fun n hn => ?_⟩
        · have hheads : (branches.modify index fun b =>
              { b with body := b.body.modify item (rescape value path) }).map Branch.head =
              branches.map Branch.head := by
            apply map_modify_of_eq
            exact fun _ => rfl
          rw [hheads]
          exact h.here.1
        · rcases mem_modify hb with hb | ⟨original, horiginal, rfl⟩
          · exact h.here.2 b hb
          · exact modify_lowered htext (h.here.2 original horiginal)
        · obtain ⟨b, hb, hn⟩ := List.mem_flatMap.mp hn
          rcases mem_modify hb with hb | ⟨original, horiginal, rfl⟩
          · exact h.part (List.mem_flatMap.mpr ⟨b, hb, hn⟩)
          · rw [all_modify] at hn
            exact everywhere_modify ih
              (fun m hm => h.part (List.mem_flatMap.mpr ⟨original, horiginal, hm⟩)) n hn
      | _ => exact h

end Node

end ZigMarkup
