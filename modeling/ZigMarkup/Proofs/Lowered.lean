import ZigMarkup.Proofs.ParseShape
import ZigMarkup.Proofs.TagAttributes

/-!
What is known of every template that was accepted. The branches of its control flow are
arranged as their construct asks: the first branch of an `if` has a condition and only the
last may have none, a loop has one branch, a switch at least one. No builtin is set twice on
a tag, each `@escaping` has a mode, and text stands only in lists of nodes.
-/
namespace ZigMarkup

/-- A sequence of checks that succeeds has both its steps succeed. -/
theorem Checked.ok_of_bind {α β : Type} {x : Checked α} {f : α → Checked β} {b : β}
    (h : (x >>= f) = .ok b) : ∃ a, x = .ok a ∧ f a = .ok b := by
  cases x with
  | error e => cases h
  | ok a => exact ⟨a, rfl, h⟩

theorem Checked.exists_of_toBool {α : Type} {x : Checked α} (h : x.toBool = true) :
    ∃ a, x = .ok a := by
  cases x with
  | ok a => exact ⟨a, rfl⟩
  | error => cases h

/-- Each result of checking a list comes from one of its members. -/
theorem Checked.exists_of_mem_mapM {α β : Type} {f : α → Checked β} {as : List α} {bs : List β}
    (h : as.mapM f = .ok bs) {b : β} (hb : b ∈ bs) : ∃ a ∈ as, f a = .ok b := by
  induction as generalizing bs with
  | nil =>
    cases h
    simp at hb
  | cons a as ih =>
    rw [List.mapM_cons] at h
    obtain ⟨first, hfirst, h⟩ := ok_of_bind h
    obtain ⟨rest, hrest, h⟩ := ok_of_bind h
    cases h
    rcases List.mem_cons.mp hb with rfl | hb
    · exact ⟨a, List.mem_cons_self .., hfirst⟩
    · obtain ⟨a', ha', hfa⟩ := ih hrest hb
      exact ⟨a', List.mem_cons_of_mem _ ha', hfa⟩

/-- The node in the value of an attribute, if there is one. -/
def Attribute.node? : Attribute → Option Node
  | .static _ _ (.node node) => some node
  | _ => none

/-- All nodes of a body, also those that produce nothing. -/
def Body.all : Body → List Node
  | .node n => [n]
  | .list ns => ns

namespace Node

/-- The nodes directly inside a node: in attribute values, among children, in bodies. -/
def parts : Node → List Node
  | element tag children => tag.attributes.filterMap Attribute.node? ++ children
  | selfClosing tag => tag.attributes.filterMap Attribute.node?
  | fragment _ children => children
  | expr _ _ _ => []
  | text _ _ _ _ => []
  | flow _ _ _ _ branches => branches.flatMap fun b => b.body.all

inductive Within : Node → Node → Prop
  | refl (node : Node) : Within node node
  | part {node part root : Node} : part ∈ root.parts → Within node part → Within node root

/-- A property of a node and of all nodes inside it. -/
def Everywhere (P : Node → Prop) (root : Node) : Prop := ∀ node, Within node root → P node

theorem everywhere_iff {P : Node → Prop} {root : Node} :
    Everywhere P root ↔ P root ∧ ∀ n ∈ root.parts, Everywhere P n := by
  constructor
  · intro h
    exact ⟨h root (.refl root), fun n hn m hm => h m (.part hn hm)⟩
  · rintro ⟨hroot, hparts⟩ n hn
    cases hn with
    | refl => exact hroot
    | part hpart hwithin => exact hparts _ hpart n hwithin

theorem Everywhere.here {P : Node → Prop} {root : Node} (h : Everywhere P root) : P root :=
  (everywhere_iff.mp h).1

theorem Everywhere.part {P : Node → Prop} {root n : Node} (h : Everywhere P root)
    (hn : n ∈ root.parts) : Everywhere P n := (everywhere_iff.mp h).2 n hn

end Node

/-- The heads that the branches of a construct have, in order. -/
def FlowKind.Arranged (kind : FlowKind) (heads : List (Option String)) : Prop :=
  match kind with
  | .ifElse => ∃ (first : String) (others : List String) (last? : Option (Option String)),
      heads = some first :: others.map some ++ last?.toList
  | .switch => heads ≠ []
  | .forLoop | .whileLoop => ∃ head, heads = [some head]

/-- A loop has no branch that could be passed over. -/
theorem FlowKind.Arranged.length_le_one {kind : FlowKind} {heads : List (Option String)}
    (h : kind.Arranged heads) (hloop : kind = .forLoop ∨ kind = .whileLoop) :
    heads.length ≤ 1 := by
  rcases hloop with rfl | rfl
  · obtain ⟨head, rfl⟩ := h
    exact Nat.le_refl 1
  · obtain ⟨head, rfl⟩ := h
    exact Nat.le_refl 1

def Node.isText : Node → Bool
  | .text _ _ _ _ => true
  | _ => false

/-- An element or a fragment. -/
def Node.isMarkup : Node → Bool
  | .element _ _ | .selfClosing _ | .fragment _ _ => true
  | _ => false

theorem Node.isText_of_isMarkup {node : Node} (h : node.isMarkup = true) : node.isText = false := by
  cases node <;> first | rfl | cases h

def Attribute.Lowered : Attribute → Prop
  | .static _ _ (.node n) => n.isText = false
  | .builtin _ b value => b = .escaping → (Escaping.ofText? value).isSome
  | .builtinShorthand _ b => b ≠ .escaping
  | _ => True

structure Tag.Lowered (tag : Tag) : Prop where
  builtins : (tag.attributes.filterMap Attribute.builtin?).Nodup
  attributes : ∀ a ∈ tag.attributes, a.Lowered

def Body.Lowered : Body → Prop
  | .node n => n.isText = false
  | .list _ => True

/-- What the reader of templates has made sure of at a node. -/
def Node.Lowered : Node → Prop
  | .element tag _ => tag.Lowered
  | .selfClosing tag => tag.Lowered
  | .flow _ kind _ _ branches =>
    kind.Arranged (branches.map Branch.head) ∧ ∀ b ∈ branches, b.body.Lowered
  | .fragment _ _ | .expr _ _ _ | .text _ _ _ _ => True

namespace OfTree

open Tree

variable {source : Bytes}

theorem headOf?_isSome_of_header (source : Bytes) {t : Tree}
    (h : (t.child? .header).isSome) : ∃ head, headOf? source t.children = some head := by
  obtain ⟨header, hheader⟩ := Option.isSome_iff_exists.mp h
  have hfind : t.children.find? (·.kind == .header) = some header := hheader
  exact ⟨header.text source, by simp [headOf?, childText?, hfind]⟩

/-- The branches that are made of the children of a construct. -/
theorem branchesOf_heads : ∀ (ts : List Tree) {branches : List Branch},
    branchesOf source ts = .ok branches → branches.map Branch.head =
      (ts.filter (·.kind == .branch)).map fun t => headOf? source t.children
  | [], branches, h => by
    cases h
    rfl
  | ⟨kind, span, parts, message⟩ :: ts, branches, h => by
    unfold branchesOf at h
    by_cases hkind : kind = .branch
    · subst hkind
      simp only [if_true] at h
      obtain ⟨body, _, h⟩ := Checked.ok_of_bind h
      obtain ⟨rest, hrest, h⟩ := Checked.ok_of_bind h
      cases h
      simp [branchesOf_heads ts hrest]
    · rw [if_neg hkind] at h
      simp [branchesOf_heads ts h, hkind]

/-- A shaped construct has its branches arranged. -/
theorem arranged_of_shaped {flow : FlowKind} {span : Span} {children : List Tree}
    {message : Option String} {branches : List Branch}
    (hs : Shaped ⟨flow.kind, span, children, message⟩)
    (h : branchesOf source children = .ok branches) :
    flow.Arranged (branches.map Branch.head) := by
  rw [branchesOf_heads children h]
  cases flow with
  | ifElse =>
    obtain ⟨first, others, last?, rfl, hbranch, hhead⟩ := hs
    have hfilter : (first :: others ++ last?.toList).filter (·.kind == .branch) =
        first :: others ++ last?.toList :=
      List.filter_eq_self.mpr fun b hb => by simpa using hbranch b hb
    rw [hfilter]
    let head := fun t : Tree => (headOf? source t.children).getD ""
    have hsome : ∀ b ∈ first :: others, headOf? source b.children = some (head b) := by
      intro b hb
      obtain ⟨text, htext⟩ := headOf?_isSome_of_header source (hhead b hb)
      simp [head, htext]
    refine ⟨head first, others.map head, last?.map fun t => headOf? source t.children, ?_⟩
    have hothers : others.map (fun t => headOf? source t.children) = (others.map head).map some := by
      rw [List.map_map]
      exact List.map_congr_left fun b hb => hsome b (List.mem_cons_of_mem _ hb)
    rw [List.map_append, List.map_cons, hothers, hsome first (List.mem_cons_self ..)]
    cases last? <;> rfl
  | forLoop =>
    obtain ⟨b, rfl, hb, hhead⟩ := hs
    obtain ⟨head, hhead⟩ := headOf?_isSome_of_header source hhead
    exact ⟨head, by simp [hb, hhead]⟩
  | whileLoop =>
    obtain ⟨b, rfl, hb, hhead⟩ := hs
    obtain ⟨head, hhead⟩ := headOf?_isSome_of_header source hhead
    exact ⟨head, by simp [hb, hhead]⟩
  | switch =>
    obtain ⟨header, first, rest, rfl, hheader, hbranch⟩ := hs
    have hfirst := (hbranch first (List.mem_cons_self ..)).1
    simp [FlowKind.Arranged, hheader, hfirst]

theorem ofKind?_kind {kind : Kind} {flow : FlowKind} (h : FlowKind.ofKind? kind = some flow) :
    flow.kind = kind := by
  have hfound := List.find?_some h
  simpa using hfound

theorem node?_valueOf {span : Span} {name : String} {node n : Node}
    (h : n ∈ (Attribute.static span name (valueOf node)).node?) : n = node := by
  cases node <;> simp_all [valueOf, Attribute.node?]

theorem elementOf_isMarkup {span : Span} {ts : List Tree} {node : Node}
    (h : elementOf source span ts = .ok node) : node.isMarkup = true := by
  match ts, h with
  | [], h => cases h
  | ⟨_, _, parts, _⟩ :: rest, h =>
    unfold elementOf at h
    obtain ⟨tag, _, h⟩ := Checked.ok_of_bind h
    dsimp only at h
    split at h
    · cases h
    · obtain ⟨children, _, h⟩ := Checked.ok_of_bind h
      split at h
      · obtain ⟨_, _, h⟩ := Checked.ok_of_bind h
        cases h
        rfl
      · cases h
        rfl

theorem elementOf_isText {span : Span} {ts : List Tree} {node : Node}
    (h : elementOf source span ts = .ok node) : node.isText = false :=
  Node.isText_of_isMarkup (elementOf_isMarkup h)

theorem nodeOf?_isMarkup {t : Tree} {o : Option Node} (hkind : t.kind.isMarkup)
    (h : nodeOf? source t = .ok o) : ∀ n ∈ o, n.isMarkup = true := by
  obtain ⟨kind, span, children, message⟩ := t
  unfold nodeOf? at h
  cases kind
  case element =>
    obtain ⟨node, hnode, h⟩ := Checked.ok_of_bind h
    cases h
    rintro n ⟨rfl⟩
    exact elementOf_isMarkup hnode
  case selfClosingElement =>
    obtain ⟨tag, _, h⟩ := Checked.ok_of_bind h
    cases h
    rintro n ⟨rfl⟩
    rfl
  case fragment =>
    obtain ⟨_, _, h⟩ := Checked.ok_of_bind h
    obtain ⟨nodes, _, h⟩ := Checked.ok_of_bind h
    cases h
    rintro n ⟨rfl⟩
    rfl
  case comment =>
    cases h
    simp
  all_goals cases hkind

theorem rootOf_isMarkup {span : Span} {ts : List Tree} {node : Node}
    (hkinds : ∀ t ∈ ts, t.kind.isMarkup) (h : rootOf source span ts = .ok node) :
    node.isMarkup = true := by
  induction ts with
  | nil => cases h
  | cons t ts ih =>
    unfold rootOf at h
    split at h
    · exact ih (fun u hu => hkinds u (List.mem_cons_of_mem _ hu)) h
    · split at h
      · cases h
      · obtain ⟨o, ho, h⟩ := Checked.ok_of_bind h
        cases o with
        | none => cases h
        | some found =>
          cases h
          exact nodeOf?_isMarkup (hkinds t (List.mem_cons_self ..)) ho _ rfl

/-- The node of a template is an element or a fragment. -/
theorem rootOf_isMarkup_of_shaped {root : Tree} {span : Span} {node : Node}
    (hkind : root.kind = .templateRoot) (hs : Shaped root)
    (h : rootOf source span root.children = .ok node) : node.isMarkup = true := by
  unfold Shaped at hs
  rw [hkind] at hs
  rcases hs with ⟨e, hchildren, herror⟩ | ⟨first, rest, _, _, hkinds⟩
  · rw [hchildren] at h
    obtain ⟨kind, inner, parts, message⟩ := e
    cases herror
    cases h
  · exact rootOf_isMarkup hkinds h

theorem rootOf_isText_of_shaped {root : Tree} {span : Span} {node : Node}
    (hkind : root.kind = .templateRoot) (hs : Shaped root)
    (h : rootOf source span root.children = .ok node) : node.isText = false :=
  Node.isText_of_isMarkup (rootOf_isMarkup_of_shaped hkind hs h)

/-- An expression is what stands in braces, and not what a template in them holds. -/
theorem exists_of_bracedOf?_expr {span exprSpan : Span} {ts : List Tree} {code : String}
    {mode : Escaping} (hs : ∀ t ∈ ts, Shaped t)
    (h : bracedOf? source span ts = .ok (some (.expr exprSpan code mode))) :
    ∃ t ∈ ts, t.kind = .hostExpr ∧ code = t.text source := by
  cases ts with
  | nil => cases h
  | cons t rest =>
    obtain ⟨kind, inner, children, message⟩ := t
    unfold bracedOf? at h
    split at h
    · cases h
      exact ⟨_, List.mem_cons_self .., rfl, rfl⟩
    · obtain ⟨node, hnode, h⟩ := Checked.ok_of_bind h
      cases h
      cases rootOf_isMarkup_of_shaped rfl (hs _ (List.mem_cons_self ..)) hnode
    · cases h
    · split at h
      · obtain ⟨branches, _, h⟩ := Checked.ok_of_bind h
        cases h
      · cases h

theorem bracedOf?_isText {span : Span} {ts : List Tree} {o : Option Node}
    (hs : ∀ t ∈ ts, Shaped t) (h : bracedOf? source span ts = .ok o) :
    ∀ n ∈ o, n.isText = false := by
  match ts, hs, h with
  | [], _, h =>
    cases h
    simp
  | ⟨kind, inner, children, message⟩ :: _, hs, h =>
    have hinner := hs _ (List.mem_cons_self ..)
    unfold bracedOf? at h
    split at h
    · cases h
      rintro n ⟨rfl⟩
      rfl
    · obtain ⟨node, hnode, h⟩ := Checked.ok_of_bind h
      cases h
      rintro n ⟨rfl⟩
      exact rootOf_isText_of_shaped rfl hinner hnode
    · cases h
    · split at h
      · obtain ⟨branches, _, h⟩ := Checked.ok_of_bind h
        cases h
        rintro n ⟨rfl⟩
        rfl
      · cases h

/-- The value of a builtin is a string or an expression, and for `@escaping` a mode. -/
theorem builtinValueOf_cases {builtin : Builtin} {value : Tree} {text : String}
    (h : builtinValueOf source builtin value = .ok text) :
    (builtin = .escaping → (Escaping.ofText? text).isSome) ∧
      (value.kind = .stringValue ∧ text = value.text source ∨
        value.kind = .exprValue ∧ ∃ expr ∈ value.children, expr.kind = .hostExpr ∧
          text = expr.text source) := by
  have hstop : ∀ found, (if (decide (builtin = .escaping) && (Escaping.ofText? found).isNone) = true
      then refuse value.span (.unknownEscaping found) else pure found) = Except.ok text →
      (builtin = .escaping → (Escaping.ofText? text).isSome) ∧ text = found := by
    intro found h
    split at h
    · cases h
    · next hmode =>
      cases h
      refine ⟨fun hbuiltin => ?_, rfl⟩
      simpa [hbuiltin, Option.isSome_iff_ne_none] using hmode
  unfold builtinValueOf at h
  dsimp only at h
  split at h
  · next hkind =>
    obtain ⟨found, hfound, h⟩ := Checked.ok_of_bind h
    cases hfound
    exact ⟨(hstop _ h).1, .inl ⟨hkind, (hstop _ h).2⟩⟩
  · next expr rest hvalue hchildren =>
    split at h
    · next hkind =>
      obtain ⟨found, hfound, h⟩ := Checked.ok_of_bind h
      cases hfound
      exact ⟨(hstop _ h).1, .inr ⟨hvalue, expr, by simp [hchildren], hkind, (hstop _ h).2⟩⟩
    · cases h
  · cases h
  · cases h

/-- What the tree of an attribute is read as. -/
inductive AttributeRead (source : Bytes) (t : Tree) : Attribute → Prop
  | flag (name : String) : AttributeRead source t (.static t.span name .flag)
  | literal (name : String) {value : Tree} (hvalue : value ∈ t.children)
      (hkind : value.kind = .stringValue) :
      AttributeRead source t (.static t.span name (.literal (value.text source)))
  | expr (name : String) {value code : Tree} (hvalue : value ∈ t.children)
      (hkind : value.kind = .exprValue) (hcode : code ∈ value.children)
      (hhost : code.kind = .hostExpr) :
      AttributeRead source t (.static t.span name (.expr (code.text source)))
  | node (name : String) {n : Node} (htext : n.isText = false) :
      AttributeRead source t (.static t.span name (.node n))
  | formatted (name : String) {value : Tree} (hvalue : value ∈ t.children)
      (hkind : value.kind = .templateString) :
      AttributeRead source t
        (.formatted t.span name (formatOf source value.children) (argsOf source value.children))
  | shorthand (hkind : t.kind = .shorthandAttribute) :
      AttributeRead source t
        (.shorthand t.span ((childText? source .attrName t.children).getD ""))
  | spread {code : Tree} (hkind : t.kind = .spreadAttribute) (hcode : code ∈ t.children)
      (hhost : code.kind = .hostExpr) : AttributeRead source t (.spread t.span (code.text source))
  | builtin {b : Builtin} {value : Tree} {text : String} (hvalue : value ∈ t.children)
      (hmade : builtinValueOf source b value = .ok text) :
      AttributeRead source t (.builtin t.span b text)
  | builtinShorthand {b : Builtin} (hb : b ≠ .escaping) :
      AttributeRead source t (.builtinShorthand t.span b)

theorem attributeRead_static {t : Tree} {name : String} {a : Attribute} (hs : t.Everywhere Shaped)
    (h : staticOf source t.span name t.children = .ok a) : AttributeRead source t a := by
  obtain ⟨own, span, children, note⟩ := t
  rcases children with _ | ⟨first, _ | ⟨⟨kind, valueSpan, parts, message⟩, rest⟩⟩
  · cases h
    exact .flag name
  · cases h
    exact .flag name
  have hvalue : ⟨kind, valueSpan, parts, message⟩ ∈
      (Tree.mk own span (first :: ⟨kind, valueSpan, parts, message⟩ :: rest) note).children :=
    List.mem_cons_of_mem _ (List.mem_cons_self ..)
  have hparts : ∀ p ∈ parts, Shaped p := fun p hp => ((hs.child hvalue).child hp).here
  unfold staticOf at h
  cases kind
  case stringValue =>
    cases h
    exact .literal name hvalue rfl
  case templateString =>
    cases h
    exact .formatted name hvalue rfl
  case exprValue =>
    obtain ⟨o, ho, h⟩ := Checked.ok_of_bind h
    cases o with
    | none => cases h
    | some node =>
      cases h
      have htext := bracedOf?_isText hparts ho node rfl
      cases node with
      | expr exprSpan code mode =>
        obtain ⟨expr, hexpr, hhost, rfl⟩ := exists_of_bracedOf?_expr hparts ho
        exact .expr name hvalue rfl hexpr hhost
      | _ => exact .node name htext
  all_goals cases h

theorem attributeRead {t : Tree} {a : Attribute} (hs : t.Everywhere Shaped)
    (h : attributeOf source t = .ok a) : AttributeRead source t a := by
  obtain ⟨kind, span, children, message⟩ := t
  unfold attributeOf at h
  cases kind
  case staticAttribute => exact attributeRead_static hs h
  case builtinAttribute =>
    obtain ⟨builtin, _, h⟩ := Checked.ok_of_bind h
    split at h
    · cases h
    · next value hfound =>
      obtain ⟨text, hmade, h⟩ := Checked.ok_of_bind h
      cases h
      exact .builtin (List.mem_of_getElem? hfound) hmade
  case builtinShorthandAttribute =>
    obtain ⟨builtin, _, h⟩ := Checked.ok_of_bind h
    split at h
    · cases h
    · next hne =>
      cases h
      exact .builtinShorthand hne
  case shorthandAttribute =>
    cases h
    exact .shorthand rfl
  case spreadAttribute =>
    cases h
    obtain ⟨code, rfl, hhost⟩ := hs.here
    have htext : (childText? source .hostExpr [code]).getD "" = code.text source := by
      simp [childText?, hhost]
    rw [htext]
    exact .spread rfl (List.mem_singleton.mpr rfl) hhost
  all_goals cases h

theorem attribute_lowered {t : Tree} {a : Attribute} (hs : t.Everywhere Shaped)
    (h : attributeOf source t = .ok a) : a.Lowered := by
  cases attributeRead hs h with
  | node _ htext => exact htext
  | builtin _ hmade => exact (builtinValueOf_cases hmade).1
  | builtinShorthand hb => exact hb
  | _ => trivial

/-- Each attribute of a tag is read from a tree. -/
theorem exists_of_mem_attributesOf {ts : List Tree} {attributes : List Attribute}
    (h : attributesOf source ts = .ok attributes) {a : Attribute} (ha : a ∈ attributes) :
    ∃ t ∈ ts, attributeOf source t = .ok a := by
  induction ts generalizing attributes with
  | nil =>
    cases h
    cases ha
  | cons t ts ih =>
    unfold attributesOf at h
    obtain ⟨first, hfirst, h⟩ := Checked.ok_of_bind h
    obtain ⟨rest, hrest, h⟩ := Checked.ok_of_bind h
    cases h
    rcases List.mem_cons.mp ha with rfl | ha
    · exact ⟨t, List.mem_cons_self .., hfirst⟩
    · obtain ⟨u, hu, hmade⟩ := ih hrest ha
      exact ⟨u, List.mem_cons_of_mem _ hu, hmade⟩

/-- A tag that was accepted has a name and attributes that pass their check. -/
theorem exists_of_tagOf {span : Span} {ts : List Tree} {tag : Tag}
    (h : tagOf source span ts = .ok tag) : ∃ name rest, ts = name :: rest ∧
      tag.name = name.text source ∧ tag.kind = TagKind.ofName tag.name ∧
      attributesOf source rest = .ok tag.attributes ∧
      checkAttributes tag.kind tag.attributes = .ok () := by
  cases ts with
  | nil => cases h
  | cons name rest =>
    unfold tagOf at h
    obtain ⟨attributes, hattributes, h⟩ := Checked.ok_of_bind h
    obtain ⟨_, hcheck, h⟩ := Checked.ok_of_bind h
    cases h
    exact ⟨name, rest, rfl, rfl, rfl, hattributes, hcheck⟩

theorem exists_of_mem_tagOf {span : Span} {ts : List Tree} {tag : Tag}
    (h : tagOf source span ts = .ok tag) {a : Attribute} (ha : a ∈ tag.attributes) :
    ∃ t ∈ ts, attributeOf source t = .ok a := by
  obtain ⟨name, rest, rfl, _, _, hattributes, _⟩ := exists_of_tagOf h
  obtain ⟨t, ht, hmade⟩ := exists_of_mem_attributesOf hattributes ha
  exact ⟨t, List.mem_cons_of_mem _ ht, hmade⟩

theorem attributes_lowered {ts : List Tree} {attributes : List Attribute}
    (hs : ∀ t ∈ ts, t.Everywhere Shaped) (h : attributesOf source ts = .ok attributes) :
    ∀ a ∈ attributes, a.Lowered := by
  intro a ha
  obtain ⟨t, ht, hmade⟩ := exists_of_mem_attributesOf h ha
  exact attribute_lowered (hs t ht) hmade

theorem body_lowered {span : Span} {ts : List Tree} {body : Body}
    (hs : ∀ t ∈ ts, t.Everywhere Shaped) (h : bodyOf source span ts = .ok body) :
    body.Lowered := by
  induction ts with
  | nil => cases h
  | cons t ts ih =>
    obtain ⟨kind, _, children, _⟩ := t
    have hfirst := hs _ (List.mem_cons_self ..)
    unfold bodyOf at h
    split at h
    · split at h
      · next root rootSpan items message =>
        obtain ⟨node, hnode, h⟩ := Checked.ok_of_bind h
        cases h
        have hroot := (hfirst.child (List.mem_singleton.mpr rfl)).here
        exact rootOf_isText_of_shaped rfl hroot hnode
      · obtain ⟨nodes, _, h⟩ := Checked.ok_of_bind h
        cases h
        trivial
    · exact ih (fun u hu => hs u (List.mem_cons_of_mem _ hu)) h

/-- Each branch of a construct is read from a tree. -/
theorem exists_of_mem_branchesOf {ts : List Tree} {branches : List Branch}
    (h : branchesOf source ts = .ok branches) {branch : Branch} (hb : branch ∈ branches) :
    ∃ t ∈ ts, branch.head = headOf? source t.children ∧
      branch.capture = childText? source .capture t.children ∧
      bodyOf source t.span t.children = .ok branch.body := by
  induction ts generalizing branches with
  | nil =>
    cases h
    cases hb
  | cons t ts ih =>
    obtain ⟨kind, span, parts, message⟩ := t
    unfold branchesOf at h
    split at h
    · obtain ⟨body, hbody, h⟩ := Checked.ok_of_bind h
      obtain ⟨others, hothers, h⟩ := Checked.ok_of_bind h
      cases h
      rcases List.mem_cons.mp hb with rfl | hb
      · exact ⟨_, List.mem_cons_self .., rfl, rfl, hbody⟩
      · obtain ⟨u, hu, hmade⟩ := ih hothers hb
        exact ⟨u, List.mem_cons_of_mem _ hu, hmade⟩
    · obtain ⟨u, hu, hmade⟩ := ih h hb
      exact ⟨u, List.mem_cons_of_mem _ hu, hmade⟩

theorem branches_lowered {ts : List Tree} {branches : List Branch}
    (hs : ∀ t ∈ ts, t.Everywhere Shaped) (h : branchesOf source ts = .ok branches) :
    ∀ b ∈ branches, b.body.Lowered := by
  intro b hb
  obtain ⟨t, ht, _, _, hbody⟩ := exists_of_mem_branchesOf h hb
  exact body_lowered (fun _ hp => (hs t ht).child hp) hbody

theorem tag_lowered {span : Span} {ts : List Tree} {tag : Tag} (hs : ∀ t ∈ ts, t.Everywhere Shaped)
    (h : tagOf source span ts = .ok tag) : tag.Lowered := by
  obtain ⟨name, rest, rfl, _, _, hattributes, hcheck⟩ := exists_of_tagOf h
  exact ⟨(checkAttributes_ok_iff.mp hcheck).2.1,
    attributes_lowered (fun u hu => hs u (List.mem_cons_of_mem _ hu)) hattributes⟩

/-- A property of nodes that each reading step brings about where `Q` holds in the whole tree. -/
structure Reads (source : Bytes) (Q : Tree → Prop) (P : Node → Prop) : Prop where
  shaped : ∀ {t : Tree}, Q t → Shaped t
  element : ∀ {start : Tree} {span : Span} {tag : Tag} {children : List Node},
    (tag.isComponent = true → checkChildren tag children = .ok ()) → start.kind = .startTag →
    start.Everywhere Q → tagOf source span start.children = .ok tag → P (.element tag children)
  selfClosing : ∀ {t : Tree} {tag : Tag}, t.kind = .selfClosingElement → t.Everywhere Q →
    tagOf source t.span t.children = .ok tag → P (.selfClosing tag)
  fragment : ∀ span children, P (.fragment span children)
  expr : ∀ {b t : Tree} (mode : Escaping), b.kind = .expressionBlock → t ∈ b.children →
    t.kind = .hostExpr → b.Everywhere Q → P (.expr b.span (t.text source) mode)
  text : ∀ span raw mode content, P (.text span raw mode content)
  flow : ∀ {t : Tree} {flow : FlowKind} {branches : List Branch},
    t.kind = flow.kind → t.Everywhere Q → branchesOf source t.children = .ok branches →
    P (.flow t.span flow (if flow = .switch then childText? source .header t.children else none)
      "" branches)

/-- An element begins with its start tag. -/
theorem startTag_of_shaped {span : Span} {children : List Tree} {message : Option String}
    (h : Shaped ⟨.element, span, children, message⟩) :
    ∀ start rest, children = start :: rest → start.kind = .startTag := by
  obtain ⟨start, items, close, hchildren, hstart, _⟩ := h
  intro other rest heq
  obtain ⟨rfl, _⟩ := List.cons.inj (hchildren.symm.trans heq)
  exact hstart

section Reading

variable {Q : Tree → Prop} {P : Node → Prop} (reads : Reads source Q P)

include reads

-- Most of the readers below use the rules only through each other.
set_option linter.unusedSectionVars false

mutual
theorem nodeOf?_everywhere : ∀ (t : Tree) {o : Option Node}, t.Everywhere Q →
    nodeOf? source t = .ok o → ∀ n ∈ o, n.Everywhere P
  | ⟨kind, span, children, _⟩, o, hs, h => by
    have hchildren : ∀ c ∈ children, c.Everywhere Q := fun c hc => hs.child hc
    unfold nodeOf? at h
    cases kind
    case element =>
      obtain ⟨node, hnode, h⟩ := Checked.ok_of_bind h
      cases h
      rintro n ⟨rfl⟩
      exact elementOf_everywhere span children hchildren
        (startTag_of_shaped (reads.shaped hs.here)) hnode
    case selfClosingElement =>
      obtain ⟨tag, htag, h⟩ := Checked.ok_of_bind h
      cases h
      rintro n ⟨rfl⟩
      exact Node.everywhere_iff.mpr ⟨reads.selfClosing rfl hs htag,
        tagOf_everywhere span children hchildren htag⟩
    case fragment =>
      obtain ⟨_, _, h⟩ := Checked.ok_of_bind h
      obtain ⟨nodes, hnodes, h⟩ := Checked.ok_of_bind h
      cases h
      rintro n ⟨rfl⟩
      exact Node.everywhere_iff.mpr ⟨reads.fragment span nodes,
        innerNodesOf_everywhere children hchildren hnodes⟩
    case text =>
      cases h
      rintro n ⟨rfl⟩
      exact Node.everywhere_iff.mpr ⟨reads.text .., by simp [rawText, Node.parts]⟩
    case expressionBlock =>
      intro n hn
      rcases bracedOf?_everywhere span children hchildren h n hn with ⟨t, ht, hkind, rfl⟩ | hinner
      · exact Node.everywhere_iff.mpr ⟨reads.expr .html rfl ht hkind hs, by simp [Node.parts]⟩
      · exact hinner
    case comment =>
      cases h
      simp
    all_goals cases h

theorem nodesOf_everywhere : ∀ (ts : List Tree) {nodes : List Node},
    (∀ t ∈ ts, t.Everywhere Q) → nodesOf source ts = .ok nodes →
    ∀ n ∈ nodes, n.Everywhere P
  | [], nodes, _, h => by
    cases h
    simp
  | t :: ts, nodes, hs, h => by
    unfold nodesOf at h
    obtain ⟨o, ho, h⟩ := Checked.ok_of_bind h
    obtain ⟨rest, hrest, h⟩ := Checked.ok_of_bind h
    cases h
    intro n hn
    rcases List.mem_append.mp hn with hn | hn
    · exact nodeOf?_everywhere t (hs t (List.mem_cons_self ..)) ho n (by simpa using hn)
    · exact nodesOf_everywhere ts (fun u hu => hs u (List.mem_cons_of_mem _ hu)) hrest n hn

theorem innerNodesOf_everywhere : ∀ (ts : List Tree) {nodes : List Node},
    (∀ t ∈ ts, t.Everywhere Q) → innerNodesOf source ts = .ok nodes →
    ∀ n ∈ nodes, n.Everywhere P
  | [], nodes, _, h => by
    cases h
    simp
  | [_], nodes, _, h => by
    cases h
    simp
  | t :: u :: ts, nodes, hs, h => by
    unfold innerNodesOf at h
    obtain ⟨o, ho, h⟩ := Checked.ok_of_bind h
    obtain ⟨rest, hrest, h⟩ := Checked.ok_of_bind h
    cases h
    intro n hn
    rcases List.mem_append.mp hn with hn | hn
    · exact nodeOf?_everywhere t (hs t (List.mem_cons_self ..)) ho n (by simpa using hn)
    · exact innerNodesOf_everywhere (u :: ts) (fun v hv => hs v (List.mem_cons_of_mem _ hv)) hrest
        n hn

theorem bracedOf?_everywhere : ∀ (span : Span) (ts : List Tree) {o : Option Node},
    (∀ t ∈ ts, t.Everywhere Q) → bracedOf? source span ts = .ok o → ∀ n ∈ o,
      (∃ t ∈ ts, t.kind = .hostExpr ∧ n = .expr span (t.text source) .html) ∨ n.Everywhere P
  | _, [], o, _, h => by
    cases h
    simp
  | span, ⟨kind, inner, children, message⟩ :: _, o, hs, h => by
    have hinner := hs _ (List.mem_cons_self ..)
    have hchildren : ∀ c ∈ children, c.Everywhere Q := fun c hc => hinner.child hc
    unfold bracedOf? at h
    split at h
    · cases h
      rintro n ⟨rfl⟩
      exact .inl ⟨_, List.mem_cons_self .., rfl, rfl⟩
    · obtain ⟨node, hnode, h⟩ := Checked.ok_of_bind h
      cases h
      rintro n ⟨rfl⟩
      exact .inr (rootOf_everywhere inner children hchildren hnode)
    · cases h
    · split at h
      · next flow hflow =>
        obtain ⟨branches, hbranches, h⟩ := Checked.ok_of_bind h
        cases h
        rintro n ⟨rfl⟩
        exact .inr (Node.everywhere_iff.mpr ⟨reads.flow (ofKind?_kind hflow).symm hinner hbranches,
          branchesOf_everywhere children hchildren hbranches⟩)
      · cases h

theorem rootOf_everywhere : ∀ (span : Span) (ts : List Tree) {node : Node},
    (∀ t ∈ ts, t.Everywhere Q) → rootOf source span ts = .ok node →
    node.Everywhere P
  | _, [], node, _, h => by cases h
  | span, t :: ts, node, hs, h => by
    unfold rootOf at h
    split at h
    · exact rootOf_everywhere span ts (fun u hu => hs u (List.mem_cons_of_mem _ hu)) h
    · split at h
      · cases h
      · obtain ⟨o, ho, h⟩ := Checked.ok_of_bind h
        cases o with
        | none => cases h
        | some found =>
          cases h
          exact nodeOf?_everywhere t (hs t (List.mem_cons_self ..)) ho _ rfl

theorem elementOf_everywhere : ∀ (span : Span) (ts : List Tree)
    {node : Node}, (∀ t ∈ ts, t.Everywhere Q) →
    (∀ start rest, ts = start :: rest → start.kind = .startTag) →
    elementOf source span ts = .ok node → node.Everywhere P
  | _, [], node, _, _, h => by cases h
  | span, ⟨kind, _, parts, _⟩ :: rest, node, hs, hkind, h => by
    have hstart := hs _ (List.mem_cons_self ..)
    unfold elementOf at h
    obtain ⟨tag, htag, h⟩ := Checked.ok_of_bind h
    have hvalues := tagOf_everywhere span parts (fun p hp => hstart.child hp) htag
    dsimp only at h
    split at h
    · cases h
    · obtain ⟨children, hchildren, h⟩ := Checked.ok_of_bind h
      have hinner :=
        innerNodesOf_everywhere rest (fun u hu => hs u (List.mem_cons_of_mem _ hu)) hchildren
      obtain ⟨rfl, hcheck⟩ : node = .element tag children ∧
          (tag.isComponent = true → checkChildren tag children = .ok ()) := by
        split at h
        · obtain ⟨_, hcheck, h⟩ := Checked.ok_of_bind h
          cases h
          exact ⟨rfl, fun _ => hcheck⟩
        · next hkind =>
          cases h
          exact ⟨rfl, fun hcomponent => absurd hcomponent hkind⟩
      refine Node.everywhere_iff.mpr
        ⟨reads.element hcheck (hkind _ _ rfl) hstart htag, fun n hn => ?_⟩
      rcases List.mem_append.mp hn with hn | hn
      · exact hvalues n hn
      · exact hinner n hn

theorem tagOf_everywhere : ∀ (span : Span) (ts : List Tree) {tag : Tag},
    (∀ t ∈ ts, t.Everywhere Q) → tagOf source span ts = .ok tag →
    ∀ n ∈ tag.attributes.filterMap Attribute.node?, n.Everywhere P
  | _, [], tag, _, h => by cases h
  | _, name :: rest, tag, hs, h => by
    unfold tagOf at h
    obtain ⟨attributes, hattributes, h⟩ := Checked.ok_of_bind h
    obtain ⟨_, _, h⟩ := Checked.ok_of_bind h
    cases h
    exact attributesOf_everywhere rest (fun u hu => hs u (List.mem_cons_of_mem _ hu)) hattributes

theorem attributesOf_everywhere : ∀ (ts : List Tree) {attributes : List Attribute},
    (∀ t ∈ ts, t.Everywhere Q) → attributesOf source ts = .ok attributes →
    ∀ n ∈ attributes.filterMap Attribute.node?, n.Everywhere P
  | [], attributes, _, h => by
    cases h
    simp
  | t :: ts, attributes, hs, h => by
    unfold attributesOf at h
    obtain ⟨a, ha, h⟩ := Checked.ok_of_bind h
    obtain ⟨rest, hrest, h⟩ := Checked.ok_of_bind h
    cases h
    intro n hn
    obtain ⟨b, hb, hnode⟩ := List.mem_filterMap.mp hn
    rcases List.mem_cons.mp hb with rfl | hb
    · exact attributeOf_everywhere t (hs t (List.mem_cons_self ..)) ha n hnode
    · exact attributesOf_everywhere ts (fun u hu => hs u (List.mem_cons_of_mem _ hu)) hrest n
        (List.mem_filterMap.mpr ⟨b, hb, hnode⟩)

theorem attributeOf_everywhere : ∀ (t : Tree) {a : Attribute}, t.Everywhere Q →
    attributeOf source t = .ok a → ∀ n ∈ a.node?, n.Everywhere P
  | ⟨kind, span, children, _⟩, a, hs, h => by
    unfold attributeOf at h
    cases kind
    case staticAttribute => exact staticOf_everywhere span _ children (fun c hc => hs.child hc) h
    case builtinAttribute =>
      obtain ⟨builtin, _, h⟩ := Checked.ok_of_bind h
      split at h
      · cases h
      · obtain ⟨value, _, h⟩ := Checked.ok_of_bind h
        cases h
        simp [Attribute.node?]
    case builtinShorthandAttribute =>
      obtain ⟨builtin, _, h⟩ := Checked.ok_of_bind h
      split at h
      · cases h
      · cases h
        simp [Attribute.node?]
    case shorthandAttribute =>
      cases h
      simp [Attribute.node?]
    case spreadAttribute =>
      cases h
      simp [Attribute.node?]
    all_goals cases h

theorem staticOf_everywhere : ∀ (span : Span) (name : String) (ts : List Tree) {a : Attribute},
    (∀ t ∈ ts, t.Everywhere Q) → staticOf source span name ts = .ok a →
    ∀ n ∈ a.node?, n.Everywhere P
  | _, _, [], a, _, h => by
    cases h
    simp [Attribute.node?]
  | _, _, [_], a, _, h => by
    cases h
    simp [Attribute.node?]
  | span, name, _ :: ⟨kind, valueSpan, children, _⟩ :: _, a, hs, h => by
    have hvalue := hs _ (List.mem_cons_of_mem _ (List.mem_cons_self ..))
    unfold staticOf at h
    cases kind
    case stringValue =>
      cases h
      simp [Attribute.node?]
    case templateString =>
      cases h
      simp [Attribute.node?]
    case exprValue =>
      obtain ⟨o, ho, h⟩ := Checked.ok_of_bind h
      cases o with
      | none => cases h
      | some node =>
        cases h
        intro n hn
        obtain rfl := node?_valueOf hn
        rcases bracedOf?_everywhere valueSpan children (fun c hc => hvalue.child hc) ho n rfl
          with ⟨t, _, _, rfl⟩ | hnode
        · cases hn
        · exact hnode
    all_goals cases h

theorem branchesOf_everywhere : ∀ (ts : List Tree) {branches : List Branch},
    (∀ t ∈ ts, t.Everywhere Q) → branchesOf source ts = .ok branches →
    ∀ n ∈ branches.flatMap (fun b => b.body.all), n.Everywhere P
  | [], branches, _, h => by
    cases h
    simp
  | ⟨kind, span, parts, message⟩ :: ts, branches, hs, h => by
    have hbranch := hs _ (List.mem_cons_self ..)
    have hrest : ∀ t ∈ ts, t.Everywhere Q := fun u hu => hs u (List.mem_cons_of_mem _ hu)
    unfold branchesOf at h
    split at h
    · obtain ⟨body, hbody, h⟩ := Checked.ok_of_bind h
      obtain ⟨others, hothers, h⟩ := Checked.ok_of_bind h
      cases h
      intro n hn
      rw [List.flatMap_cons] at hn
      rcases List.mem_append.mp hn with hn | hn
      · exact bodyOf_everywhere span parts (fun p hp => hbranch.child hp) hbody n hn
      · exact branchesOf_everywhere ts hrest hothers n hn
    · exact branchesOf_everywhere ts hrest h

theorem bodyOf_everywhere : ∀ (span : Span) (ts : List Tree) {body : Body},
    (∀ t ∈ ts, t.Everywhere Q) → bodyOf source span ts = .ok body →
    ∀ n ∈ body.all, n.Everywhere P
  | _, [], body, _, h => by cases h
  | span, ⟨kind, _, children, _⟩ :: parts, body, hs, h => by
    have hfirst := hs _ (List.mem_cons_self ..)
    unfold bodyOf at h
    split at h
    · -- Only a template root alone is a body of one node.
      match children, hfirst, h with
      | [], _, h => cases h; simp [Body.all]
      | [⟨kind, rootSpan, items, m⟩], hfirst, h =>
        have hroot := hfirst.child (List.mem_cons_self ..)
        by_cases hkind : kind = .templateRoot
        · subst hkind
          obtain ⟨node, hnode, h⟩ := Checked.ok_of_bind h
          cases h
          simpa [Body.all] using rootOf_everywhere rootSpan items (fun c hc => hroot.child hc) hnode
        · split at h
          · next heq => cases heq; exact absurd rfl hkind
          · obtain ⟨nodes, hnodes, h⟩ := Checked.ok_of_bind h
            cases h
            exact nodesOf_everywhere [⟨kind, rootSpan, items, m⟩] (by simpa using hroot) hnodes
      | first :: second :: rest, hfirst, h =>
        split at h
        · next heq => cases heq
        · obtain ⟨nodes, hnodes, h⟩ := Checked.ok_of_bind h
          cases h
          exact nodesOf_everywhere (first :: second :: rest) (fun c hc => hfirst.child hc) hnodes
    · exact bodyOf_everywhere span parts (fun u hu => hs u (List.mem_cons_of_mem _ hu)) h
end

end Reading

theorem reads_lowered (source : Bytes) : Reads source Shaped Node.Lowered where
  shaped h := h
  element _ _ hstart htag := tag_lowered (fun _ hp => hstart.child hp) htag
  selfClosing _ hs htag := tag_lowered (fun _ hp => hs.child hp) htag
  fragment _ _ := trivial
  expr _ _ _ _ _ := trivial
  text _ _ _ _ := trivial
  flow {t _ _} hkind hs hbranches := by
    obtain ⟨kind, span, children, message⟩ := t
    obtain rfl : kind = _ := hkind
    exact ⟨arranged_of_shaped hs.here hbranches,
      branches_lowered (fun _ hc => hs.child hc) hbranches⟩

end OfTree

/-- An accepted template is the one node of a template root. -/
theorem exists_root_of_templatesOf {source : Bytes} {templates : List Template}
    (h : templatesOf source (parse source) = .ok templates) {template : Template}
    (ht : template ∈ templates) : ∃ root ∈ (parse source).children, root.kind = .templateRoot ∧
      OfTree.rootOf source root.span root.children = .ok template.node := by
  unfold templatesOf at h
  split at h
  · cases h
  · obtain ⟨root, hroot, hmade⟩ := Checked.exists_of_mem_mapM h ht
    obtain ⟨node, hnode, hmade⟩ := Checked.ok_of_bind hmade
    cases hmade
    obtain ⟨hchild, hkind⟩ := List.mem_filter.mp hroot
    exact ⟨root, hchild, by simpa using hkind, hnode⟩

/-- What reading brings about holds everywhere in an accepted template. -/
theorem everywhere_of_templatesOf {source : Bytes} {Q : Tree → Prop} {P : Node → Prop}
    (reads : OfTree.Reads source Q P) (hparse : (parse source).Everywhere Q)
    {templates : List Template} (h : templatesOf source (parse source) = .ok templates)
    {template : Template} (ht : template ∈ templates) : template.node.Everywhere P := by
  obtain ⟨root, hroot, _, hnode⟩ := exists_root_of_templatesOf h ht
  exact OfTree.rootOf_everywhere reads root.span root.children
    (fun c hc => (hparse.child hroot).child hc) hnode

/-- Every accepted template is lowered everywhere. -/
theorem lowered_of_templatesOf {source : Bytes} {templates : List Template}
    (h : templatesOf source (parse source) = .ok templates) {template : Template}
    (ht : template ∈ templates) : template.node.Everywhere Node.Lowered :=
  everywhere_of_templatesOf (OfTree.reads_lowered source) (parse_shaped source) h ht

theorem isText_of_templatesOf {source : Bytes} {templates : List Template}
    (h : templatesOf source (parse source) = .ok templates) {template : Template}
    (ht : template ∈ templates) : template.node.isText = false := by
  obtain ⟨root, hroot, hkind, hnode⟩ := exists_root_of_templatesOf h ht
  exact OfTree.rootOf_isText_of_shaped hkind ((parse_shaped source).child hroot).here hnode

end ZigMarkup
