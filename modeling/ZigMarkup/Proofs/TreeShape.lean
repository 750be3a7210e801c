import ZigMarkup.Proofs.Scan
import ZigMarkup.Syntax.Parser

/-!
The shape of syntax trees. `Shaped` says for one node which children its kind may have: an
element begins with its start tag and ends with its end tag, a branch holds a body, the first
branch of an `if` has a condition. Every node of every tree that `parse` builds is shaped.
-/
namespace ZigMarkup

namespace Kind

/-- What begins with `<` and is not a closing tag. -/
def isMarkup : Kind → Bool
  | element | selfClosingElement | fragment | comment => true
  | _ => false

/-- What a list of children holds. -/
def isChild : Kind → Bool
  | text | expressionBlock | error => true
  | kind => kind.isMarkup

def isAttribute : Kind → Bool
  | staticAttribute | builtinAttribute | shorthandAttribute | builtinShorthandAttribute
  | spreadAttribute | error => true
  | _ => false

/-- What follows the `=` of an attribute. -/
def isValue : Kind → Bool
  | stringValue | exprValue | templateString | error => true
  | _ => false

/-- What stands in a branch before its body. -/
def isHead : Kind → Bool
  | header | pattern | capture => true
  | _ => false

/-- What stands between braces. -/
def isInner : Kind → Bool
  | hostExpr | templateRoot => true
  | kind => kind.isControlFlow

end Kind

namespace Tree

/-- A property of a node and of all nodes below it. -/
def Everywhere (P : Tree → Prop) (t : Tree) : Prop := ∀ u ∈ t.preorder, P u

theorem mem_preorderAll {u : Tree} {ts : List Tree} :
    u ∈ preorderAll ts ↔ ∃ t ∈ ts, u ∈ t.preorder := by
  induction ts with
  | nil => simp [preorderAll]
  | cons t ts ih => simp [preorderAll, ih]

theorem preorder_eq (t : Tree) : t.preorder = t :: preorderAll t.children := by
  cases t
  rw [preorder]

theorem everywhere_iff {P : Tree → Prop} {t : Tree} :
    Everywhere P t ↔ P t ∧ ∀ c ∈ t.children, Everywhere P c := by
  unfold Everywhere
  rw [preorder_eq]
  constructor
  · intro h
    refine ⟨h t (List.mem_cons_self ..), fun c hc u hu => h u ?_⟩
    exact List.mem_cons_of_mem _ (mem_preorderAll.mpr ⟨c, hc, hu⟩)
  · rintro ⟨ht, hall⟩ u hu
    rcases List.mem_cons.mp hu with rfl | hu
    · exact ht
    · obtain ⟨c, hc, hu⟩ := mem_preorderAll.mp hu
      exact hall c hc u hu

theorem Everywhere.here {P : Tree → Prop} {t : Tree} (h : Everywhere P t) : P t :=
  (everywhere_iff.mp h).1

theorem Everywhere.child {P : Tree → Prop} {t c : Tree} (h : Everywhere P t)
    (hc : c ∈ t.children) : Everywhere P c := (everywhere_iff.mp h).2 c hc

/-- Which children a node of each kind has. Error nodes may stand for children, attributes,
attribute values and the content of a template root. -/
def Shaped (t : Tree) : Prop :=
  match t.kind with
  | .templateRoot => (∃ e, t.children = [e] ∧ e.kind = .error) ∨
      ∃ first rest, t.children = first :: rest ∧ first.kind ≠ .comment ∧
        ∀ c ∈ t.children, c.kind.isMarkup
  | .element => ∃ start items close, t.children = start :: items ++ [close] ∧
      start.kind = .startTag ∧ close.kind = .endTag ∧ ∀ c ∈ items, c.kind.isChild
  | .fragment => ∃ items close, t.children = items ++ [close] ∧ close.kind = .endTag ∧
      ∀ c ∈ items, c.kind.isChild
  | .startTag | .selfClosingElement => ∃ name attributes, t.children = name :: attributes ∧
      name.kind = .tagName ∧ ∀ a ∈ attributes, a.kind.isAttribute
  | .expressionBlock | .exprValue => t.children = [] ∨
      ∃ inner, t.children = [inner] ∧ inner.kind.isInner
  | .staticAttribute | .builtinAttribute => ∃ (name : Tree) (value? : Option Tree),
      t.children = name :: value?.toList ∧ name.kind = .attrName ∧ ∀ v ∈ value?, v.kind.isValue
  | .shorthandAttribute | .builtinShorthandAttribute => ∃ name, t.children = [name] ∧
      name.kind = .attrName
  | .spreadAttribute => ∃ code, t.children = [code] ∧ code.kind = .hostExpr
  | .ifBlock => ∃ (first : Tree) (others : List Tree) (last? : Option Tree),
      t.children = first :: others ++ last?.toList ∧
      (∀ b ∈ t.children, b.kind = .branch) ∧
      ∀ b ∈ first :: others, (b.child? .header).isSome
  | .forBlock | .whileBlock => ∃ b, t.children = [b] ∧ b.kind = .branch ∧
      (b.child? .header).isSome
  | .switchBlock => ∃ header first rest, t.children = header :: first :: rest ∧
      header.kind = .header ∧ ∀ b ∈ first :: rest, b.kind = .branch ∧ (b.child? .pattern).isSome
  | .branch => ∃ heads b, t.children = heads ++ [b] ∧ b.kind = .body ∧
      ∀ h ∈ heads, h.kind.isHead
  | .body => (∃ root, t.children = [root] ∧ root.kind = .templateRoot) ∨
      ∀ c ∈ t.children, c.kind.isChild
  | .endTag => ∀ c ∈ t.children, c.kind = .tagName
  | .templateString => ∀ c ∈ t.children, c.kind = .templateText ∨ c.kind = .hostExpr
  | .sourceFile => ∀ c ∈ t.children, c.kind = .hostText ∨ c.kind = .templateRoot
  | _ => t.children = []

/-- A shaped tree whose root is of a kind that `K` allows. -/
structure Sound (K : Kind → Bool) (t : Tree) : Prop where
  kind : K t.kind
  shape : Everywhere Shaped t

theorem Sound.mono {K L : Kind → Bool} {t : Tree} (h : Sound K t)
    (hKL : ∀ k, K k → L k) : Sound L t := ⟨hKL _ h.kind, h.shape⟩

theorem sound_node {K : Kind → Bool} {kind : Kind} {span : Span} {children : List Tree}
    (hkind : K kind) (hshape : Shaped (.node kind span children))
    (hchildren : ∀ c ∈ children, Everywhere Shaped c) : Sound K (.node kind span children) :=
  ⟨hkind, everywhere_iff.mpr ⟨hshape, hchildren⟩⟩

theorem everywhere_leaf {P : Tree → Prop} {kind : Kind} {span : Span}
    (h : P (.leaf kind span)) : Everywhere P (.leaf kind span) :=
  everywhere_iff.mpr ⟨h, by simp [leaf]⟩

/-- A node over one leaf. -/
theorem sound_node_leaf {K : Kind → Bool} {kind inner : Kind} {span innerSpan : Span}
    (hkind : K kind) (hshape : Shaped (.node kind span [.leaf inner innerSpan]))
    (hinner : Shaped (.leaf inner innerSpan)) :
    Sound K (.node kind span [.leaf inner innerSpan]) :=
  sound_node hkind hshape (by simpa using everywhere_leaf hinner)

theorem sound_error {K : Kind → Bool} (span : Span) (message : String) (h : K .error) :
    Sound K (.error span message) :=
  ⟨h, everywhere_iff.mpr ⟨rfl, by simp [error]⟩⟩

end Tree

/-- Whether an element or a fragment begins at the cursor. -/
def Cursor.opensMarkup (c : Cursor) : Prop :=
  ∃ b rest, c.rest = ascii '<' :: b :: rest ∧ (b = ascii '>' ∨ isIdentStart b)

namespace Parser

open ScanM Tree

theorem gives_leafFrom {kind : Kind} {start : Cursor} {P : Tree → Prop}
    (h : ∀ span, P (.leaf kind span)) : Gives (leafFrom kind start) P :=
  Gives.after fun _ => Gives.pure (h _)

theorem gives_nodeFrom {kind : Kind} {start : Cursor} {children : List Tree} {P : Tree → Prop}
    (h : ∀ span, P (.node kind span children)) : Gives (nodeFrom kind start children) P :=
  Gives.after fun _ => Gives.pure (h _)

theorem sound_leaf {K : Kind → Bool} {kind : Kind} (hkind : K kind)
    (hshape : ∀ span, Shaped (.leaf kind span)) (span : Span) : Sound K (.leaf kind span) :=
  ⟨hkind, everywhere_leaf (hshape span)⟩

theorem gives_comment : Gives comment (Sound Kind.isMarkup) := by
  refine Gives.after fun start => ?_
  split
  · exact Gives.after fun _ => gives_leafFrom (sound_leaf rfl fun _ => rfl)
  · exact gives_fail _ _

theorem gives_endTag : Gives endTag (Sound (· == .endTag)) := by
  refine Gives.after fun start => Gives.after fun _ => Gives.after fun _ => ?_
  refine Gives.after fun name? => Gives.after fun _ => Gives.after fun _ => ?_
  refine gives_nodeFrom fun span => sound_node rfl ?_ ?_
  · intro c hc
    obtain ⟨name, _, rfl⟩ := List.mem_map.mp hc
    rfl
  · intro c hc
    obtain ⟨name, _, rfl⟩ := List.mem_map.mp hc
    exact everywhere_leaf rfl

theorem gives_strayEndTag {α : Type} {P : α → Prop} : Gives (strayEndTag : ScanM α) P :=
  Gives.after fun _ => Gives.after fun _ => Gives.after fun _ => gives_fail _ _

theorem gives_text : Gives text (Sound (· == .text)) :=
  Gives.after fun _ => Gives.after fun _ => gives_leafFrom (sound_leaf rfl fun _ => rfl)

/-- What the productions one level further in are known to give. -/
structure SoundNested (g : Nested) : Prop where
  tag : Gives g.tag (Sound Kind.isMarkup)
  opened : ∀ c t next, c.opensMarkup → g.tag c = .ok t next → t.kind ≠ .comment
  child : Gives (g.braces .expressionBlock) (Sound fun k => k == .expressionBlock || k == .error)
  value : Gives (g.braces .exprValue) (Sound fun k => k == .exprValue || k == .error)

/-! ## Attributes -/

theorem gives_templatePiece (opening : Cursor) :
    Gives (templatePiece opening) fun o =>
      ∀ p ∈ o, Sound (fun k => k == .templateText || k == .hostExpr) p.1 := by
  refine Gives.after fun start => ?_
  split
  · exact gives_fail _ _
  · refine Gives.ite (fun _ => Gives.pure (by simp)) fun _ => Gives.ite (fun _ => ?_) fun _ => ?_
    · refine Gives.after fun _ => Gives.after fun next => Gives.pure ?_
      rintro p ⟨rfl⟩
      exact ⟨rfl, everywhere_leaf rfl⟩
    · have hleaf : Gives (leafFrom .templateText start)
          (Sound fun k => k == .templateText || k == .hostExpr) :=
        gives_leafFrom (sound_leaf rfl fun _ => rfl)
      refine Gives.after fun _ => Gives.bind hleaf fun piece hpiece => Gives.pure ?_
      rintro p ⟨rfl⟩
      exact hpiece

theorem gives_templateString : Gives templateString (Sound (· == .templateString)) := by
  refine Gives.after fun start => Gives.after fun _ => ?_
  refine Gives.bind (gives_many (gives_templatePiece start)) fun pieces hpieces => ?_
  refine Gives.after fun _ => ?_
  split
  · exact gives_fail _ _
  · refine gives_nodeFrom fun span => sound_node rfl ?_ ?_
    · intro c hc
      obtain ⟨p, hp, rfl⟩ := List.mem_map.mp hc
      simpa using (hpieces p hp).kind
    · intro c hc
      obtain ⟨p, hp, rfl⟩ := List.mem_map.mp hc
      exact (hpieces p hp).shape

theorem gives_attributeValue {g : Nested} (hg : SoundNested g) :
    Gives (attributeValue g) (Sound Kind.isValue) := by
  refine Gives.after fun start => ?_
  refine Gives.ite (fun _ => ?_) fun _ => Gives.ite (fun _ => ?_) fun _ =>
    Gives.ite (fun _ => ?_) fun _ => Gives.ite (fun _ => ?_) fun _ => gives_expected _
  · exact Gives.after fun _ => gives_leafFrom (sound_leaf rfl fun _ => rfl)
  · refine hg.value.mono fun t ht => ht.mono ?_
    intro k hk
    cases k <;> simp_all [Kind.isValue]
  · refine gives_templateString.mono fun t ht => ht.mono ?_
    intro k hk
    cases k <;> simp_all [Kind.isValue]
  · refine Gives.after fun _ => Gives.after fun _ => Gives.pure (sound_node_leaf rfl ?_ rfl)
    exact Or.inr ⟨_, rfl, rfl⟩

theorem gives_attributeValue? {g : Nested} (hg : SoundNested g) :
    Gives (attributeValue? g) fun o => ∀ v ∈ o, Sound Kind.isValue v := by
  refine Gives.after fun before => Gives.after fun _ => Gives.after fun found => ?_
  refine Gives.ite (fun _ => ?_) fun _ => ?_
  · refine Gives.after fun _ => Gives.bind (gives_attributeValue hg) fun v hv => Gives.pure ?_
    rintro w ⟨rfl⟩
    exact hv
  · exact Gives.after fun _ => Gives.pure (by simp)

/-- A name and perhaps a value make an attribute. -/
theorem sound_named {kind : Kind} (hkind : kind = .staticAttribute ∨ kind = .builtinAttribute)
    (name span : Span) {value? : Option Tree} (hvalue : ∀ v ∈ value?, Sound Kind.isValue v) :
    Sound Kind.isAttribute (.node kind span (.leaf .attrName name :: value?.toList)) := by
  have hshape : Shaped (.node kind span (.leaf .attrName name :: value?.toList)) := by
    have h : ∃ (n : Tree) (v? : Option Tree), Tree.leaf .attrName name :: value?.toList =
        n :: v?.toList ∧ n.kind = .attrName ∧ ∀ v ∈ v?, v.kind.isValue :=
      ⟨_, value?, rfl, rfl, fun v hv => (hvalue v hv).kind⟩
    rcases hkind with rfl | rfl <;> exact h
  refine sound_node ?_ hshape ?_
  · rcases hkind with rfl | rfl <;> rfl
  · intro c hc
    rcases List.mem_cons.mp hc with rfl | hc
    · exact everywhere_leaf rfl
    · exact (hvalue c (by simpa using hc)).shape

theorem gives_spread (start : Cursor) : Gives (spread start) (Sound Kind.isAttribute) := by
  refine Gives.after fun _ => Gives.after fun _ => Gives.after fun next => ?_
  refine Gives.ite (fun _ => gives_fail _ _) fun _ => gives_nodeFrom fun span => ?_
  exact sound_node_leaf rfl ⟨_, rfl, rfl⟩ rfl

theorem gives_bracedAttribute : Gives bracedAttribute (Sound Kind.isAttribute) := by
  refine Gives.after fun start => Gives.after fun _ => Gives.after fun _ => Gives.after fun _ => ?_
  refine Gives.ite (fun _ => gives_spread start) fun _ => Gives.after fun builtin => ?_
  refine Gives.after fun name? => ?_
  split
  · exact gives_expected _
  · refine Gives.after fun _ => Gives.after fun _ => gives_nodeFrom fun span => ?_
    split
    · exact sound_node_leaf rfl ⟨_, rfl, rfl⟩ rfl
    · exact sound_node_leaf rfl ⟨_, rfl, rfl⟩ rfl

theorem gives_attr {g : Nested} (hg : SoundNested g) : Gives (attr g) (Sound Kind.isAttribute) := by
  refine Gives.after fun start => ?_
  split
  · exact gives_fail _ _
  · refine Gives.ite (fun _ => Gives.after fun _ => Gives.after fun name? => ?_) fun _ =>
      Gives.ite (fun _ => gives_bracedAttribute) fun _ => Gives.after fun name? => ?_
    · split
      · exact gives_expected _
      · refine Gives.bind (gives_attributeValue? hg) fun value? hvalue => gives_nodeFrom ?_
        exact fun span => sound_named (Or.inr rfl) _ span hvalue
    · split
      · refine Gives.bind (gives_attributeValue? hg) fun value? hvalue => gives_nodeFrom ?_
        exact fun span => sound_named (Or.inl rfl) _ span hvalue
      · exact gives_fail _ _

theorem gives_attrOrError {g : Nested} (hg : SoundNested g) :
    Gives (attrOrError g) (Sound Kind.isAttribute) := by
  intro c t next h
  unfold attrOrError at h
  split at h
  · next hattr =>
    cases h
    exact gives_attr hg c _ _ hattr
  · cases h
    exact sound_error _ _ rfl

/-! ## Control flow -/

theorem gives_header (withContinue : Bool) :
    Gives (header withContinue) fun t => t.kind = .header ∧ Everywhere Shaped t := by
  refine Gives.after fun start => Gives.after fun _ => Gives.after fun _ => Gives.after fun _ => ?_
  have hleaf : ∀ stop : Cursor, Gives (do set stop; leafFrom .header start)
      fun t => t.kind = .header ∧ Everywhere Shaped t := fun _ =>
    Gives.after fun _ => gives_leafFrom fun _ => ⟨rfl, everywhere_leaf rfl⟩
  have hstop : ∀ captured : Cursor, Gives (do
      let stop ← if withContinue then continueClause captured else pure captured
      set stop
      leafFrom .header start) fun t => t.kind = .header ∧ Everywhere Shaped t := by
    intro captured
    dsimp only
    exact Gives.ite (fun _ => Gives.after hleaf) fun _ => Gives.after hleaf
  refine Gives.after fun found => ?_
  dsimp only
  exact Gives.ite (fun _ => Gives.after hstop) fun _ => Gives.after hstop

/-- A branch is shaped when its last part is a body. -/
theorem everywhere_branch {span : Span} {heads : List Tree} {b : Tree}
    (hb : Sound (· == .body) b) (hheads : ∀ h ∈ heads, Sound Kind.isHead h) :
    Everywhere Shaped (.node .branch span (heads ++ [b])) := by
  have hshape : Shaped (.node .branch span (heads ++ [b])) :=
    ⟨heads, b, rfl, by simpa using hb.kind, fun h hh => (hheads h hh).kind⟩
  refine everywhere_iff.mpr ⟨hshape, fun c hc => ?_⟩
  rcases List.mem_append.mp hc with hc | hc
  · exact (hheads c hc).shape
  · rw [List.mem_singleton.mp hc]
    exact hb.shape

/-- A shaped branch with a part of kind `head`. -/
structure Branched (head : Kind) (t : Tree) : Prop where
  kind : t.kind = .branch
  head : (t.child? head).isSome
  shape : Everywhere Shaped t

section ControlFlow

variable {body : ScanM Tree} (hbody : Gives body (Sound (· == .body)))

include hbody

theorem gives_headedBranch (start : Cursor) (withContinue : Bool) :
    Gives (headedBranch body start withContinue) (Branched .header) := by
  refine Gives.after fun _ => Gives.bind (gives_header withContinue) fun h hh => ?_
  refine Gives.after fun _ => Gives.bind hbody fun b hb => gives_nodeFrom fun span => ?_
  have hheads : ∀ p ∈ [h], Sound Kind.isHead p := by
    intro p hp
    rw [List.mem_singleton.mp hp]
    exact ⟨by rw [hh.1]; rfl, hh.2⟩
  exact ⟨rfl, by simp [Tree.node, Tree.child?, hh.1], everywhere_branch hb hheads⟩

theorem gives_capturedBody : Gives (capturedBody body) fun parts => ∃ before b,
    parts = before ++ [b] ∧ Sound (· == .body) b ∧ ∀ p ∈ before, Sound Kind.isHead p := by
  refine Gives.after fun capture? => ?_
  split
  · next span =>
    refine Gives.after fun _ => Gives.bind hbody fun b hb => Gives.pure ?_
    refine ⟨[.leaf .capture span], b, rfl, hb, fun p hp => ?_⟩
    rw [List.mem_singleton.mp hp]
    exact ⟨rfl, everywhere_leaf rfl⟩
  · exact Gives.bind hbody fun b hb => Gives.pure ⟨[], b, rfl, hb, by simp⟩

theorem gives_elseIf? : Gives (elseIf? body) fun o => ∀ t ∈ o, Branched .header t := by
  refine Gives.after fun before => Gives.ite (fun _ => ?_) fun _ => Gives.pure (by simp)
  refine Gives.after fun _ => Gives.bind (gives_headedBranch hbody _ _) fun t ht => Gives.pure ?_
  rintro u ⟨rfl⟩
  exact ht

theorem gives_else? :
    Gives (else? body) fun o => ∀ t ∈ o, t.kind = .branch ∧ Everywhere Shaped t := by
  refine Gives.after fun before => Gives.ite (fun _ => ?_) fun _ => Gives.pure (by simp)
  refine Gives.after fun _ => Gives.bind (gives_capturedBody hbody) fun parts hparts => ?_
  obtain ⟨init, b, rfl, hb, hinit⟩ := hparts
  have hnode : Gives (nodeFrom .branch before.skipBlanks (init ++ [b]))
      fun t => t.kind = .branch ∧ Everywhere Shaped t :=
    gives_nodeFrom fun _ => ⟨rfl, everywhere_branch hb hinit⟩
  refine Gives.bind hnode fun t ht => Gives.pure ?_
  rintro u ⟨rfl⟩
  exact ht

theorem gives_ifBlock : Gives (ifBlock body) (Sound Kind.isControlFlow) := by
  refine Gives.after fun start => Gives.after fun _ => ?_
  refine Gives.bind (gives_headedBranch hbody _ _) fun first hfirst => ?_
  refine Gives.bind (gives_many (gives_elseIf? hbody)) fun others hothers => ?_
  refine Gives.bind (gives_else? hbody) fun last? hlast => gives_nodeFrom fun span => ?_
  have hall : ∀ b ∈ first :: others ++ last?.toList,
      b.kind = .branch ∧ Everywhere Shaped b := by
    intro b hb
    rcases List.mem_append.mp hb with hb | hb
    · rcases List.mem_cons.mp hb with rfl | hb
      · exact ⟨hfirst.kind, hfirst.shape⟩
      · exact ⟨(hothers b hb).kind, (hothers b hb).shape⟩
    · exact hlast b (by simpa using hb)
  refine sound_node rfl ⟨first, others, last?, rfl, fun b hb => (hall b hb).1, ?_⟩
    fun b hb => (hall b hb).2
  intro b hb
  rcases List.mem_cons.mp hb with rfl | hb
  · exact hfirst.head
  · exact (hothers b hb).head

theorem gives_loopBlock (flow : FlowKind) (h : flow = .forLoop ∨ flow = .whileLoop) :
    Gives (loopBlock body flow) (Sound Kind.isControlFlow) := by
  refine Gives.after fun start => Gives.after fun _ => ?_
  refine Gives.bind (gives_headedBranch hbody _ _) fun b hb => gives_nodeFrom fun span => ?_
  have hshape : ∀ c ∈ [b], Everywhere Shaped c := by simpa using hb.shape
  rcases h with rfl | rfl <;> exact sound_node rfl ⟨b, rfl, hb.kind, hb.head⟩ hshape

theorem gives_prong? (opening : Cursor) :
    Gives (prong? body opening) fun o => ∀ t ∈ o, Branched .pattern t := by
  refine Gives.after fun _ => Gives.after fun closed => ?_
  refine Gives.ite (fun _ => Gives.pure (by simp)) fun _ => Gives.after fun start => ?_
  refine Gives.ite (fun _ => gives_fail _ _) fun _ => Gives.after fun _ => Gives.after fun _ => ?_
  refine Gives.ite (fun _ => gives_expected _) fun _ => Gives.after fun _ => Gives.after fun _ => ?_
  refine Gives.bind (gives_capturedBody hbody) fun parts hparts => ?_
  obtain ⟨init, b, rfl, hb, hinit⟩ := hparts
  have hnode : ∀ pattern : Span,
      Gives (nodeFrom .branch start (.leaf .pattern pattern :: (init ++ [b])))
        (Branched .pattern) := by
    intro pattern
    refine gives_nodeFrom fun span => ⟨rfl, rfl, ?_⟩
    rw [← List.cons_append]
    refine everywhere_branch hb fun p hp => ?_
    rcases List.mem_cons.mp hp with rfl | hp
    · exact ⟨rfl, everywhere_leaf rfl⟩
    · exact hinit p hp
  refine Gives.bind (hnode _) fun t ht => Gives.after fun _ => Gives.after fun _ => Gives.pure ?_
  rintro u ⟨rfl⟩
  exact ht

theorem gives_switchBlock : Gives (switchBlock body) (Sound Kind.isControlFlow) := by
  refine Gives.after fun start => Gives.after fun _ => Gives.after fun _ => ?_
  refine Gives.after fun subject => Gives.after fun _ => ?_
  have hleaf : Gives (leafFrom .header subject) fun t => t.kind = .header ∧ Everywhere Shaped t :=
    gives_leafFrom fun _ => ⟨rfl, everywhere_leaf rfl⟩
  refine Gives.bind hleaf fun h hh => Gives.after fun _ => Gives.after fun _ => ?_
  refine Gives.bind (gives_many (gives_prong? hbody start)) fun prongs hprongs => ?_
  refine Gives.ite (fun _ => gives_fail _ _) fun hne => gives_nodeFrom fun span => ?_
  cases prongs with
  | nil => exact absurd rfl hne
  | cons first rest =>
    refine sound_node rfl ⟨h, first, rest, rfl, hh.1, fun b hb => ?_⟩ ?_
    · exact ⟨(hprongs b hb).kind, (hprongs b hb).head⟩
    · intro c hc
      rcases List.mem_cons.mp hc with rfl | hc
      · exact hh.2
      · exact (hprongs c hc).shape

theorem gives_controlFlow (flow : FlowKind) :
    Gives (controlFlow body flow) (Sound Kind.isControlFlow) := by
  cases flow with
  | ifElse => exact gives_ifBlock hbody
  | switch => exact gives_switchBlock hbody
  | forLoop => exact gives_loopBlock hbody .forLoop (Or.inl rfl)
  | whileLoop => exact gives_loopBlock hbody .whileLoop (Or.inr rfl)

end ControlFlow

end Parser

end ZigMarkup
