import ZigMarkup.Proofs.Acceptance
import ZigMarkup.Proofs.Surface.Reading
import ZigMarkup.Proofs.Surface.Templates

/-!
What surface templates are lowered to. Where the tree of a surface template stands over its own
text, lowering gives the template that it stands for, and it does so exactly if the tags keep
their rules.
-/
namespace ZigMarkup

/-- A check that accepts exactly where `V` holds, and then with the result `a`. -/
def Yields {α : Type} (x : Checked α) (V : Prop) (a : α) : Prop := ∀ b, x = .ok b ↔ V ∧ b = a

namespace Yields

variable {α β : Type} {x : Checked α} {V W : Prop} {a : α}

theorem ok (a : α) : Yields (.ok a) True a := by
  intro b
  constructor
  · intro h
    exact ⟨trivial, (Except.ok.inj h).symm⟩
  · rintro ⟨_, rfl⟩
    rfl

theorem of_decides (h : Decides x V) (hvalue : ∀ b, x = .ok b → b = a) : Yields x V a := by
  intro b
  constructor
  · intro hb
    exact ⟨h.holds hb, hvalue b hb⟩
  · rintro ⟨hv, rfl⟩
    obtain ⟨c, hc⟩ := h.ok_iff.mpr hv
    rwa [hvalue c hc] at hc

theorem congr (h : Yields x V a) (hiff : V ↔ W) : Yields x W a := by
  intro b
  rw [h b, hiff]

theorem bind {f : α → Checked β} {b : β} (hx : Yields x V a) (hf : Yields (f a) W b) :
    Yields (x >>= f) (V ∧ W) b := by
  intro c
  constructor
  · intro h
    obtain ⟨a', ha, hc⟩ := Checked.ok_of_bind h
    obtain ⟨hv, rfl⟩ := (hx a').mp ha
    obtain ⟨hw, hcb⟩ := (hf c).mp hc
    exact ⟨⟨hv, hw⟩, hcb⟩
  · rintro ⟨⟨hv, hw⟩, hcb⟩
    rw [(hx a).mpr ⟨hv, rfl⟩]
    exact (hf c).mpr ⟨hw, hcb⟩

theorem map (f : α → β) (hx : Yields x V a) : Yields (x >>= fun a => .ok (f a)) V (f a) :=
  (hx.bind (ok (f a))).congr (iff_of_eq (and_true V))

end Yields

namespace Surface

open OfTree

variable {source : Bytes}

/-! ## Text in its place -/

/-- The source has this text at an offset. -/
def Located (source : Bytes) (pos : Nat) (text : String) : Prop :=
  utf8 text <+: source.drop pos

theorem located_append {pos : Nat} {s t : String} :
    Located source pos (s ++ t) ↔ Located source pos s ∧ Located source (pos + width s) t := by
  unfold Located
  rw [utf8_append, ← List.drop_drop]
  constructor
  · rintro ⟨rest, hrest⟩
    rw [← hrest, List.append_assoc, width, List.drop_left]
    exact ⟨List.prefix_append _ _, List.prefix_append _ _⟩
  · rintro ⟨⟨more, hmore⟩, hrest⟩
    rw [← hmore, width, List.drop_left] at hrest
    rw [← hmore]
    obtain ⟨rest, rfl⟩ := hrest
    exact ⟨rest, List.append_assoc _ _ _⟩

theorem Located.text {pos : Nat} {s : String} (h : Located source pos s) :
    (spanAt pos s).text source = s := by
  obtain ⟨rest, hrest⟩ := h
  unfold Span.text Span.slice
  change decode ((source.drop pos).take (pos + width s - pos)) = s
  rw [Nat.add_sub_cancel_left, ← hrest, width, List.take_left, decode_utf8]

/-! ## Parts that are lowered

Where the text of a part stands in the source, lowering its trees gives what the part stands for,
exactly if the part is valid. -/

def Attrs.Lowers (source : Bytes) (attributes : Attrs) : Prop :=
  ∀ pos, Located source pos attributes.text →
    Yields (attributesOf source (attributes.trees pos)) attributes.Valid (attributes.attributes pos)

def Attr.Lowers (source : Bytes) (attr : Attr) : Prop :=
  ∀ pos, Located source pos attr.text →
    Yields (attributeOf source (attr.tree pos)) attr.Valid (attr.attribute pos)

def Value.Lowers (source : Bytes) (value : Value) : Prop :=
  ∀ span name label pos, Located source pos value.text →
    Yields (staticOf source span name [label, value.tree pos]) value.Valid
      (value.attribute span name pos)

def Braces.Lowers (source : Bytes) (braces : Braces) : Prop :=
  ∀ kind pos, Located source pos braces.text →
    Yields (bracedOf? source (spanAt pos braces.text) (braces.tree kind pos).children) braces.Valid
      (some (braces.node pos))

def Root.Lowers (source : Bytes) (root : Root) : Prop :=
  ∀ pos, Located source pos root.text →
    Yields (rootOf source (spanAt pos root.text) (root.tree pos).children) root.Valid
      (root.node pos)

def Markup.Lowers (source : Bytes) (markup : Markup) : Prop :=
  ∀ pos, Located source pos markup.text →
    Yields (nodeOf? source (markup.tree pos)) markup.Valid (some (markup.node pos))

def Children.Lowers (source : Bytes) (children : Children) : Prop :=
  ∀ pos, Located source pos children.text →
    Yields (nodesOf source (children.trees pos)) children.Valid (children.nodes pos)

def Items.Lowers (source : Bytes) (items : Items) : Prop :=
  ∀ pos, Located source pos items.text →
    Yields (nodesOf source (items.trees pos)) items.Valid (items.nodes pos)

def Body.Lowers (source : Bytes) (body : Body) : Prop :=
  ∀ pos, Located source pos body.text → ∀ span,
    Yields (bodyOf source span [body.tree pos]) body.Valid (body.body pos)

def Flow.Lowers (source : Bytes) (flow : Flow) : Prop :=
  ∀ pos, Located source pos flow.text → ∀ span,
    Yields (bracedOf? source span [flow.tree pos]) flow.Valid (some (flow.node pos))

def Chain.Lowers (source : Bytes) (chain : Chain) : Prop :=
  ∀ pos, Located source pos chain.text →
    Yields (branchesOf source (chain.trees pos)) chain.Valid (chain.branches pos)

def Prongs.Lowers (source : Bytes) (prongs : Prongs) : Prop :=
  ∀ pos, Located source pos prongs.text →
    Yields (branchesOf source (prongs.trees pos)) prongs.Valid (prongs.branches pos)

/-! ## Tags -/

theorem Value.attribute_name? (value : Value) (span : Span) (name : String) (pos : Nat) :
    (value.attribute span name pos).name? = some name := by
  cases value <;> rfl

theorem Value.attribute_builtin? (value : Value) (span : Span) (name : String) (pos : Nat) :
    (value.attribute span name pos).builtin? = none := by
  cases value <;> rfl

theorem Attr.attribute_name? (a : Attr) (pos : Nat) : (a.attribute pos).name? = a.name? := by
  cases a with
  | static name before after value => exact value.attribute_name? _ _ _
  | _ => rfl

theorem Attr.attribute_builtin? (a : Attr) (pos : Nat) :
    (a.attribute pos).builtin? = a.builtin? := by
  cases a with
  | static name before after value => exact value.attribute_builtin? _ _ _
  | _ => rfl

theorem Attrs.attributes_names (attributes : Attrs) (pos : Nat) :
    (attributes.attributes pos).filterMap Attribute.name? = attributes.names := by
  cases attributes with
  | done => rfl
  | more space a rest =>
    have hrest := rest.attributes_names (pos + width (space.text ++ a.text))
    simp only [Attrs.attributes, Attrs.names, Attrs.list, List.filterMap_cons, hrest,
      a.attribute_name?]

theorem Attrs.attributes_builtins (attributes : Attrs) (pos : Nat) :
    (attributes.attributes pos).filterMap Attribute.builtin? = attributes.builtins := by
  cases attributes with
  | done => rfl
  | more space a rest =>
    have hrest := rest.attributes_builtins (pos + width (space.text ++ a.text))
    simp only [Attrs.attributes, Attrs.builtins, Attrs.list, List.filterMap_cons, hrest,
      a.attribute_builtin?]

theorem checkAttributes_yields (attributes : Attrs) (name : String) (pos : Nat) :
    Yields (checkAttributes (TagKind.ofName name) (attributes.attributes pos))
      (attributes.Together name) () := by
  intro b
  rw [checkAttributes_ok_iff, attributes.attributes_names, attributes.attributes_builtins,
    ofName_eq_component_iff]
  constructor
  · rintro ⟨hnames, hbuiltins, hrendering⟩
    exact ⟨⟨hnames, hbuiltins, hrendering⟩, rfl⟩
  · rintro ⟨⟨hnames, hbuiltins, hrendering⟩, _⟩
    exact ⟨hnames, hbuiltins, hrendering⟩

theorem tagOf_yields (span : Span) {name : Name} {attributes : Attrs} {pos next : Nat}
    (hname : Located source pos name.text) (h : Located source next attributes.text)
    (hattributes : attributes.Lowers source) :
    Yields (tagOf source span (leafAt .tagName pos name.text :: attributes.trees next))
      (attributes.Valid ∧ attributes.Together name.text)
      ⟨span, name.text, TagKind.ofName name.text, attributes.attributes next, .html, ""⟩ := by
  have htext : (leafAt .tagName pos name.text).text source = name.text := hname.text
  rw [tagOf]
  simp only [htext]
  exact (hattributes next h).bind ((checkAttributes_yields attributes name.text next).map _)

/-! ## Attributes -/

theorem formatOf_append (pieces more : List Tree) :
    formatOf source (pieces ++ more) = formatOf source pieces ++ formatOf source more := by
  rw [formatOf, List.map_append, String.join_append]
  rfl

theorem argsOf_append (pieces more : List Tree) :
    argsOf source (pieces ++ more) = argsOf source pieces ++ argsOf source more := by
  simp only [argsOf, List.filter_append, List.map_append]

theorem formatOf_literal {pos : Nat} (l? : Option Literal)
    (h : Located source pos (literalText l?)) :
    formatOf source (literalTrees pos l?) = literalFormat l? := by
  cases l? with
  | none => rfl
  | some l =>
    have hpiece : formatPieceOf source (leafAt .templateText pos l.text) =
        ZigMarkup.Literal.formatPiece l.text := congrArg ZigMarkup.Literal.formatPiece h.text
    rw [literalTrees, formatOf, List.map_cons, hpiece]
    simp [literalFormat]

theorem argsOf_literal (pos : Nat) (l? : Option Literal) :
    argsOf source (literalTrees pos l?) = [] := by
  cases l? <;> rfl

theorem formatOf_interpolations {pos : Nat} (rest : List Interpolation)
    (h : Located source pos (interpolationsText rest)) :
    formatOf source (interpolationTrees pos rest) = interpolationsFormat rest := by
  induction rest generalizing pos with
  | nil => rfl
  | cons i rest ih =>
    simp only [interpolationsText, located_append] at h
    have hliteral := formatOf_literal i.literal? h.1.2
    have hrest := ih h.2
    have hcons : ∀ span (pieces : List Tree), formatOf source (Tree.leaf .hostExpr span :: pieces) =
        "\x7bs\x7d" ++ formatOf source pieces := by
      intro span pieces
      rw [formatOf, List.map_cons, String.join_cons]
      rfl
    simp only [interpolationTrees, leafAt, hcons, formatOf_append, hliteral, hrest,
      interpolationsFormat, String.append_assoc]

theorem argsOf_interpolations {pos : Nat} (rest : List Interpolation)
    (h : Located source pos (interpolationsText rest)) :
    argsOf source (interpolationTrees pos rest) = rest.map (·.code.text) := by
  induction rest generalizing pos with
  | nil => rfl
  | cons i rest ih =>
    simp only [interpolationsText, located_append] at h
    have hbraces := h.1.1
    simp only [Interpolation.braces, located_append] at hbraces
    obtain ⟨⟨⟨_, hcode⟩, _⟩, _⟩ := hbraces
    have hcons : ∀ pieces : List Tree,
        argsOf source (leafAt .hostExpr (pos + width ("\x7b" ++ i.before.text)) i.code.text :: pieces) =
          i.code.text :: argsOf source pieces := by
      intro pieces
      exact congrArg (· :: argsOf source pieces) hcode.text
    rw [interpolationTrees, hcons, argsOf_append, argsOf_literal, List.nil_append, ih h.2]
    rfl

/-- Host code in its place is lowered to an expression. -/
theorem bracedOf?_code {span : Span} {pos : Nat} {code : String} (h : Located source pos code) :
    bracedOf? source span [leafAt .hostExpr pos code] = .ok (some (.expr span code .html)) := by
  rw [leafAt, Tree.leaf, bracedOf?]
  simp only [h.text]

theorem string_lowers (quoted : Quoted) : (Value.string quoted).Lowers source := by
  intro span name label pos h
  have htext : (spanAt pos quoted.text).text source = quoted.text := h.text
  rw [Value.tree, leafAt, Tree.leaf, staticOf]
  simp only [htext]
  exact Yields.ok _

theorem enum_lowers (ident : Ident) : (Value.enum ident).Lowers source := by
  intro span name label pos h
  have hcode : bracedOf? source (spanAt pos ident.literal) [leafAt .hostExpr pos ident.literal] =
      .ok (some (.expr (spanAt pos ident.literal) ident.literal .html)) := bracedOf?_code h
  rw [Value.tree, nodeAt, Tree.node, staticOf]
  simp only [hcode]
  exact Yields.ok _

theorem braces_value_lowers {braces : Braces} (hbraces : braces.Lowers source) :
    (Value.braces braces).Lowers source := by
  intro span name label pos h
  have htree : (Value.braces braces).tree pos =
      ⟨.exprValue, spanAt pos braces.text, (braces.tree .exprValue pos).children, none⟩ := by
    cases braces <;> rfl
  rw [htree, staticOf]
  refine Yields.congr (V := braces.Valid ∧ True) ((hbraces _ pos h).bind (Yields.ok _)) ?_
  simp only [Value.Valid, and_true]

theorem template_lowers (first? : Option Literal) (rest : List Interpolation) :
    (Value.template first? rest).Lowers source := by
  intro span name label pos h
  simp only [Value.text, located_append] at h
  obtain ⟨⟨⟨_, hfirst⟩, hrest⟩, _⟩ := h
  have hliteral : formatOf source (literalTrees (pos + 1) first?) = literalFormat first? :=
    formatOf_literal first? hfirst
  rw [Value.tree, nodeAt, Tree.node, staticOf]
  simp only [formatOf_append, argsOf_append, hliteral, argsOf_literal,
    formatOf_interpolations rest hrest, argsOf_interpolations rest hrest, List.nil_append]
  exact Yields.ok _

theorem Plain.plainValue? {value : Plain} {pos : Nat} (h : Located source pos value.text) :
    (value.tree pos).plainValue? source = some value.value := by
  cases value with
  | string quoted => exact congrArg some h.text
  | enum ident => exact congrArg some h.text
  | code before e after =>
    simp only [Plain.text, located_append] at h
    obtain ⟨⟨⟨_, hcode⟩, _⟩, _⟩ := h
    exact congrArg some hcode.text

theorem builtinAttributeOf_yields {span : Span} {b : Builtin} {value : Plain} {pos : Nat}
    (h : Located source pos value.text) :
    Yields (builtinAttributeOf source span b.name (some (value.tree pos)))
      (b = .escaping → (Escaping.ofText? value.value).isSome) (.builtin span b value.value) := by
  have hname : builtinOf span b.name = .ok b := by cases b <;> rfl
  have hvalue : Yields (builtinValueOf source b (value.tree pos))
      (b = .escaping → (Escaping.ofText? value.value).isSome) value.value := by
    rw [builtinValueOf_of_plain b (Plain.plainValue? h)]
    split
    · next hnone =>
      intro text
      simp_all [refuse]
    · next hsome =>
      refine (Yields.ok _).congr (iff_of_true trivial fun hb => ?_)
      simpa [hb, Option.isSome_iff_ne_none] using hsome
  rw [builtinAttributeOf, hname]
  exact hvalue.map _

theorem builtinShorthandOf_yields (span : Span) (b : Builtin) :
    Yields (builtinShorthandOf span b.name) (b ≠ .escaping) (.builtinShorthand span b) := by
  cases b with
  | allocator => exact (Yields.ok _).congr (iff_of_true trivial (by decide))
  | rendering => exact (Yields.ok _).congr (iff_of_true trivial (by decide))
  | escaping =>
    intro a
    constructor
    · intro h
      cases h
    · rintro ⟨h, _⟩
      exact absurd rfl h

theorem childText?_first {kind : Kind} {pos : Nat} {s : String} (h : Located source pos s)
    (rest : List Tree) : childText? source kind (leafAt kind pos s :: rest) = some s := by
  have hkind : ((leafAt kind pos s).kind == kind) = true := beq_self_eq_true kind
  simp only [childText?, List.find?_cons, hkind]
  exact congrArg some h.text

theorem static_lowers {name : Name} {before after : Gap} {value : Value}
    (hvalue : value.Lowers source) : (Attr.static name before after value).Lowers source := by
  intro pos h
  simp only [Attr.text, located_append] at h
  obtain ⟨⟨⟨⟨hname, _⟩, _⟩, _⟩, hplace⟩ := h
  rw [Attr.tree, nodeAt, Tree.node, attributeOf]
  simp only [childText?_first hname, Option.getD_some]
  exact hvalue _ _ _ _ hplace

/-- An attribute that holds no other template is lowered to what it is. -/
theorem attr_lowers {attr : Attr} (hleaf : ∀ name before after value,
    attr ≠ .static name before after value) : attr.Lowers source := by
  intro pos h
  cases attr with
  | flag name =>
    have hname : Located source pos name.text := h
    rw [Attr.tree, nodeAt, Tree.node, attributeOf]
    simp only [childText?_first hname, Option.getD_some]
    exact Yields.ok _
  | static name before after value => exact absurd rfl (hleaf name before after value)
  | builtin b before after value =>
    simp only [Attr.text, located_append] at h
    obtain ⟨⟨⟨⟨⟨_, hname⟩, _⟩, _⟩, _⟩, hvalue⟩ := h
    have hlabel : Located source (pos + 1) b.name := hname
    rw [Attr.tree, nodeAt, Tree.node, attributeOf]
    simp only [childText?_first hlabel, Option.getD_some]
    exact builtinAttributeOf_yields hvalue
  | shorthand before ident after =>
    simp only [Attr.text, located_append] at h
    obtain ⟨⟨⟨_, hident⟩, _⟩, _⟩ := h
    rw [Attr.tree, nodeAt, Tree.node, attributeOf]
    simp only [childText?_first hident, Option.getD_some]
    exact Yields.ok _
  | builtinShorthand before b after =>
    simp only [Attr.text, located_append] at h
    obtain ⟨⟨⟨_, hname⟩, _⟩, _⟩ := h
    rw [Attr.tree, nodeAt, Tree.node, attributeOf]
    simp only [childText?_first hname, Option.getD_some]
    exact builtinShorthandOf_yields _ b
  | spread before between code after =>
    simp only [Attr.text, located_append] at h
    obtain ⟨⟨⟨_, hcode⟩, _⟩, _⟩ := h
    rw [Attr.tree, nodeAt, Tree.node, attributeOf]
    simp only [childText?_first hcode, Option.getD_some]
    exact Yields.ok _

theorem attrs_lowers {space : Space} {attr : Attr} {rest : Attrs} (hattr : attr.Lowers source)
    (hrest : rest.Lowers source) : (Attrs.more space attr rest).Lowers source := by
  intro pos h
  simp only [Attrs.text, located_append] at h
  obtain ⟨⟨_, hfirst⟩, hnext⟩ := h
  rw [Attrs.trees, attributesOf]
  exact (hattr _ hfirst).bind ((hrest _ hnext).map _)

end Surface

end ZigMarkup
