import ZigMarkup.Proofs.Lowered

/-!
Which trees are valid, said on the tree alone. `Tree.Valid` is the rule for one node; a tree
is valid when all its nodes are. `Decides` relates a check to the rule that it enforces: the
check accepts exactly where the rule holds, and what it reports otherwise is a broken rule and
never a part that readers always supply.
-/
namespace ZigMarkup

/-- Problems of trees that no reader builds. -/
def Problem.isDefensive : Problem → Bool
  | unreadable _ | misplaced _ _ | malformedElement | malformedFragment | missingTagName
  | missingBody | noRoot => true
  | _ => false

/-- Kinds of nodes that hold no others. -/
def Kind.isLeaf : Kind → Bool
  | hostText | tagName | comment | attrName | stringValue | templateText | hostExpr | text
  | header | pattern | capture => true
  | _ => false

namespace Tree

variable (source : Bytes)

/-- The name in a start tag, an end tag or a self-closing element. -/
def tagName? (t : Tree) : Option String := (t.child? .tagName).map (·.text source)

/-- The name that an attribute binds, if it binds just one. -/
def boundName? (a : Tree) : Option String :=
  match a.kind with
  | .staticAttribute | .shorthandAttribute => (a.child? .attrName).map (·.text source)
  | _ => none

/-- The name of a builtin attribute, without the `@`. -/
def builtinName? (a : Tree) : Option String :=
  match a.kind with
  | .builtinAttribute | .builtinShorthandAttribute => (a.child? .attrName).map (·.text source)
  | _ => none

def boundNames (t : Tree) : List String := t.children.filterMap (boundName? source)

def builtinNames (t : Tree) : List String := t.children.filterMap (builtinName? source)

/-- Whether a child is more than blank text, a comment or empty braces. -/
def isContent (c : Tree) : Bool :=
  match c.kind with
  | .comment => false
  | .text => !(c.text source).toList.all isBlank
  | .expressionBlock => !c.children.isEmpty
  | _ => true

/-- A value that is a string, or one expression with or without braces. -/
def plainValue? (v : Tree) : Option String :=
  match v.kind, v.children with
  | .stringValue, _ => some (v.text source)
  | .exprValue, [e] => if e.kind = .hostExpr then some (e.text source) else none
  | _, _ => none

/-- A start tag or a self-closing element with attributes that may stand together. -/
structure ValidTag (t : Tree) : Prop where
  names : (t.boundNames source).Nodup
  builtins : (t.builtinNames source).Nodup
  rendering : "rendering" ∈ t.builtinNames source →
    ∃ name, t.tagName? source = some name ∧ isComponentName name

/-- An element closed by its own name. A component that is given its `children` by an attribute
has no content. -/
def ValidElement (t : Tree) : Prop :=
  ∃ start items close, t.children = start :: items ++ [close] ∧
    ∃ name, start.tagName? source = some name ∧ close.tagName? source = some name ∧
      (isComponentName name → "children" ∈ start.boundNames source →
        ∀ c ∈ items, c.isContent source = false)

/-- A builtin that is known and has a plain value, for `@escaping` a mode. -/
def ValidBuiltin (t : Tree) : Prop :=
  ∃ (b : Builtin) (value : Tree) (text : String), t.builtinName? source = some b.name ∧
    t.children[1]? = some value ∧ value.plainValue? source = some text ∧
    (b = .escaping → (Escaping.ofText? text).isSome)

/-- The rule for one node. -/
def Valid (t : Tree) : Prop :=
  match t.kind with
  | .templateRoot => ∃ c, t.children.filter (·.kind != .comment) = [c]
  | .element => t.ValidElement source
  | .fragment => ∃ items close, t.children = items ++ [close] ∧ close.tagName? source = none
  | .startTag | .selfClosingElement => t.ValidTag source
  | .staticAttribute => ∀ v ∈ t.children[1]?, v.kind = .exprValue → v.children ≠ []
  | .builtinAttribute => t.ValidBuiltin source
  | .builtinShorthandAttribute =>
    ∃ b : Builtin, t.builtinName? source = some b.name ∧ b ≠ .escaping
  | _ => True

/-- What the reader makes sure of at a node, if nothing was unreadable. -/
structure Readable (t : Tree) : Prop where
  shape : Shaped t
  kind : t.kind ≠ .error

mutual
/-- Induction on trees: what holds of a tree if it holds of all its children holds of all. -/
theorem induction_on_children {P : Tree → Prop} (h : ∀ t, (∀ c ∈ t.children, P c) → P t) :
    ∀ t, P t
  | ⟨_, _, children, _⟩ => h _ (forest_induction h children)

theorem forest_induction {P : Tree → Prop} (h : ∀ t, (∀ c ∈ t.children, P c) → P t) :
    ∀ (ts : List Tree), ∀ c ∈ ts, P c
  | [], _, hc => by simp at hc
  | t :: ts, c, hc => by
    rcases List.mem_cons.mp hc with heq | hc
    · rw [heq]
      exact induction_on_children h t
    · exact forest_induction h ts c hc
end

variable {source}

theorem everywhere_of_nil {P : Tree → Prop} {t : Tree} (hnil : t.children = []) (h : P t) :
    t.Everywhere P :=
  everywhere_iff.mpr ⟨h, by simp [hnil]⟩

/-- There is no rule for a node without children. -/
theorem Shaped.everywhere_valid {t : Tree} (hs : Shaped t) (hleaf : t.kind.isLeaf) :
    t.Everywhere (Valid source) := by
  obtain ⟨kind, span, children, message⟩ := t
  cases kind
  all_goals first
    | exact everywhere_of_nil hs trivial
    | cases hleaf

end Tree

/-! ## Checks and the rules they enforce -/

/-- A report of a broken rule. -/
def Diagnostic.OfRule (d : Diagnostic) : Prop :=
  ∃ span p, d = Problem.diagnose p span ∧ p.isDefensive = false

/-- The check accepts exactly where `V` holds and reports a broken rule elsewhere. -/
def Decides {α : Type} (x : Checked α) (V : Prop) : Prop :=
  match x with
  | .ok _ => V
  | .error d => ¬ V ∧ d.OfRule

namespace Decides

variable {α β : Type} {x : Checked α} {V W : Prop}

theorem ok {a : α} (h : V) : Decides (.ok a) V := h

theorem refuse {span : Span} {p : Problem} (hp : p.isDefensive = false) (h : ¬ V) :
    Decides (refuse span p : Checked α) V := ⟨h, span, p, rfl, hp⟩

theorem congr (h : Decides x V) (hiff : V ↔ W) : Decides x W := by
  rwa [← propext hiff]

theorem of_iff (hiff : (∃ a, x = .ok a) ↔ V) (herror : ∀ d, x = .error d → d.OfRule) :
    Decides x V := by
  cases x with
  | ok a => exact hiff.mp ⟨a, rfl⟩
  | error d =>
    refine ⟨fun h => ?_, herror d rfl⟩
    obtain ⟨a, ha⟩ := hiff.mpr h
    cases ha

theorem holds {a : α} (h : Decides x V) (hx : x = .ok a) : V := by
  rw [hx] at h
  exact h

theorem ok_iff (h : Decides x V) : (∃ a, x = .ok a) ↔ V := by
  cases x with
  | ok a => exact ⟨fun _ => h, fun _ => ⟨a, rfl⟩⟩
  | error d =>
    constructor
    · rintro ⟨a, ha⟩
      cases ha
    · exact fun hv => absurd hv h.1

/-- What comes second is decided where the first check accepts. -/
theorem bind {f : α → Checked β} (hx : Decides x V)
    (hf : ∀ a, x = .ok a → Decides (f a) W) : Decides (x >>= f) (V ∧ W) := by
  cases x with
  | ok a => exact (hf a rfl).congr ⟨fun hw => ⟨hx, hw⟩, fun h => h.2⟩
  | error d => exact ⟨fun h => hx.1 h.1, hx.2⟩

/-- What comes second accepts all. -/
theorem map {f : α → β} (hx : Decides x V) : Decides (x >>= fun a => .ok (f a)) V :=
  (hx.bind fun _ _ => ok trivial).congr (iff_of_eq (and_true V))

end Decides

namespace OfTree

open Tree

/-- What the functions that read a part of a tree decide about it. -/
structure Settled (source : Bytes) (t : Tree) : Prop where
  node : t.kind.isChild → Decides (nodeOf? source t) (t.Everywhere (Valid source))
  braced : t.kind = .expressionBlock ∨ t.kind = .exprValue → ∀ span,
    Decides (bracedOf? source span t.children) (∀ c ∈ t.children, c.Everywhere (Valid source))
  root : t.kind = .templateRoot → ∀ span,
    Decides (rootOf source span t.children) (t.Everywhere (Valid source))
  tag : t.kind = .startTag ∨ t.kind = .selfClosingElement → ∀ span,
    Decides (tagOf source span t.children) (t.Everywhere (Valid source))
  attr : t.kind.isAttribute → Decides (attributeOf source t) (t.Everywhere (Valid source))
  flow : t.kind.isControlFlow →
    Decides (branchesOf source t.children) (t.Everywhere (Valid source))
  branch : t.kind = .branch → ∀ span,
    Decides (bodyOf source span t.children) (t.Everywhere (Valid source))
  body : t.kind = .body → ∀ span,
    Decides (bodyOf source span [t]) (t.Everywhere (Valid source))

end OfTree

end ZigMarkup
