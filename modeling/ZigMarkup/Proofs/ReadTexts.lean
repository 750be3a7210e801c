import ZigMarkup.Proofs.Lowered
import ZigMarkup.Proofs.QuietText
import ZigMarkup.Proofs.Spelling

/-!
The texts that reading takes out of a source apart from host code. Tags and shorthands have names,
literals are whole string literals, and the formats of template strings are escaped.
-/
namespace ZigMarkup

/-- The string literal of an attribute, which is copied with its quotes. -/
def Attribute.literals : Attribute → List String
  | .static _ _ (.literal text) => [text]
  | .static _ _ (.expr _) | .static _ _ (.node _) | .static _ _ .flag => []
  | .builtin _ _ _ | .shorthand _ _ | .builtinShorthand _ _ | .spread _ _ => []
  | .formatted _ _ _ _ => []

/-- The string literals of a node itself, without those of its parts. -/
def Node.ownLiterals : Node → List String
  | .element tag _ | .selfClosing tag => tag.attributes.flatMap Attribute.literals
  | .fragment _ _ | .text _ _ _ _ | .expr _ _ _ | .flow _ _ _ _ _ => []

/-- What the texts of an attribute apart from host code can be. A literal whose bytes are no text
is read as nothing. -/
def Attribute.Lexed : Attribute → Prop
  | .static _ _ (.literal text) => IsString (utf8 text) ∨ text = ""
  | .static _ _ (.expr _) | .static _ _ (.node _) | .static _ _ .flag => True
  | .shorthand _ ident => (utf8 ident).all isNameByte = true
  | .formatted _ _ format _ => Escaped (utf8 format)
  | .builtin _ _ _ | .builtinShorthand _ _ | .spread _ _ => True

structure Tag.Lexed (tag : Tag) : Prop where
  name : (utf8 tag.name).all isNameByte = true
  attributes : ∀ a ∈ tag.attributes, a.Lexed

/-- The texts of a node itself apart from host code. No allocator is known yet. -/
def Node.Lexed : Node → Prop
  | .element tag _ | .selfClosing tag => tag.Lexed
  | .fragment _ _ | .text _ _ _ _ | .expr _ _ _ => True
  | .flow _ _ _ allocator _ => allocator = ""

namespace OfTree

variable {source : Bytes}

/-- A tree that has its shape and is spelled as its kind asks. -/
def Legible (source : Bytes) (t : Tree) : Prop := t.Shaped ∧ t.Spelled source

theorem all_word {p : UInt8 → Bool} {span : Span} (h : ScanM.WordAt source p span) :
    (utf8 (span.text source)).all p = true := by
  rcases decode_cases (span.slice source) with hempty | hbytes
  · rw [Span.text, hempty]
    rfl
  · rw [Span.text, hbytes]
    exact h.bytes

theorem escaped_formatOf (pieces : List Tree) : Escaped (utf8 (formatOf source pieces)) := by
  induction pieces with
  | nil => exact .nil
  | cons piece pieces ih =>
    rw [formatOf, List.map_cons, String.join_cons, utf8_append]
    refine .append ?_ ih
    unfold formatPieceOf
    split
    · exact .chars escaped_escapeFormatChar _
    · exact .of_glue (by decide)
    · exact .nil

theorem lexed_attributeOf {t : Tree} {a : Attribute} (hs : t.Everywhere (Legible source))
    (h : attributeOf source t = .ok a) : a.Lexed := by
  cases attributeRead (fun u hu => (hs u hu).1) h with
  | @literal _ value hvalue hkind =>
    have hstring := (hs.child hvalue).here.2
    rw [Tree.Spelled, hkind] at hstring
    rcases decode_cases (value.span.slice source) with hempty | hbytes
    · exact .inr hempty
    · refine .inl ?_
      change IsString (utf8 (decode (value.span.slice source)))
      rwa [hbytes]
  | @formatted _ value _ _ => exact escaped_formatOf value.children
  | shorthand hkind =>
    have hspelled := hs.here.2
    rw [Tree.Spelled, hkind] at hspelled
    obtain ⟨name, hchildren, hword⟩ := hspelled
    rw [hchildren]
    refine List.all_eq_true.mpr fun b hb => ?_
    have hident := List.all_eq_true.mp (all_word hword) b hb
    simp [isNameByte, hident]
  | flag | expr | node | builtin | builtinShorthand | spread => trivial

/-- A tag is read from a tree that holds its name and its attributes. -/
theorem lexed_tagOf {span : Span} {t : Tree} {tag : Tag}
    (hkind : t.kind = .startTag ∨ t.kind = .selfClosingElement) (hs : t.Everywhere (Legible source))
    (h : tagOf source span t.children = .ok tag) : tag.Lexed := by
  have hshape : ∃ name attributes, t.children = name :: attributes ∧ name.kind = .tagName := by
    have hshape := hs.here.1
    rw [Tree.Shaped] at hshape
    rcases hkind with hkind | hkind <;> rw [hkind] at hshape <;>
      obtain ⟨name, attributes, hchildren, hname, _⟩ := hshape <;>
      exact ⟨name, attributes, hchildren, hname⟩
  obtain ⟨name, attributes, hchildren, hname⟩ := hshape
  obtain ⟨_, _, heq, htext, _⟩ := exists_of_tagOf h
  obtain ⟨rfl, rfl⟩ := List.cons.inj (hchildren.symm.trans heq)
  have hword : ScanM.WordAt source isNameByte name.span := by
    have hspelled := (hs.child (hchildren ▸ List.mem_cons_self)).here.2
    rwa [Tree.Spelled, hname] at hspelled
  refine ⟨htext ▸ all_word hword, fun a ha => ?_⟩
  obtain ⟨u, hu, hread⟩ := exists_of_mem_tagOf h ha
  exact lexed_attributeOf (hs.child hu) hread

theorem reads_lexed (source : Bytes) : Reads source (Legible source) Node.Lexed where
  shaped h := h.1
  element _ hkind hs h := lexed_tagOf (.inl hkind) hs h
  selfClosing hkind hs h := lexed_tagOf (.inr hkind) hs h
  fragment _ _ := trivial
  expr _ _ _ _ _ := trivial
  text _ _ _ _ := trivial
  flow _ _ _ := rfl

end OfTree

theorem lexed_of_templatesOf {source : Bytes} {templates : List Template}
    (h : templatesOf source (parse source) = .ok templates) {template : Template}
    (ht : template ∈ templates) : template.node.Everywhere Node.Lexed :=
  everywhere_of_templatesOf (OfTree.reads_lexed source)
    (fun t ht => ⟨parse_shaped _ t ht, parse_spells _ t ht⟩) h ht

end ZigMarkup
