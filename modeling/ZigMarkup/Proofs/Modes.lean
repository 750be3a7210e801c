import ZigMarkup.Proofs.Resolved

/-!
The mode of each text run and expression block after resolving. It is the mode that the tag
above it declares with `@escaping`, and `html` where there is no such tag or declaration.
-/
namespace ZigMarkup

theorem Escaping.ofText?_eq_some_iff {text : String} {mode : Escaping} :
    Escaping.ofText? text = some mode ↔
      trim text = "." ++ mode.name ∨ trim text = "\"" ++ mode.name ++ "\"" := by
  constructor
  · intro h
    simpa using List.find?_some h
  · intro h
    unfold Escaping.ofText?
    cases mode with
    | html => exact List.find?_cons_of_pos (by simpa using h)
    | none => rcases h with h | h <;> rw [h] <;> decide

/-- A tag with an `@escaping` that spells out this mode. -/
def Tag.EscapingIs (mode : Escaping) (tag : Tag) : Prop := ∃ span value,
  .builtin span .escaping value ∈ tag.attributes ∧
    (trim value = "." ++ mode.name ∨ trim value = "\"" ++ mode.name ++ "\"")

/-- The mode that a tag declares. -/
def Tag.declaredMode (tag : Tag) : Escaping :=
  ((tag.builtin? .escaping).bind Escaping.ofText?).getD .html

theorem Attribute.builtin?_of_builtinValue? {a : Attribute} {b : Builtin} {value : String}
    (h : a.builtinValue? b = some value) : a.builtin? = some b := by
  cases a <;> simp_all [Attribute.builtinValue?, Attribute.builtin?]

/-- Where no builtin is set twice, each has the value that it was given. -/
theorem builtinValue?_of_mem {attributes : List Attribute} {span : Span} {b : Builtin}
    {value : String} (hnodup : (attributes.filterMap Attribute.builtin?).Nodup)
    (h : .builtin span b value ∈ attributes) : builtinValue? attributes b = some value := by
  induction attributes with
  | nil => cases h
  | cons a rest ih =>
    rw [builtinValue?, List.findSome?_cons]
    rcases List.mem_cons.mp h with rfl | h
    · simp [Attribute.builtinValue?]
    · have hmem : b ∈ rest.filterMap Attribute.builtin? := List.mem_filterMap.mpr ⟨_, h, rfl⟩
      cases hfirst : a.builtinValue? b with
      | some other =>
        rw [List.filterMap_cons_some (Attribute.builtin?_of_builtinValue? hfirst)] at hnodup
        exact absurd hmem (List.nodup_cons.mp hnodup).1
      | none =>
        refine ih ?_ h
        rw [List.filterMap_cons] at hnodup
        split at hnodup
        · exact hnodup
        · exact (List.nodup_cons.mp hnodup).2

namespace Tag.Lowered

variable {tag : Tag}

/-- The value of `@escaping` is one that the tag spells out, never that of a variable. -/
theorem builtin?_escaping_iff (h : tag.Lowered) {value : String} :
    tag.builtin? .escaping = some value ↔ ∃ span, .builtin span .escaping value ∈ tag.attributes := by
  constructor
  · intro hvalue
    obtain ⟨a, ha, hfound⟩ := List.exists_of_findSome?_eq_some hvalue
    have hlowered := h.attributes a ha
    cases a with
    | builtin span b text =>
      simp only [Attribute.builtinValue?, Option.ite_none_right_eq_some, Option.some.injEq] at hfound
      obtain ⟨rfl, rfl⟩ := hfound
      exact ⟨span, ha⟩
    | builtinShorthand span b =>
      simp only [Attribute.builtinValue?, Option.ite_none_right_eq_some] at hfound
      exact absurd hfound.1 hlowered
    | _ => cases hfound
  · rintro ⟨span, hmem⟩
    exact builtinValue?_of_mem h.builtins hmem

theorem declaredMode_eq_of_escapingIs (h : tag.Lowered) {mode : Escaping}
    (hmode : tag.EscapingIs mode) : tag.declaredMode = mode := by
  obtain ⟨span, value, hmem, hspelled⟩ := hmode
  rw [Tag.declaredMode, h.builtin?_escaping_iff.mpr ⟨span, hmem⟩, Option.bind_some,
    Escaping.ofText?_eq_some_iff.mpr hspelled, Option.getD_some]

/-- A tag declares a mode by spelling it out; without an `@escaping` its mode is `html`. -/
theorem declaredMode_cases (h : tag.Lowered) :
    tag.EscapingIs tag.declaredMode ∨
      tag.declaredMode = .html ∧ ∀ span value, .builtin span .escaping value ∉ tag.attributes := by
  cases hvalue : tag.builtin? .escaping with
  | none =>
    refine Or.inr ⟨by rw [Tag.declaredMode, hvalue]; rfl, fun span value hmem => ?_⟩
    rw [h.builtin?_escaping_iff.mpr ⟨span, hmem⟩] at hvalue
    cases hvalue
  | some value =>
    obtain ⟨span, hmem⟩ := h.builtin?_escaping_iff.mp hvalue
    obtain ⟨mode, hmode⟩ := Option.isSome_iff_exists.mp (h.attributes _ hmem rfl)
    have hdeclared : tag.declaredMode = mode := by
      rw [Tag.declaredMode, hvalue, Option.bind_some, hmode, Option.getD_some]
    exact Or.inl ⟨span, value, hmem, hdeclared ▸ Escaping.ofText?_eq_some_iff.mp hmode⟩

theorem declaredMode_eq_none_iff (h : tag.Lowered) :
    tag.declaredMode = .none ↔ tag.EscapingIs .none := by
  constructor
  · intro hmode
    rcases h.declaredMode_cases with hspelled | ⟨hhtml, _⟩
    · exact hmode ▸ hspelled
    · rw [hhtml] at hmode
      cases hmode
  · exact h.declaredMode_eq_of_escapingIs

theorem declaredMode_eq_html_iff (h : tag.Lowered) :
    tag.declaredMode = .html ↔
      (∀ span value, .builtin span .escaping value ∉ tag.attributes) ∨ tag.EscapingIs .html := by
  constructor
  · intro hmode
    rcases h.declaredMode_cases with hspelled | ⟨_, habsent⟩
    · exact Or.inr (hmode ▸ hspelled)
    · exact Or.inl habsent
  · rintro (habsent | hspelled)
    · rcases h.declaredMode_cases with ⟨span, value, hmem, _⟩ | ⟨hhtml, _⟩
      · exact absurd hmem (habsent span value)
      · exact hhtml
    · exact h.declaredMode_eq_of_escapingIs hspelled

end Tag.Lowered

namespace Node

theorem mem_leaves_dropPadding {node : Node} {path : Path} {owner : Option (Path × Tag)}
    {leaf : Leaf} (h : leaf ∈ node.dropPadding.leaves path owner) :
    ∃ original ∈ node.leaves path owner, original.owner = leaf.owner ∧
      original.node.escaping? = leaf.node.escaping? := by
  cases node with
  | text span raw mode content =>
    rw [dropPadding, leaves] at h
    rw [List.mem_singleton.mp h]
    exact ⟨_, List.mem_singleton.mpr rfl, rfl, rfl⟩
  | _ => exact ⟨leaf, h, rfl, rfl⟩

/-- Each leaf of a resolved node has the mode of the tag that it stands under. -/
theorem escaping?_of_mem_leaves_resolve (node : Node) : ∀ {allocator : String} {path : Path}
    {owner : Option (Path × Tag)} {leaf : Leaf},
    leaf ∈ (node.resolve allocator (modeUnder owner)).leaves path owner →
      leaf.node.escaping? = some (modeUnder leaf.owner) := by
  induction node using induction_on_parts with
  | h node ih =>
    intro allocator path owner leaf hleaf
    rw [leaves_eq] at hleaf
    rcases List.mem_append.mp hleaf with hleaf | hleaf
    · cases node <;> simp_all [resolve, escaping?]
    · obtain ⟨p, hp, hleaf⟩ := List.mem_flatMap.mp hleaf
      obtain ⟨part, hpart, allocator, heq | heq⟩ := mem_places_resolve hp
      · rw [heq] at hleaf
        exact ih part hpart hleaf
      · rw [heq] at hleaf
        obtain ⟨original, horiginal, howner, hmode⟩ := mem_leaves_dropPadding hleaf
        rw [← hmode, ← howner]
        exact ih part hpart horiginal

theorem resolveTag_escaping (allocator : String) (tag : Tag) :
    (resolveTag allocator tag).escaping = tag.declaredMode := by
  cases tag
  rfl

theorem declaredMode_resolveTag (allocator : String) (tag : Tag) :
    (resolveTag allocator tag).declaredMode = tag.declaredMode := by
  rw [Tag.declaredMode, Tag.builtin?, Tag.attributes_resolve, builtinValue?_map_resolve]
  rfl

/-- The tag that a leaf of a resolved node stands under has the mode that it declares. -/
theorem escaping_of_mem_leaves_resolve {node : Node} (hnode : node.Everywhere Lowered)
    {allocator : String} {path place : Path} {leaf : Leaf} {tag : Tag}
    (hleaf : leaf ∈ (node.resolve allocator .html).leaves path none)
    (howner : leaf.owner = some (place, tag)) : tag.Lowered ∧ tag.escaping = tag.declaredMode := by
  let P : Node → Prop := fun n => n.Lowered ∧
    ∀ tag children, n = .element tag children → tag.escaping = tag.declaredMode
  have hall : (node.resolve allocator .html).Everywhere P := by
    refine resolve_everywhere (fun n allocator mode hn => ?_) ?_ node allocator .html hnode
    · refine ⟨hn.resolve allocator mode, fun tag children heq => ?_⟩
      cases n <;> cases heq
      rw [resolveTag_escaping, declaredMode_resolveTag]
    · exact fun _ _ _ _ => ⟨trivial, fun _ _ heq => by cases heq⟩
  rcases owner_of_mem_leaves _ hleaf with hnone | hnone | ⟨_, found, children, hfound, hwithin⟩
  · rw [hnone] at howner
    cases howner
  · rw [hnone] at howner
    cases howner
  · rw [hfound] at howner
    cases howner
    exact ⟨(hall _ hwithin).1, (hall _ hwithin).2 _ _ rfl⟩

/-- A leaf is unescaped exactly if the tag that it stands under says so. -/
theorem mode_of_mem_leaves_resolve {node : Node} (hnode : node.Everywhere Lowered)
    {allocator : String} {path : Path} {leaf : Leaf} {mode : Escaping}
    (hleaf : leaf ∈ (node.resolve allocator .html).leaves path none)
    (hmode : leaf.node.escaping? = some mode) :
    (mode = .none ↔ ∃ place tag, leaf.owner = some (place, tag) ∧ tag.EscapingIs .none) ∧
    (mode = .html ↔ ∀ place tag, leaf.owner = some (place, tag) →
      (∀ span value, .builtin span .escaping value ∉ tag.attributes) ∨ tag.EscapingIs .html) := by
  have htop : leaf ∈ (node.resolve allocator (modeUnder none)).leaves path none := hleaf
  have hunder := escaping?_of_mem_leaves_resolve node htop
  rw [hmode] at hunder
  obtain rfl := Option.some.inj hunder
  cases howner : leaf.owner with
  | none => simp [modeUnder]
  | some owner =>
    obtain ⟨place, tag⟩ := owner
    obtain ⟨hlowered, hdeclared⟩ := escaping_of_mem_leaves_resolve hnode hleaf howner
    constructor
    · rw [modeUnder, hdeclared, hlowered.declaredMode_eq_none_iff]
      constructor
      · exact fun h => ⟨place, tag, rfl, h⟩
      · rintro ⟨_, _, heq, h⟩
        cases heq
        exact h
    · rw [modeUnder, hdeclared, hlowered.declaredMode_eq_html_iff]
      constructor
      · rintro h _ _ heq
        cases heq
        exact h
      · exact fun h => h place tag rfl

end Node

end ZigMarkup
