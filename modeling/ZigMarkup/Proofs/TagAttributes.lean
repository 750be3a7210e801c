import ZigMarkup.Template.OfTree

/-!
What the check of the attributes of a tag accepts: the names that attributes bind are distinct,
so are the builtins, and `@rendering` stands on components only.
-/
namespace ZigMarkup.OfTree

/-- Keys that are distinct and not among those already seen. -/
def Unseen {α β : Type} [BEq α] (seen : List (α × β)) (keys : List α) : Prop :=
  keys.Nodup ∧ ∀ key ∈ keys, seen.lookup key = none

theorem unseen_cons {α β : Type} [BEq α] [LawfulBEq α] {seen : List (α × β)} {key : α}
    {keys : List α} (value : β) :
    Unseen seen (key :: keys) ↔ seen.lookup key = none ∧ Unseen ((key, value) :: seen) keys := by
  have hlookup : ∀ other, ((key, value) :: seen).lookup other = none ↔
      other ≠ key ∧ seen.lookup other = none := by
    intro other
    rw [List.lookup_cons]
    by_cases h : other = key
    · simp [h]
    · simp [h, beq_eq_false_iff_ne.mpr h]
  constructor
  · rintro ⟨hnodup, hall⟩
    obtain ⟨hnew, hnodup⟩ := List.nodup_cons.mp hnodup
    refine ⟨hall key (List.mem_cons_self ..), hnodup, fun other hother => (hlookup other).mpr ?_⟩
    exact ⟨fun heq => hnew (heq ▸ hother), hall other (List.mem_cons_of_mem _ hother)⟩
  · rintro ⟨hkey, hnodup, hall⟩
    have hnew : key ∉ keys := fun hmem => ((hlookup key).mp (hall key hmem)).1 rfl
    refine ⟨List.nodup_cons.mpr ⟨hnew, hnodup⟩, fun other hother => ?_⟩
    rcases List.mem_cons.mp hother with rfl | hother
    · exact hkey
    · exact ((hlookup other).mp (hall other hother)).2

theorem builtin?_of_name? {a : Attribute} {name : String} (h : a.name? = some name) :
    a.builtin? = none := by
  cases a <;> simp_all [Attribute.name?, Attribute.builtin?]

theorem checkAttributesFrom_ok_iff {kind : TagKind} {attributes : List Attribute}
    {names : List (String × Span)} {builtins : List (Builtin × Span)} :
    checkAttributesFrom kind names builtins attributes = .ok () ↔
      Unseen names (attributes.filterMap Attribute.name?) ∧
      Unseen builtins (attributes.filterMap Attribute.builtin?) ∧
      (.rendering ∈ attributes.filterMap Attribute.builtin? → kind = .component) := by
  induction attributes generalizing names builtins with
  | nil => simp [checkAttributesFrom, Unseen]
  | cons a rest ih =>
    rw [checkAttributesFrom]
    cases hname : a.name? with
    | some name =>
      rw [List.filterMap_cons_some hname, List.filterMap_cons_none (builtin?_of_name? hname),
        unseen_cons a.span]
      cases hseen : names.lookup name with
      | some first => simp [hseen, refuse]
      | none => simp only [hseen, ih, true_and]
    | none =>
      rw [List.filterMap_cons_none hname]
      cases hbuiltin : a.builtin? with
      | none =>
        rw [List.filterMap_cons_none hbuiltin]
        exact ih
      | some builtin =>
        rw [List.filterMap_cons_some hbuiltin, unseen_cons a.span]
        cases hseen : builtins.lookup builtin with
        | some first => simp [hseen, refuse]
        | none =>
          by_cases hplace : builtin = .rendering ∧ kind ≠ .component
          · obtain ⟨rfl, hkind⟩ := hplace
            simp [hseen, hkind, refuse]
          · have hkind : builtin = .rendering → kind = .component :=
              fun h => Decidable.byContradiction fun hne => hplace ⟨h, hne⟩
            have hmem : (.rendering ∈ builtin :: rest.filterMap Attribute.builtin? → kind = .component) ↔
                (.rendering ∈ rest.filterMap Attribute.builtin? → kind = .component) := by
              rw [List.mem_cons]
              exact ⟨fun h hrest => h (Or.inr hrest), fun h hany => hany.elim (hkind ·.symm) h⟩
            have hcond : ¬ (decide (builtin = .rendering) && decide (kind ≠ .component)) = true := by
              simpa using hplace
            simp only [hseen, if_neg hcond, ih, hmem, true_and]

/-- Attributes are accepted if no name and no builtin is set twice and all may stand there. -/
theorem checkAttributes_ok_iff {kind : TagKind} {attributes : List Attribute} :
    checkAttributes kind attributes = .ok () ↔
      (attributes.filterMap Attribute.name?).Nodup ∧
      (attributes.filterMap Attribute.builtin?).Nodup ∧
      (.rendering ∈ attributes.filterMap Attribute.builtin? → kind = .component) := by
  rw [checkAttributes, checkAttributesFrom_ok_iff]
  simp [Unseen]

end ZigMarkup.OfTree
