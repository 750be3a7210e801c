import ZigMarkup.Proofs.Validity

/-!
Attributes are made of exactly the valid trees: a builtin is known and has a plain value, no
pair of braces is empty, and what a value holds is valid in turn.
-/
namespace ZigMarkup

theorem Builtin.ofName?_eq_some_iff {name : String} {b : Builtin} :
    Builtin.ofName? name = some b ↔ name = b.name := by
  constructor
  · intro h
    have hfound := List.find?_some h
    exact (eq_of_beq hfound).symm
  · rintro rfl
    cases b <;> decide

theorem Builtin.name_injective {b c : Builtin} (h : b.name = c.name) : b = c := by
  have hb := ofName?_eq_some_iff.mpr (rfl : b.name = b.name)
  rw [h, ofName?_eq_some_iff.mpr rfl] at hb
  exact (Option.some.inj hb).symm

namespace OfTree

open Tree

variable {source : Bytes}

theorem builtinOf_decides (span : Span) (name : String) :
    Decides (builtinOf span name) (∃ b : Builtin, name = b.name) := by
  unfold builtinOf
  split
  · next b hb => exact Decides.ok ⟨b, Builtin.ofName?_eq_some_iff.mp hb⟩
  · next hnone =>
    refine Decides.refuse rfl ?_
    rintro ⟨b, hb⟩
    rw [Builtin.ofName?_eq_some_iff.mpr hb] at hnone
    cases hnone

theorem builtinOf_name {span : Span} {name : String} {b : Builtin}
    (h : builtinOf span name = .ok b) : name = b.name := by
  unfold builtinOf at h
  split at h
  · next hb =>
    cases h
    exact Builtin.ofName?_eq_some_iff.mp hb
  · cases h

theorem checkAttributesFrom_error {kind : TagKind} {names : List (String × Span)}
    {builtins : List (Builtin × Span)} {attributes : List Attribute} {d : Diagnostic}
    (h : checkAttributesFrom kind names builtins attributes = .error d) : d.OfRule := by
  induction attributes generalizing names builtins with
  | nil => cases h
  | cons a rest ih =>
    unfold checkAttributesFrom at h
    split at h
    · split at h
      · cases h
        exact ⟨_, _, rfl, rfl⟩
      · exact ih h
    · split at h
      · cases h
        exact ⟨_, _, rfl, rfl⟩
      · split at h
        · cases h
          exact ⟨_, _, rfl, rfl⟩
        · exact ih h
    · exact ih h

theorem checkAttributes_decides (kind : TagKind) (attributes : List Attribute) :
    Decides (checkAttributes kind attributes)
      ((attributes.filterMap Attribute.name?).Nodup ∧
        (attributes.filterMap Attribute.builtin?).Nodup ∧
        (.rendering ∈ attributes.filterMap Attribute.builtin? → kind = .component)) := by
  refine Decides.of_iff ?_ fun d h => checkAttributesFrom_error h
  rw [← checkAttributes_ok_iff]
  exact ⟨fun ⟨_, h⟩ => h, fun h => ⟨_, h⟩⟩

theorem checkChildren_decides (tag : Tag) (children : List Node) :
    Decides (checkChildren tag children)
      ("children" ∈ tag.attributes.filterMap Attribute.name? →
        ∀ n ∈ children, n.isBlankText = true) := by
  unfold checkChildren
  split
  · next declared content hdeclared hcontent =>
    refine Decides.refuse rfl fun h => ?_
    have hname := List.find?_some hdeclared
    have hmem : "children" ∈ tag.attributes.filterMap Attribute.name? :=
      List.mem_filterMap.mpr ⟨declared, List.mem_of_find?_eq_some hdeclared, by simpa using hname⟩
    have hblank := h hmem content (List.mem_of_find?_eq_some hcontent)
    simpa [hblank] using List.find?_some hcontent
  · next hnone =>
    refine Decides.ok fun hmem n hn => ?_
    obtain ⟨a, ha, hname⟩ := List.mem_filterMap.mp hmem
    cases hdeclared : tag.attributes.find? (·.name? = some "children") with
    | none => exact absurd hname (by simpa using List.find?_eq_none.mp hdeclared a ha)
    | some declared =>
      cases hcontent : children.find? (!·.isBlankText) with
      | none => simpa using List.find?_eq_none.mp hcontent n hn
      | some content => exact absurd hcontent (hnone declared content hdeclared)

/-! ## Attributes -/

theorem staticOf_name? {span : Span} {name : String} {ts : List Tree} {a : Attribute}
    (h : staticOf source span name ts = .ok a) : a.name? = some name ∧ a.builtin? = none := by
  unfold staticOf at h
  split at h
  · split at h
    · cases h
      exact ⟨rfl, rfl⟩
    · obtain ⟨o, _, h⟩ := Checked.ok_of_bind h
      cases o with
      | none => cases h
      | some node =>
        cases h
        exact ⟨rfl, rfl⟩
    · cases h
      exact ⟨rfl, rfl⟩
    · cases h
    · cases h
  · cases h
    exact ⟨rfl, rfl⟩

/-- An attribute sets the name that stands in its tree. -/
theorem attributeOf_names {t : Tree} {a : Attribute} (hs : Shaped t)
    (h : attributeOf source t = .ok a) : a.name? = t.boundName? source ∧
      a.builtin?.map Builtin.name = t.builtinName? source := by
  obtain ⟨kind, span, children, message⟩ := t
  unfold attributeOf at h
  cases kind
  case staticAttribute =>
    obtain ⟨name, value?, rfl, hname, _⟩ := hs
    obtain ⟨hset, hnone⟩ := staticOf_name? h
    simp [hset, hnone, boundName?, builtinName?, child?, childText?, hname]
  case shorthandAttribute =>
    obtain ⟨name, rfl, hname⟩ := hs
    cases h
    simp [Attribute.name?, Attribute.builtin?, boundName?, builtinName?, child?, childText?, hname]
  case builtinAttribute =>
    obtain ⟨name, value?, rfl, hname, _⟩ := hs
    obtain ⟨b, hb, h⟩ := Checked.ok_of_bind h
    have hb := builtinOf_name hb
    split at h
    · cases h
    · obtain ⟨text, _, h⟩ := Checked.ok_of_bind h
      cases h
      simpa [Attribute.name?, Attribute.builtin?, boundName?, builtinName?, child?, childText?,
        hname, eq_comm] using hb
  case builtinShorthandAttribute =>
    obtain ⟨name, rfl, hname⟩ := hs
    obtain ⟨b, hb, h⟩ := Checked.ok_of_bind h
    have hb := builtinOf_name hb
    split at h
    · cases h
    · cases h
      simpa [Attribute.name?, Attribute.builtin?, boundName?, builtinName?, child?, childText?,
        hname, eq_comm] using hb
  case spreadAttribute =>
    cases h
    exact ⟨rfl, rfl⟩
  all_goals cases h

theorem attributesOf_names {ts : List Tree} {attributes : List Attribute}
    (hs : ∀ t ∈ ts, Shaped t) (h : attributesOf source ts = .ok attributes) :
    attributes.filterMap Attribute.name? = ts.filterMap (boundName? source) ∧
      (attributes.filterMap Attribute.builtin?).map Builtin.name =
        ts.filterMap (builtinName? source) := by
  induction ts generalizing attributes with
  | nil =>
    cases h
    exact ⟨rfl, rfl⟩
  | cons t ts ih =>
    unfold attributesOf at h
    obtain ⟨a, ha, h⟩ := Checked.ok_of_bind h
    obtain ⟨rest, hrest, h⟩ := Checked.ok_of_bind h
    cases h
    obtain ⟨hname, hbuiltin⟩ := attributeOf_names (hs t (List.mem_cons_self ..)) ha
    obtain ⟨hnames, hbuiltins⟩ := ih (fun u hu => hs u (List.mem_cons_of_mem _ hu)) hrest
    rw [List.filterMap_cons, List.filterMap_cons, List.filterMap_cons, List.filterMap_cons, hname,
      hnames, ← hbuiltin, ← hbuiltins]
    refine ⟨rfl, ?_⟩
    cases a.builtin? <;> rfl

theorem builtinValueOf_of_plain (b : Builtin) {v : Tree} {text : String}
    (h : v.plainValue? source = some text) :
    builtinValueOf source b v =
      if (decide (b = .escaping) && (Escaping.ofText? text).isNone) = true
        then refuse v.span (.unknownEscaping text) else .ok text := by
  obtain ⟨kind, span, children, message⟩ := v
  unfold plainValue? at h
  dsimp only at h
  split at h
  · cases h
    rfl
  · next e =>
    split at h
    · next hkind =>
      cases h
      unfold builtinValueOf
      simp only [hkind, if_true]
      rfl
    · cases h
  · cases h

/-- A builtin has a plain value, and for `@escaping` the value is a mode. -/
theorem builtinValueOf_decides (b : Builtin) {v : Tree} (hv : Readable v) :
    Decides (builtinValueOf source b v) (∃ text, v.plainValue? source = some text ∧
      (b = .escaping → (Escaping.ofText? text).isSome)) := by
  have hmode : ∀ text, v.plainValue? source = some text →
      Decides (builtinValueOf source b v) (∃ text, v.plainValue? source = some text ∧
        (b = .escaping → (Escaping.ofText? text).isSome)) := by
    intro text htext
    rw [builtinValueOf_of_plain b htext]
    split
    · next hnone =>
      refine Decides.refuse rfl ?_
      rintro ⟨other, hother, hparses⟩
      cases htext.symm.trans hother
      simp_all
    · next hsome =>
      refine Decides.ok ⟨text, htext, fun hb => ?_⟩
      simpa [hb, Option.isSome_iff_ne_none] using hsome
  have hrefused : v.plainValue? source = none → Decides
      (refuse v.span (.builtinValue b) : Checked String)
      (∃ text, v.plainValue? source = some text ∧
        (b = .escaping → (Escaping.ofText? text).isSome)) := by
    intro hnone
    refine Decides.refuse rfl ?_
    rintro ⟨text, htext, _⟩
    rw [hnone] at htext
    cases htext
  obtain ⟨kind, span, children, message⟩ := v
  cases kind
  case stringValue => exact hmode _ rfl
  case exprValue =>
    rcases hv.shape with hnil | ⟨inner, hinner, _⟩
    · cases hnil
      exact hrefused rfl
    · cases hinner
      by_cases hkind : inner.kind = .hostExpr
      · exact hmode (inner.text source) (by simp [plainValue?, hkind])
      · have hnone : plainValue? source ⟨.exprValue, span, [inner], message⟩ = none := by
          simp [plainValue?, hkind]
        unfold builtinValueOf
        simp only [hkind, if_false]
        exact hrefused hnone
  case error => exact absurd rfl hv.kind
  all_goals exact hrefused rfl

theorem bracedOf?_isSome {span : Span} {c : Tree} {cs : List Tree} {o : Option Node}
    (h : bracedOf? source span (c :: cs) = .ok o) : o.isSome := by
  obtain ⟨kind, inner, children, message⟩ := c
  unfold bracedOf? at h
  split at h
  · cases h
    rfl
  · obtain ⟨_, _, h⟩ := Checked.ok_of_bind h
    cases h
    rfl
  · cases h
  · split at h
    · obtain ⟨_, _, h⟩ := Checked.ok_of_bind h
      cases h
      rfl
    · cases h

/-- A plain value holds nothing that a rule could refuse. -/
theorem everywhere_valid_of_plainValue? {v : Tree} {text : String}
    (hread : v.Everywhere Readable) (h : v.plainValue? source = some text) :
    v.Everywhere (Valid source) := by
  obtain ⟨kind, span, children, message⟩ := v
  unfold plainValue? at h
  split at h
  · next hkind =>
    refine hread.here.shape.everywhere_valid ?_
    rw [hkind]
    rfl
  · next e hkind hchildren =>
    cases hkind
    cases hchildren
    split at h
    · next he =>
      have hvalid : e.Everywhere (Valid source) :=
        (hread.child (List.mem_cons_self ..)).here.shape.everywhere_valid (by rw [he]; rfl)
      exact everywhere_iff.mpr ⟨trivial, by simpa using hvalid⟩
    · cases h
  · cases h

section Parts

variable {t : Tree} (hread : t.Everywhere Readable) (ih : ∀ c ∈ t.children, Settled source c)

include hread ih

theorem staticAttribute_decides (hkind : t.kind = .staticAttribute) :
    Decides (attributeOf source t) (t.Everywhere (Valid source)) := by
  obtain ⟨kind, span, children, message⟩ := t
  cases hkind
  obtain ⟨name, value?, rfl, hname, hvalue⟩ := hread.here.shape
  have hnamed : name.Everywhere (Valid source) :=
    (hread.child (List.mem_cons_self ..)).here.shape.everywhere_valid (by rw [hname]; rfl)
  unfold attributeOf
  cases value? with
  | none =>
    have hvalid : Valid source ⟨.staticAttribute, span, [name], message⟩ := by simp [Valid]
    exact Decides.ok (everywhere_iff.mpr ⟨hvalid, by simpa using hnamed⟩)
  | some v =>
    have hv := hread.child (List.mem_cons_of_mem _ (List.mem_singleton.mpr rfl))
    have hsettled := ih v (List.mem_cons_of_mem _ (List.mem_singleton.mpr rfl))
    have hiff : Tree.Everywhere (Valid source) ⟨.staticAttribute, span, [name, v], message⟩ ↔
        (v.kind = .exprValue → v.children ≠ []) ∧ v.Everywhere (Valid source) := by
      rw [everywhere_iff]
      simp [Valid, hnamed]
    have hkind := hvalue v rfl
    refine Decides.congr ?_ hiff.symm
    obtain ⟨kind, valueSpan, parts, valueMessage⟩ := v
    simp only [Option.toList_some, staticOf]
    cases kind
    case stringValue => exact Decides.ok ⟨by simp, hv.here.shape.everywhere_valid rfl⟩
    case templateString =>
      refine Decides.ok ⟨by simp, everywhere_iff.mpr ⟨trivial, fun c hc => ?_⟩⟩
      refine (hv.child hc).here.shape.everywhere_valid ?_
      rcases hv.here.shape c hc with hc | hc
      · rw [hc]
        rfl
      · rw [hc]
        rfl
    case exprValue =>
      have hbraced := hsettled.braced (Or.inr rfl) valueSpan
      have hvalid : Tree.Everywhere (Valid source) ⟨.exprValue, valueSpan, parts, valueMessage⟩ ↔
          ∀ c ∈ parts, c.Everywhere (Valid source) := by
        rw [everywhere_iff]
        exact and_iff_right trivial
      rw [hvalid, and_comm]
      refine Decides.bind hbraced fun o ho => ?_
      cases parts with
      | nil =>
        cases ho
        exact Decides.refuse rfl (by simp)
      | cons c cs =>
        obtain ⟨node, rfl⟩ := Option.isSome_iff_exists.mp (bracedOf?_isSome ho)
        exact Decides.ok (by simp)
    case error => exact absurd rfl hv.here.kind
    all_goals cases hkind

omit ih in
theorem builtinAttribute_decides (hkind : t.kind = .builtinAttribute) :
    Decides (attributeOf source t) (t.Everywhere (Valid source)) := by
  obtain ⟨kind, span, children, message⟩ := t
  cases hkind
  obtain ⟨name, value?, rfl, hname, hvalue⟩ := hread.here.shape
  have hnamed : name.Everywhere (Valid source) :=
    (hread.child (List.mem_cons_self ..)).here.shape.everywhere_valid (by rw [hname]; rfl)
  have hbuiltin : builtinName? source
      ⟨.builtinAttribute, span, name :: value?.toList, message⟩ = some (name.text source) := by
    simp [builtinName?, child?, hname]
  have htext : (childText? source .attrName (name :: value?.toList)).getD "" = name.text source := by
    simp [childText?, hname]
  have hiff : Tree.Everywhere (Valid source)
      ⟨.builtinAttribute, span, name :: value?.toList, message⟩ ↔
      (∃ b : Builtin, name.text source = b.name) ∧
        ValidBuiltin source ⟨.builtinAttribute, span, name :: value?.toList, message⟩ := by
    rw [everywhere_iff]
    constructor
    · rintro ⟨hvalid, _⟩
      obtain ⟨b, v, text, hb, hrest⟩ := hvalid
      exact ⟨⟨b, Option.some.inj (hbuiltin.symm.trans hb)⟩, b, v, text, hb, hrest⟩
    · rintro ⟨_, hvalid⟩
      refine ⟨hvalid, fun c hc => ?_⟩
      obtain ⟨b, v, text, _, hv, hplain, _⟩ := hvalid
      rcases List.mem_cons.mp hc with rfl | hc
      · exact hnamed
      · have hcv : c = v := by
          cases value? with
          | none => cases hv
          | some u =>
            cases hv
            exact List.mem_singleton.mp hc
        subst hcv
        exact everywhere_valid_of_plainValue? (hread.child (List.mem_cons_of_mem _ hc)) hplain
  refine Decides.congr ?_ hiff.symm
  unfold attributeOf
  simp only [htext, builtinAttributeOf]
  refine Decides.bind (builtinOf_decides span _) fun b hb => ?_
  have hb := builtinOf_name hb
  cases value? with
  | none =>
    refine Decides.refuse rfl ?_
    rintro ⟨_, v, _, _, hv, _⟩
    cases hv
  | some v =>
    have hv := (hread.child (List.mem_cons_of_mem _ (List.mem_singleton.mpr rfl))).here
    refine (builtinValueOf_decides b hv).map.congr ?_
    constructor
    · rintro ⟨text, hplain, hmode⟩
      exact ⟨b, v, text, hbuiltin.trans (congrArg some hb), rfl, hplain, hmode⟩
    · rintro ⟨b', v', text, hb', hv', hplain, hmode⟩
      cases hv'
      have hbb : b' = b := Builtin.name_injective (Option.some.inj (hb'.symm.trans
        (hbuiltin.trans (congrArg some hb))))
      subst hbb
      exact ⟨text, hplain, hmode⟩

omit ih in
theorem builtinShorthand_decides (hkind : t.kind = .builtinShorthandAttribute) :
    Decides (attributeOf source t) (t.Everywhere (Valid source)) := by
  obtain ⟨kind, span, children, message⟩ := t
  cases hkind
  obtain ⟨name, rfl, hname⟩ := hread.here.shape
  have hnamed : name.Everywhere (Valid source) :=
    (hread.child (List.mem_cons_self ..)).here.shape.everywhere_valid (by rw [hname]; rfl)
  have hiff : Tree.Everywhere (Valid source)
      ⟨.builtinShorthandAttribute, span, [name], message⟩ ↔
      (∃ b : Builtin, name.text source = b.name) ∧ name.text source ≠ "escaping" := by
    rw [everywhere_iff]
    simp only [Valid, builtinName?, child?, List.find?_cons, hname, beq_self_eq_true,
      Option.map_some, Option.some.injEq, List.mem_singleton, forall_eq, hnamed, and_true]
    constructor
    · rintro ⟨b, hb, hne⟩
      refine ⟨⟨b, hb⟩, fun hescaping => hne (Builtin.name_injective (hb.symm.trans hescaping))⟩
    · rintro ⟨⟨b, hb⟩, hne⟩
      exact ⟨b, hb, fun hescaping => hne (by rw [hb, hescaping]; rfl)⟩
  refine Decides.congr ?_ hiff.symm
  have htext : (childText? source .attrName [name]).getD "" = name.text source := by
    simp [childText?, hname]
  unfold attributeOf
  simp only [htext, builtinShorthandOf]
  refine Decides.bind (builtinOf_decides span _) fun b hb => ?_
  rw [builtinOf_name hb]
  by_cases hescaping : b = .escaping
  · rw [if_pos hescaping, hescaping]
    exact Decides.refuse rfl fun hne => hne rfl
  · rw [if_neg hescaping]
    exact Decides.ok fun heq => hescaping (Builtin.name_injective heq)

theorem attribute_decides (hkind : t.kind.isAttribute) :
    Decides (attributeOf source t) (t.Everywhere (Valid source)) := by
  cases hk : t.kind
  case staticAttribute => exact staticAttribute_decides hread ih hk
  case builtinAttribute => exact builtinAttribute_decides hread hk
  case builtinShorthandAttribute => exact builtinShorthand_decides hread hk
  case shorthandAttribute =>
    obtain ⟨kind, span, children, message⟩ := t
    cases hk
    obtain ⟨name, rfl, hname⟩ := hread.here.shape
    have hnamed : name.Everywhere (Valid source) :=
      (hread.child (List.mem_cons_self ..)).here.shape.everywhere_valid (by rw [hname]; rfl)
    exact Decides.ok (everywhere_iff.mpr ⟨trivial, by simpa using hnamed⟩)
  case spreadAttribute =>
    obtain ⟨kind, span, children, message⟩ := t
    cases hk
    obtain ⟨code, rfl, hcode⟩ := hread.here.shape
    have hvalid : code.Everywhere (Valid source) :=
      (hread.child (List.mem_cons_self ..)).here.shape.everywhere_valid (by rw [hcode]; rfl)
    exact Decides.ok (everywhere_iff.mpr ⟨trivial, by simpa using hvalid⟩)
  case error => exact absurd hk hread.here.kind
  all_goals
    rw [hk] at hkind
    cases hkind

end Parts

end OfTree

end ZigMarkup
