import ZigMarkup.Proofs.AttributeRules

/-!
Templates are made of exactly the valid trees. Each function that reads a part of a tree
decides whether that part is valid; by induction on the tree, the functions that read a node
may rely on what the functions that read its children decide.
-/
namespace ZigMarkup

namespace OfTree

open Tree

variable {source : Bytes}

theorem attributesOf_decides {ts : List Tree}
    (h : ∀ t ∈ ts, Decides (attributeOf source t) (t.Everywhere (Valid source))) :
    Decides (attributesOf source ts) (∀ t ∈ ts, t.Everywhere (Valid source)) := by
  induction ts with
  | nil => exact Decides.ok (by simp)
  | cons t ts ih =>
    unfold attributesOf
    have hrest := ih fun u hu => h u (List.mem_cons_of_mem _ hu)
    refine ((h t (List.mem_cons_self ..)).bind fun a _ => hrest.map).congr ?_
    rw [List.forall_mem_cons]

theorem nodesOf_decides {ts : List Tree}
    (h : ∀ t ∈ ts, Decides (nodeOf? source t) (t.Everywhere (Valid source))) :
    Decides (nodesOf source ts) (∀ t ∈ ts, t.Everywhere (Valid source)) := by
  induction ts with
  | nil => exact Decides.ok (by simp)
  | cons t ts ih =>
    unfold nodesOf
    have hrest := ih fun u hu => h u (List.mem_cons_of_mem _ hu)
    refine ((h t (List.mem_cons_self ..)).bind fun o _ => hrest.map).congr ?_
    rw [List.forall_mem_cons]

theorem innerNodesOf_append (items : List Tree) (close : Tree) :
    innerNodesOf source (items ++ [close]) = nodesOf source items := by
  induction items with
  | nil => rfl
  | cons t items ih =>
    cases items with
    | nil => rfl
    | cons u items =>
      rw [nodesOf, ← ih]
      rfl

/-- A child is read as a node that is not blank text exactly if it is content. -/
theorem nodeOf?_content {t : Tree} {o : Option Node} (hs : t.Everywhere Shaped)
    (hkind : t.kind.isChild) (h : nodeOf? source t = .ok o) :
    (∃ n ∈ o, n.isBlankText = false) ↔ t.isContent source = true := by
  have hnode : ∀ {node : Node}, node.isText = false → node.isBlankText = false := by
    intro node htext
    cases node <;> first | rfl | cases htext
  obtain ⟨kind, span, children, message⟩ := t
  cases kind
  case text =>
    cases h
    simp [rawText, Node.isBlankText, isContent, Tree.text]
  case comment =>
    cases h
    simp [isContent]
  case expressionBlock =>
    cases children with
    | nil =>
      cases h
      simp [isContent]
    | cons c cs =>
      obtain ⟨node, rfl⟩ := Option.isSome_iff_exists.mp (bracedOf?_isSome h)
      have htext := bracedOf?_isText (fun u hu => (hs.child hu).here) h node rfl
      simp [isContent, hnode htext]
  case error => cases h
  case element =>
    obtain ⟨node, hmade, hrest⟩ := Checked.ok_of_bind h
    cases hrest
    simp [isContent, hnode (elementOf_isText hmade)]
  case selfClosingElement =>
    obtain ⟨tag, _, hrest⟩ := Checked.ok_of_bind h
    cases hrest
    simp [isContent, Node.isBlankText]
  case fragment =>
    obtain ⟨_, _, hrest⟩ := Checked.ok_of_bind h
    obtain ⟨nodes, _, hrest⟩ := Checked.ok_of_bind hrest
    cases hrest
    simp [isContent, Node.isBlankText]
  all_goals cases hkind

theorem nodesOf_content {ts : List Tree} {nodes : List Node} (hs : ∀ t ∈ ts, t.Everywhere Shaped)
    (hkinds : ∀ t ∈ ts, t.kind.isChild) (h : nodesOf source ts = .ok nodes) :
    (∀ n ∈ nodes, n.isBlankText = true) ↔ ∀ t ∈ ts, t.isContent source = false := by
  induction ts generalizing nodes with
  | nil =>
    cases h
    simp
  | cons t ts ih =>
    unfold nodesOf at h
    obtain ⟨o, ho, h⟩ := Checked.ok_of_bind h
    obtain ⟨rest, hrest, h⟩ := Checked.ok_of_bind h
    cases h
    have hfirst := nodeOf?_content (hs t (List.mem_cons_self ..)) (hkinds t (List.mem_cons_self ..)) ho
    have hlater := ih (fun u hu => hs u (List.mem_cons_of_mem _ hu))
      (fun u hu => hkinds u (List.mem_cons_of_mem _ hu)) hrest
    rw [List.forall_mem_append, hlater, List.forall_mem_cons]
    refine and_congr_left' ?_
    rw [← Bool.not_eq_true, ← hfirst]
    simp

theorem tagOf_ok {span : Span} {name : Tree} {attributes : List Tree} {tag : Tag}
    (hs : ∀ a ∈ attributes, Shaped a)
    (h : tagOf source span (name :: attributes) = .ok tag) : tag.name = name.text source ∧
      tag.kind = TagKind.ofName (name.text source) ∧
      tag.attributes.filterMap Attribute.name? = attributes.filterMap (boundName? source) := by
  obtain ⟨_, _, heq, hname, hkind, hmade, _⟩ := exists_of_tagOf h
  obtain ⟨rfl, rfl⟩ := List.cons.inj heq
  exact ⟨hname, hname ▸ hkind, (attributesOf_names hs hmade).1⟩

theorem ofName_eq_component_iff {name : String} :
    TagKind.ofName name = .component ↔ isComponentName name = true := by
  unfold TagKind.ofName
  split <;> simp_all

theorem endTag_everywhere_valid {close : Tree} (hread : close.Everywhere Readable)
    (hkind : close.kind = .endTag) : close.Everywhere (Valid source) := by
  obtain ⟨kind, span, children, message⟩ := close
  cases hkind
  refine everywhere_iff.mpr ⟨trivial, fun c hc => ?_⟩
  have hname : c.kind = .tagName := hread.here.shape c hc
  exact (hread.child hc).here.shape.everywhere_valid (by rw [hname]; rfl)

theorem childText?_tagName (t : Tree) :
    childText? source .tagName t.children = t.tagName? source := rfl

theorem branchesOf_decides {ts : List Tree}
    (h : ∀ t ∈ ts, (t.kind = .branch → ∀ span,
      Decides (bodyOf source span t.children) (t.Everywhere (Valid source))) ∧
        (t.kind ≠ .branch → t.Everywhere (Valid source))) :
    Decides (branchesOf source ts) (∀ t ∈ ts, t.Everywhere (Valid source)) := by
  induction ts with
  | nil => exact Decides.ok (by simp)
  | cons t ts ih =>
    have hfirst := h t (List.mem_cons_self ..)
    have hrest := ih fun u hu => h u (List.mem_cons_of_mem _ hu)
    obtain ⟨kind, span, parts, message⟩ := t
    unfold branchesOf
    rw [List.forall_mem_cons]
    split
    · next hkind => exact (hfirst.1 hkind span).bind fun _ _ => hrest.map
    · next hkind => exact hrest.congr (and_iff_right (hfirst.2 hkind)).symm

/-- The body of a branch is the part of kind `body`. -/
theorem bodyOf_append {span : Span} {heads ts : List Tree} (h : ∀ t ∈ heads, t.kind ≠ .body) :
    bodyOf source span (heads ++ ts) = bodyOf source span ts := by
  induction heads with
  | nil => rfl
  | cons t heads ih =>
    obtain ⟨kind, headSpan, children, message⟩ := t
    have hkind : kind ≠ .body := h _ (List.mem_cons_self ..)
    have hrest := ih fun u hu => h u (List.mem_cons_of_mem _ hu)
    rw [List.cons_append, ← hrest]
    conv => lhs; unfold bodyOf
    exact if_neg hkind

theorem bodyOf_list {span bodySpan : Span} {items : List Tree} {message : Option String}
    (h : ∀ c ∈ items, c.kind.isChild) :
    bodyOf source span [⟨.body, bodySpan, items, message⟩] =
      (do return .list (← nodesOf source items)) := by
  unfold bodyOf
  simp only [if_true]
  split
  · cases h _ (List.mem_singleton.mpr rfl)
  · rfl

section Parts

variable {t : Tree} (hread : t.Everywhere Readable) (ih : ∀ c ∈ t.children, Settled source c)

include hread ih

theorem tag_decides (hkind : t.kind = .startTag ∨ t.kind = .selfClosingElement) (span : Span) :
    Decides (tagOf source span t.children) (t.Everywhere (Valid source)) := by
  have hshape : ∃ name attributes, t.children = name :: attributes ∧ name.kind = .tagName ∧
      ∀ a ∈ attributes, a.kind.isAttribute := by
    have h := hread.here.shape
    unfold Shaped at h
    rcases hkind with hkind | hkind <;> simpa only [hkind] using h
  have hrule : Valid source t ↔ t.ValidTag source := by
    rcases hkind with hkind | hkind <;> simp only [Valid, hkind]
  obtain ⟨name, attributes, hchildren, hname, hattributes⟩ := hshape
  have hmem : ∀ a ∈ attributes, a ∈ t.children := by
    intro a ha
    rw [hchildren]
    exact List.mem_cons_of_mem _ ha
  have hnamed : name.Everywhere (Valid source) := by
    refine (hread.child ?_).here.shape.everywhere_valid (by rw [hname]; rfl)
    rw [hchildren]
    exact List.mem_cons_self ..
  have hbound : t.boundNames source = attributes.filterMap (boundName? source) := by
    simp [boundNames, hchildren, boundName?, hname]
  have hbuiltins : t.builtinNames source = attributes.filterMap (builtinName? source) := by
    simp [builtinNames, hchildren, builtinName?, hname]
  have htagName : t.tagName? source = some (name.text source) := by
    simp [tagName?, child?, hchildren, hname]
  have hiff : t.Everywhere (Valid source) ↔
      (∀ a ∈ attributes, a.Everywhere (Valid source)) ∧ t.ValidTag source := by
    rw [everywhere_iff, hrule, hchildren, List.forall_mem_cons, and_comm]
    simp [hnamed]
  refine Decides.congr ?_ hiff.symm
  rw [hchildren]
  unfold tagOf
  refine (attributesOf_decides fun a ha => (ih a (hmem a ha)).attr (hattributes a ha)).bind
    fun made hmade => (checkAttributes_decides _ made).map.congr ?_
  obtain ⟨hnames, hmarks⟩ := attributesOf_names
    (fun a ha => (hread.child (hmem a ha)).here.shape) hmade
  have hnodup : (made.filterMap Attribute.builtin?).Nodup ↔ (t.builtinNames source).Nodup := by
    rw [hbuiltins, ← hmarks]
    unfold List.Nodup
    rw [List.pairwise_map]
    refine iff_of_eq (congrArg (List.Pairwise · _) ?_)
    funext b c
    exact propext (not_congr ⟨congrArg Builtin.name, Builtin.name_injective⟩)
  have hrendering : .rendering ∈ made.filterMap Attribute.builtin? ↔
      "rendering" ∈ t.builtinNames source := by
    rw [hbuiltins, ← hmarks, List.mem_map]
    constructor
    · exact fun h => ⟨_, h, rfl⟩
    · rintro ⟨b, hb, hname⟩
      have hrendering : b = .rendering := Builtin.name_injective (c := .rendering) hname
      rwa [← hrendering]
  rw [hnames, ← hbound, hnodup, hrendering, ofName_eq_component_iff]
  constructor
  · rintro ⟨hnames, hbuiltins, hplace⟩
    exact ⟨hnames, hbuiltins, fun h => ⟨_, htagName, hplace h⟩⟩
  · rintro ⟨hnames, hbuiltins, hplace⟩
    refine ⟨hnames, hbuiltins, fun h => ?_⟩
    obtain ⟨other, hother, hcomponent⟩ := hplace h
    rw [htagName] at hother
    cases hother
    exact hcomponent

theorem element_decides (hkind : t.kind = .element) :
    Decides (nodeOf? source t) (t.Everywhere (Valid source)) := by
  obtain ⟨kind, span, children, message⟩ := t
  cases hkind
  obtain ⟨start, items, close, rfl, hstart, hclose, hitems⟩ := hread.here.shape
  have hin : ∀ c ∈ items, c ∈ start :: items ++ [close] := fun c hc => by simp [hc]
  have hclosed : close.Everywhere (Valid source) :=
    endTag_everywhere_valid (hread.child (by simp)) hclose
  obtain ⟨kind, startSpan, parts, startMessage⟩ := start
  cases hstart
  have hstart := hread.child (c := ⟨.startTag, startSpan, parts, startMessage⟩) (by simp)
  have htag := (ih ⟨.startTag, startSpan, parts, startMessage⟩ (by simp)).tag (Or.inl rfl) span
  obtain ⟨name, attributes, rfl, hname, _⟩ := hstart.here.shape
  have hattributes : ∀ a ∈ attributes, Shaped a := fun a ha =>
    (hstart.child (List.mem_cons_of_mem _ ha)).here.shape
  have hbound : boundNames source ⟨.startTag, startSpan, name :: attributes, startMessage⟩ =
      attributes.filterMap (boundName? source) := by
    simp [boundNames, boundName?, hname]
  have htagName : tagName? source ⟨.startTag, startSpan, name :: attributes, startMessage⟩ =
      some (name.text source) := by
    simp [tagName?, child?, hname]
  have hiff : Tree.Everywhere (Valid source) ⟨.element, span,
      ⟨.startTag, startSpan, name :: attributes, startMessage⟩ :: items ++ [close], message⟩ ↔
      Tree.Everywhere (Valid source) ⟨.startTag, startSpan, name :: attributes, startMessage⟩ ∧
        close.tagName? source = some (name.text source) ∧
        (∀ c ∈ items, c.Everywhere (Valid source)) ∧
        (isComponentName (name.text source) → "children" ∈ attributes.filterMap (boundName? source) →
          ∀ c ∈ items, c.isContent source = false) := by
    rw [everywhere_iff, List.forall_mem_append, List.forall_mem_cons]
    constructor
    · rintro ⟨⟨start', items', close', heq, text, hopen, hshut, hcontent⟩, ⟨hstart, hitems⟩, _⟩
      obtain ⟨hopened, hlast⟩ := List.append_inj' heq rfl
      cases hopened
      cases hlast
      cases htagName.symm.trans hopen
      exact ⟨hstart, hshut, hitems, fun h => hbound ▸ hcontent h⟩
    · rintro ⟨hstart, hshut, hitems, hcontent⟩
      refine ⟨⟨_, items, close, rfl, _, htagName, hshut, fun h => hbound ▸ hcontent h⟩,
        ⟨hstart, hitems⟩, ?_⟩
      simpa using hclosed
  refine Decides.congr ?_ hiff.symm
  unfold nodeOf?
  refine Decides.map ?_
  rw [List.cons_append]
  unfold elementOf
  refine htag.bind fun tag hmade => ?_
  obtain ⟨htext, hkind, hnames⟩ := tagOf_ok hattributes hmade
  have hlast : (items ++ [close]).getLastD ⟨.startTag, startSpan, name :: attributes, none⟩ = close := by
    simp
  dsimp only
  rw [hlast, htext, childText?_tagName]
  by_cases hshut : close.tagName? source = some (name.text source)
  · rw [if_neg (not_not_intro hshut), innerNodesOf_append]
    refine Decides.congr ?_ (and_iff_right hshut).symm
    refine (nodesOf_decides fun c hc => (ih c (hin c hc)).node (hitems c hc)).bind
      fun nodes hnodes => ?_
    have hcontent := nodesOf_content
      (fun c hc => fun u hu => ((hread.child (hin c hc)) u hu).shape) hitems hnodes
    have hcomponent : tag.isComponent = isComponentName (name.text source) := by
      rw [Tag.isComponent, hkind, Bool.eq_iff_iff, decide_eq_true_iff, ofName_eq_component_iff]
    rw [hcomponent]
    split
    · next hyes =>
      refine (checkChildren_decides tag nodes).map.congr ?_
      rw [hnames, hcontent]
      exact ⟨fun h _ => h, fun h => h hyes⟩
    · next hno => exact Decides.ok fun h => absurd h hno
  · rw [if_pos hshut]
    exact Decides.refuse rfl fun h => hshut h.1

theorem fragment_decides (hkind : t.kind = .fragment) :
    Decides (nodeOf? source t) (t.Everywhere (Valid source)) := by
  obtain ⟨kind, span, children, message⟩ := t
  cases hkind
  obtain ⟨items, close, rfl, hclose, hitems⟩ := hread.here.shape
  have hin : ∀ c ∈ items, c ∈ items ++ [close] := fun c hc => List.mem_append_left _ hc
  have hclosed : close.Everywhere (Valid source) :=
    endTag_everywhere_valid (hread.child (by simp)) hclose
  have hiff : Tree.Everywhere (Valid source) ⟨.fragment, span, items ++ [close], message⟩ ↔
      close.tagName? source = none ∧ ∀ c ∈ items, c.Everywhere (Valid source) := by
    rw [everywhere_iff, List.forall_mem_append]
    constructor
    · rintro ⟨⟨items', close', heq, hshut⟩, hitems, _⟩
      obtain ⟨_, hlast⟩ := List.append_inj' heq rfl
      cases hlast
      exact ⟨hshut, hitems⟩
    · rintro ⟨hshut, hitems⟩
      exact ⟨⟨items, close, rfl, hshut⟩, hitems, by simpa using hclosed⟩
  refine Decides.congr ?_ hiff.symm
  have hend : Decides (checkFragmentEnd source span (items ++ [close]))
      (close.tagName? source = none) := by
    unfold checkFragmentEnd
    simp only [List.getLast?_append, List.getLast?_singleton, Option.some_or]
    split
    · next hname =>
      obtain ⟨name, hname⟩ := Option.isSome_iff_exists.mp hname
      exact Decides.refuse rfl (by simp [tagName?, hname])
    · next hname => exact Decides.ok (by simpa [tagName?] using hname)
  unfold nodeOf?
  refine hend.bind fun _ _ => Decides.map ?_
  rw [innerNodesOf_append]
  exact nodesOf_decides fun c hc => (ih c (hin c hc)).node (hitems c hc)

theorem braced_decides (hkind : t.kind = .expressionBlock ∨ t.kind = .exprValue) (span : Span) :
    Decides (bracedOf? source span t.children)
      (∀ c ∈ t.children, c.Everywhere (Valid source)) := by
  have hshape : t.children = [] ∨ ∃ inner, t.children = [inner] ∧ inner.kind.isInner := by
    have h := hread.here.shape
    unfold Shaped at h
    rcases hkind with hkind | hkind <;> simpa only [hkind] using h
  rcases hshape with hnil | ⟨inner, hinner, hkind⟩
  · rw [hnil]
    exact Decides.ok (by simp)
  · have hmem : inner ∈ t.children := by simp [hinner]
    have hsettled := ih inner hmem
    have hshaped := (hread.child hmem).here.shape
    rw [hinner]
    refine Decides.congr ?_ (by simp : inner.Everywhere (Valid source) ↔ _)
    obtain ⟨kind, innerSpan, children, message⟩ := inner
    unfold bracedOf?
    cases kind
    case hostExpr => exact Decides.ok (hshaped.everywhere_valid rfl)
    case templateRoot => exact (hsettled.root rfl innerSpan).map
    case ifBlock => exact (hsettled.flow rfl).map
    case forBlock => exact (hsettled.flow rfl).map
    case whileBlock => exact (hsettled.flow rfl).map
    case switchBlock => exact (hsettled.flow rfl).map
    all_goals cases hkind

theorem root_decides (hkind : t.kind = .templateRoot) (span : Span) :
    Decides (rootOf source span t.children) (t.Everywhere (Valid source)) := by
  obtain ⟨kind, rootSpan, children, message⟩ := t
  cases hkind
  rcases hread.here.shape with ⟨e, hchildren, herror⟩ | ⟨first, rest, hchildren, hfirst, hmarkup⟩
  · cases hchildren
    exact absurd herror (hread.child (List.mem_singleton.mpr rfl)).here.kind
  · cases hchildren
    have hkept : (first :: rest).filter (·.kind != .comment) =
        first :: rest.filter (·.kind != .comment) :=
      List.filter_cons_of_pos (by simpa using hfirst)
    rw [rootOf, if_neg hfirst]
    cases hextra : rest.find? (·.kind != .comment) with
    | some extra =>
      refine Decides.refuse rfl fun h => ?_
      obtain ⟨c, hc⟩ := h.here
      have hkind := List.find?_some hextra
      have hmem : extra ∈ rest.filter (·.kind != .comment) :=
        List.mem_filter.mpr ⟨List.mem_of_find?_eq_some hextra, hkind⟩
      rw [hkept] at hc
      rw [(List.cons.inj hc).2] at hmem
      cases hmem
    | none =>
      have hcomments : ∀ c ∈ rest, c.kind = .comment := by
        intro c hc
        simpa using List.find?_eq_none.mp hextra c hc
      have hrest : ∀ c ∈ rest, c.Everywhere (Valid source) := fun c hc =>
        (hread.child (List.mem_cons_of_mem _ hc)).here.shape.everywhere_valid
          (by rw [hcomments c hc]; rfl)
      have hiff : Tree.Everywhere (Valid source) ⟨.templateRoot, rootSpan, first :: rest, message⟩ ↔
          first.Everywhere (Valid source) := by
        have hone : ∃ c, (first :: rest).filter (·.kind != .comment) = [c] := by
          refine ⟨first, ?_⟩
          rw [hkept, List.filter_eq_nil_iff.mpr fun c hc => by simp [hcomments c hc]]
        rw [everywhere_iff, List.forall_mem_cons]
        exact ⟨fun h => h.2.1, fun h => ⟨hone, h, hrest⟩⟩
      have hchild : first.kind.isChild := by
        have hmark := hmarkup first (List.mem_cons_self ..)
        cases hk : first.kind <;> simp_all [Kind.isMarkup, Kind.isChild]
      have hcontent : first.isContent source = true := by
        have hmark := hmarkup first (List.mem_cons_self ..)
        unfold isContent
        cases hk : first.kind <;> simp_all [Kind.isMarkup]
      have hnode := (ih first (List.mem_cons_self ..)).node hchild
      refine ((hnode.bind fun o ho => ?_).congr (iff_of_eq (and_true _))).congr hiff.symm
      have hshape : first.Everywhere Shaped := fun u hu =>
        ((hread.child (List.mem_cons_self ..)) u hu).shape
      obtain ⟨n, hn, _⟩ := (nodeOf?_content hshape hchild ho).mpr hcontent
      cases hn
      exact Decides.ok trivial

theorem flow_decides (hkind : t.kind.isControlFlow) :
    Decides (branchesOf source t.children) (t.Everywhere (Valid source)) := by
  have hrule : Valid source t := by
    cases hk : t.kind <;> simp_all [Kind.isControlFlow, Valid]
  have hparts : ∀ c ∈ t.children, c.kind = .branch ∨ c.kind = .header := by
    have hshape := hread.here.shape
    unfold Shaped at hshape
    cases hk : t.kind
    case ifBlock =>
      simp only [hk] at hshape
      obtain ⟨_, _, _, _, hbranches, _⟩ := hshape
      exact fun c hc => Or.inl (hbranches c hc)
    case switchBlock =>
      simp only [hk] at hshape
      obtain ⟨header, first, rest, hchildren, hheader, hbranches⟩ := hshape
      rw [hchildren, List.forall_mem_cons]
      exact ⟨Or.inr hheader, fun c hc => Or.inl (hbranches c hc).1⟩
    case forBlock =>
      simp only [hk] at hshape
      obtain ⟨b, hchildren, hb, _⟩ := hshape
      simp [hchildren, hb]
    case whileBlock =>
      simp only [hk] at hshape
      obtain ⟨b, hchildren, hb, _⟩ := hshape
      simp [hchildren, hb]
    all_goals
      rw [hk] at hkind
      cases hkind
  refine (branchesOf_decides fun c hc => ⟨(ih c hc).branch, fun hother => ?_⟩).congr
    (by rw [everywhere_iff]; exact (and_iff_right hrule).symm)
  refine (hread.child hc).here.shape.everywhere_valid ?_
  rw [(hparts c hc).resolve_left hother]
  rfl

theorem branch_decides (hkind : t.kind = .branch) (span : Span) :
    Decides (bodyOf source span t.children) (t.Everywhere (Valid source)) := by
  obtain ⟨kind, branchSpan, children, message⟩ := t
  cases hkind
  obtain ⟨heads, b, rfl, hb, hheads⟩ := hread.here.shape
  have hkinds : ∀ h ∈ heads, h.kind ≠ .body := by
    intro h hh hbody
    have hhead := hheads h hh
    rw [hbody] at hhead
    cases hhead
  rw [bodyOf_append hkinds]
  refine ((ih b (by simp)).body hb span).congr ?_
  have hvalid : ∀ h ∈ heads, h.Everywhere (Valid source) := by
    intro h hh
    refine (hread.child (List.mem_append_left _ hh)).here.shape.everywhere_valid ?_
    have hhead := hheads h hh
    cases hk : h.kind <;> simp_all [Kind.isHead, Kind.isLeaf]
  constructor
  · intro h
    refine everywhere_iff.mpr ⟨trivial, List.forall_mem_append.mpr ⟨hvalid, ?_⟩⟩
    simpa using h
  · exact fun h => h.child (List.mem_append_right _ (List.mem_singleton.mpr rfl))

theorem body_decides (hkind : t.kind = .body) (span : Span) :
    Decides (bodyOf source span [t]) (t.Everywhere (Valid source)) := by
  obtain ⟨kind, bodySpan, children, message⟩ := t
  cases hkind
  have hiff : Tree.Everywhere (Valid source) ⟨.body, bodySpan, children, message⟩ ↔
      ∀ c ∈ children, c.Everywhere (Valid source) := by
    rw [everywhere_iff]
    exact and_iff_right trivial
  refine Decides.congr ?_ hiff.symm
  rcases hread.here.shape with ⟨root, hchildren, hroot⟩ | hitems
  · cases hchildren
    have hdecides := (ih root (List.mem_singleton.mpr rfl)).root hroot
    obtain ⟨kind, rootSpan, items, rootMessage⟩ := root
    cases hroot
    refine Decides.congr (hdecides rootSpan).map ?_
    simp
  · rw [bodyOf_list hitems]
    exact (nodesOf_decides fun c hc => (ih c hc).node (hitems c hc)).map

theorem node_decides (hkind : t.kind.isChild) :
    Decides (nodeOf? source t) (t.Everywhere (Valid source)) := by
  cases hk : t.kind
  case element => exact element_decides hread ih hk
  case fragment => exact fragment_decides hread ih hk
  case selfClosingElement =>
    have htag := tag_decides hread ih (Or.inr hk) t.span
    obtain ⟨kind, span, children, message⟩ := t
    cases hk
    exact htag.map
  case text =>
    have hvalid : t.Everywhere (Valid source) :=
      hread.here.shape.everywhere_valid (by rw [hk]; rfl)
    obtain ⟨kind, span, children, message⟩ := t
    cases hk
    exact Decides.ok hvalid
  case comment =>
    have hvalid : t.Everywhere (Valid source) :=
      hread.here.shape.everywhere_valid (by rw [hk]; rfl)
    obtain ⟨kind, span, children, message⟩ := t
    cases hk
    exact Decides.ok hvalid
  case expressionBlock =>
    have hbraced := braced_decides hread ih (Or.inl hk) t.span
    obtain ⟨kind, span, children, message⟩ := t
    cases hk
    refine Decides.congr hbraced ?_
    rw [everywhere_iff]
    exact (and_iff_right trivial).symm
  case error => exact absurd hk hread.here.kind
  all_goals
    rw [hk] at hkind
    cases hkind

end Parts

theorem settled (t : Tree) : t.Everywhere Readable → Settled source t := by
  induction t using induction_on_children with
  | h t ih =>
    intro hread
    have ih : ∀ c ∈ t.children, Settled source c := fun c hc => ih c hc (hread.child hc)
    exact ⟨node_decides hread ih, braced_decides hread ih, root_decides hread ih,
      tag_decides hread ih, attribute_decides hread ih, flow_decides hread ih,
      branch_decides hread ih, body_decides hread ih⟩

end OfTree

theorem everywhere_readable_of_hasErrors {source : Bytes} (h : (parse source).hasErrors = false) :
    (parse source).Everywhere Tree.Readable := by
  intro t ht
  refine ⟨parse_shaped source t ht, fun hkind => ?_⟩
  have hnone := List.any_eq_false.mp h t ht
  exact hnone (by simp [Tree.isError, hkind])

theorem mapM_decides {α β : Type} {f : α → Checked β} {P : α → Prop} {as : List α}
    (h : ∀ a ∈ as, Decides (f a) (P a)) : Decides (as.mapM f) (∀ a ∈ as, P a) := by
  induction as with
  | nil => exact Decides.ok (by simp)
  | cons a as ih =>
    rw [List.mapM_cons, List.forall_mem_cons]
    refine (h a (List.mem_cons_self ..)).bind fun _ _ => Decides.map ?_
    exact ih fun b hb => h b (List.mem_cons_of_mem _ hb)

theorem Tree.errors_eq_nil {t : Tree} (h : t.hasErrors = false) : t.errors = [] := by
  unfold Tree.errors
  rw [List.filter_eq_nil_iff.mpr (List.any_eq_false.mp h)]
  simp

theorem templatesOf_decides {source : Bytes} (h : (parse source).hasErrors = false) :
    Decides (templatesOf source (parse source)) ((parse source).Everywhere (Tree.Valid source)) := by
  have hread := everywhere_readable_of_hasErrors h
  have hkinds : ∀ c ∈ (parse source).children, c.kind = .hostText ∨ c.kind = .templateRoot :=
    hread.here.shape
  have hiff : (∀ root ∈ (parse source).templateRoots, root.Everywhere (Tree.Valid source)) ↔
      (parse source).Everywhere (Tree.Valid source) := by
    rw [Tree.everywhere_iff]
    constructor
    · intro hroots
      refine ⟨trivial, fun c hc => ?_⟩
      rcases hkinds c hc with hkind | hkind
      · exact (hread.child hc).here.shape.everywhere_valid (by rw [hkind]; rfl)
      · exact hroots c (List.mem_filter.mpr ⟨hc, by simp [hkind]⟩)
    · exact fun hall root hroot => hall.2 root (List.mem_filter.mp hroot).1
  unfold templatesOf
  rw [Tree.errors_eq_nil h]
  refine (mapM_decides fun root hroot => Decides.map ?_).congr hiff
  obtain ⟨hchild, hkind⟩ := List.mem_filter.mp hroot
  exact (OfTree.settled root (hread.child hchild)).root (by simpa using hkind) root.span

/-- In a file where nothing is unreadable, templates are made of exactly the valid trees, and
what is reported of all others is a broken rule. -/
theorem templatesOf_ok_iff {source : Bytes} (h : (parse source).hasErrors = false) :
    ((∃ templates, templatesOf source (parse source) = .ok templates) ↔
      (parse source).Everywhere (Tree.Valid source)) ∧
    ∀ d, templatesOf source (parse source) = .error d →
      ∃ span problem, d = Problem.diagnose problem span ∧ problem.isDefensive = false := by
  have hdecides := templatesOf_decides h
  refine ⟨hdecides.ok_iff, fun d hd => ?_⟩
  rw [hd] at hdecides
  exact hdecides.2

def cardSource : Bytes :=
  utf8 "(<Card @rendering=.eager \x7bid\x7d title=\"t\">\x7bif (on) (<b>x</b>)\x7d</Card>)"

theorem templatesOf_ok_iff_card : (parse cardSource).hasErrors = false ∧
    (parse cardSource).Everywhere (Tree.Valid cardSource) := by
  have herrors : (parse cardSource).hasErrors = false := by decide +kernel
  have haccepted : (templatesOf cardSource (parse cardSource)).toBool = true := by decide +kernel
  refine ⟨herrors, (templatesOf_ok_iff herrors).1.mp ?_⟩
  cases h : templatesOf cardSource (parse cardSource) with
  | ok templates => exact ⟨templates, rfl⟩
  | error d => rw [h] at haccepted; cases haccepted

end ZigMarkup
