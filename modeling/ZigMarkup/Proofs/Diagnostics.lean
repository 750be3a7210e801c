import ZigMarkup.Compile
import ZigMarkup.Proofs.Lines
import ZigMarkup.Proofs.Lossless
import ZigMarkup.Proofs.Validity

/-!
Where diagnostics point. Whatever is refused while templates are read from a tree, the span of
the refusal and the spans of its labels are spans of the tree, the opening of a fragment apart,
and those are cut out of the source at boundaries.
-/
namespace ZigMarkup

variable {S : Span → Prop} {α β : Type}

/-- All spans of a diagnostic are in `S`. -/
structure Diagnostic.Points (S : Span → Prop) (d : Diagnostic) : Prop where
  span : S d.span
  labels : ∀ label ∈ d.labels, S label.span

namespace Checked

/-- What a check finds satisfies `P`, and what it refuses points into `S`. -/
def Points (S : Span → Prop) (P : α → Prop) : Checked α → Prop
  | .ok a => P a
  | .error d => d.Points S

variable {P : α → Prop} {Q : β → Prop}

theorem Points.bind {x : Checked α} {f : α → Checked β} (hx : Points S P x)
    (hf : ∀ a, P a → Points S Q (f a)) : Points S Q (x >>= f) := by
  cases x with
  | ok a => exact hf a hx
  | error d => exact hx

theorem Points.mapM {f : α → Checked β} {as : List α}
    (h : ∀ a ∈ as, Points S (fun _ => True) (f a)) : Points S (fun _ => True) (as.mapM f) := by
  induction as with
  | nil => trivial
  | cons a as ih =>
    rw [List.mapM_cons]
    refine (h a List.mem_cons_self).bind fun _ _ => ?_
    exact (ih fun c hc => h c (List.mem_cons_of_mem _ hc)).bind fun _ _ => trivial

end Checked

open Checked

/-- A refusal at a span of `S`, all of whose labels are there too. -/
theorem points_refuse {P : α → Prop} {span : Span} {problem : Problem} (hspan : S span)
    (hlabels : ∀ label ∈ problem.labels, S label.span) :
    Points S P (refuse span problem) := ⟨hspan, hlabels⟩

theorem points_refuse_plain {P : α → Prop} {span : Span} {problem : Problem} (hspan : S span)
    (hlabels : problem.labels = []) : Points S P (refuse span problem) :=
  points_refuse hspan (by simp [hlabels])

theorem points_refuse_labelled {P : α → Prop} {span : Span} {problem : Problem} {label : Label}
    (hspan : S span) (hlabels : problem.labels = [label]) (hlabel : S label.span) :
    Points S P (refuse span problem) :=
  points_refuse hspan (by simpa [hlabels] using hlabel)

/-- The spans at which a node may be refused, and the opening of a fragment that is closed. -/
structure Tree.Spanned (S : Span → Prop) (t : Tree) : Prop where
  span : S t.span
  opening : t.kind = .fragment → t.children ≠ [] →
    S (.ofOffsets t.span.start (t.span.start + 2))

namespace OfTree

/-! ## The rules of tags -/

theorem builtinOf_points {span : Span} {name : String} (hspan : S span) :
    Points S (fun _ => True) (builtinOf span name) := by
  unfold builtinOf
  split
  · trivial
  · exact points_refuse_plain hspan rfl

theorem lookup_span {κ : Type} [BEq κ] {key : κ} {first : Span} :
    ∀ {seen : List (κ × Span)}, (∀ entry ∈ seen, S entry.2) → seen.lookup key = some first →
      S first
  | [], _, h => by cases h
  | (other, span) :: seen, hseen, h => by
    rw [List.lookup_cons] at h
    split at h
    · cases h
      exact hseen _ List.mem_cons_self
    · exact lookup_span (fun entry hentry => hseen entry (List.mem_cons_of_mem _ hentry)) h

theorem checkAttributesFrom_points {kind : TagKind} :
    ∀ {attributes : List Attribute} {names : List (String × Span)}
      {builtins : List (Builtin × Span)}, (∀ a ∈ attributes, S a.span) →
      (∀ entry ∈ names, S entry.2) → (∀ entry ∈ builtins, S entry.2) →
      Points S (fun _ => True) (checkAttributesFrom kind names builtins attributes)
  | [], _, _, _, _, _ => trivial
  | a :: rest, names, builtins, ha, hnames, hbuiltins => by
    have hfirst := ha a List.mem_cons_self
    have hrest : ∀ b ∈ rest, S b.span := fun b hb => ha b (List.mem_cons_of_mem _ hb)
    unfold checkAttributesFrom
    split
    · split
      · next first hlookup =>
        exact points_refuse_labelled hfirst rfl (lookup_span hnames hlookup)
      · exact checkAttributesFrom_points hrest (List.forall_mem_cons.mpr ⟨hfirst, hnames⟩) hbuiltins
    · split
      · next first hlookup =>
        exact points_refuse_labelled hfirst rfl (lookup_span hbuiltins hlookup)
      · split
        · exact points_refuse_plain hfirst rfl
        · exact checkAttributesFrom_points hrest hnames
            (List.forall_mem_cons.mpr ⟨hfirst, hbuiltins⟩)
    · exact checkAttributesFrom_points hrest hnames hbuiltins

theorem checkChildren_points {tag : Tag} {children : List Node}
    (hattributes : ∀ a ∈ tag.attributes, S a.span) (hchildren : ∀ n ∈ children, S n.span) :
    Points S (fun _ => True) (checkChildren tag children) := by
  unfold checkChildren
  split
  · next declared content hdeclared hcontent =>
    exact points_refuse_labelled (hchildren _ (List.mem_of_find?_eq_some hcontent)) rfl
      (hattributes _ (List.mem_of_find?_eq_some hdeclared))
  · trivial

variable (source : Bytes)

theorem builtinValueOf_points {builtin : Builtin} {value : Tree} (hspan : S value.span) :
    Points S (fun _ => True) (builtinValueOf source builtin value) := by
  have hmode : ∀ text : String, Points S (fun _ => True)
      (if (decide (builtin = .escaping) && (Escaping.ofText? text).isNone) = true
        then refuse value.span (.unknownEscaping text) else pure text) := by
    intro text
    split
    · exact points_refuse_plain hspan rfl
    · trivial
  unfold builtinValueOf
  dsimp only
  split
  · exact hmode _
  · split
    · exact hmode _
    · exact points_refuse_plain hspan rfl
  · exact points_refuse_plain hspan rfl
  · exact points_refuse_plain hspan rfl

theorem builtinAttributeOf_points {span : Span} {name : String} {value? : Option Tree}
    (hspan : S span) (hvalue : ∀ value ∈ value?, S value.span) :
    Points S (fun a => S a.span) (builtinAttributeOf source span name value?) := by
  refine (builtinOf_points hspan).bind fun builtin _ => ?_
  cases value? with
  | none => exact points_refuse_plain hspan rfl
  | some value => exact (builtinValueOf_points source (hvalue value rfl)).bind fun _ _ => hspan

theorem builtinShorthandOf_points {span : Span} {name : String} (hspan : S span) :
    Points S (fun a => S a.span) (builtinShorthandOf span name) := by
  refine (builtinOf_points hspan).bind fun builtin _ => ?_
  split
  · exact points_refuse_plain hspan rfl
  · exact hspan

theorem checkFragmentEnd_points {span : Span} {children : List Tree} (hspan : S span)
    (hopening : children ≠ [] → S (.ofOffsets span.start (span.start + 2)))
    (hchildren : ∀ c ∈ children, S c.span) :
    Points S (fun _ => True) (checkFragmentEnd source span children) := by
  unfold checkFragmentEnd
  split
  · exact points_refuse_plain hspan rfl
  · next close hclose =>
    have hmem := List.mem_of_getLast? hclose
    split
    · exact points_refuse_labelled (hchildren close hmem) rfl (hopening (List.ne_nil_of_mem hmem))
    · trivial

theorem span_some (node : Node) (h : S node.span) : ∀ n ∈ some node, S n.span :=
  fun _ hn => Option.some.inj hn ▸ h

/-! ## Whole trees -/

mutual
theorem nodeOf?_points : ∀ {t : Tree}, t.Everywhere (Tree.Spanned S) →
    Points S (fun o => ∀ n ∈ o, S n.span) (nodeOf? source t)
  | ⟨kind, span, children, message⟩, hs => by
    have hchildren : ∀ c ∈ children, c.Everywhere (Tree.Spanned S) := fun c hc => hs.child hc
    have hspan : S span := hs.here.span
    unfold nodeOf?
    cases kind
    case element =>
      exact (elementOf_points hspan hchildren).bind fun node hnode => span_some node hnode
    case selfClosingElement =>
      exact (tagOf_points hspan hchildren).bind fun tag htag => span_some (.selfClosing tag) htag.1
    case fragment =>
      refine (checkFragmentEnd_points source hspan (hs.here.opening rfl)
        fun c hc => (hchildren c hc).here.span).bind fun _ _ => ?_
      exact (innerNodesOf_points hchildren).bind fun nodes _ =>
        span_some (.fragment span nodes) hspan
    case text => exact span_some (rawText source span) hspan
    case expressionBlock => exact bracedOf?_points hspan hchildren
    case comment => exact fun n hn => nomatch hn
    all_goals exact points_refuse_plain hspan rfl

theorem nodesOf_points : ∀ {ts : List Tree}, (∀ t ∈ ts, t.Everywhere (Tree.Spanned S)) →
    Points S (fun nodes => ∀ n ∈ nodes, S n.span) (nodesOf source ts)
  | [], _ => fun n hn => nomatch hn
  | t :: ts, hs => by
    unfold nodesOf
    refine (nodeOf?_points (hs t List.mem_cons_self)).bind fun o ho => ?_
    refine (nodesOf_points fun u hu => hs u (List.mem_cons_of_mem _ hu)).bind fun nodes hnodes => ?_
    refine List.forall_mem_append.mpr ⟨fun n hn => ho n (by simpa using hn), hnodes⟩

theorem innerNodesOf_points : ∀ {ts : List Tree}, (∀ t ∈ ts, t.Everywhere (Tree.Spanned S)) →
    Points S (fun nodes => ∀ n ∈ nodes, S n.span) (innerNodesOf source ts)
  | [], _ => fun n hn => nomatch hn
  | [_], _ => fun n hn => nomatch hn
  | t :: u :: ts, hs => by
    unfold innerNodesOf
    refine (nodeOf?_points (hs t List.mem_cons_self)).bind fun o ho => ?_
    refine (innerNodesOf_points fun v hv => hs v (List.mem_cons_of_mem _ hv)).bind
      fun nodes hnodes => ?_
    exact List.forall_mem_append.mpr ⟨fun n hn => ho n (by simpa using hn), hnodes⟩

theorem bracedOf?_points : ∀ {span : Span} {ts : List Tree}, S span →
    (∀ t ∈ ts, t.Everywhere (Tree.Spanned S)) →
    Points S (fun o => ∀ n ∈ o, S n.span) (bracedOf? source span ts)
  | _, [], _, _ => fun n hn => nomatch hn
  | span, ⟨kind, inner, children, message⟩ :: _, hspan, hs => by
    have hinner := hs _ List.mem_cons_self
    have hchildren : ∀ c ∈ children, c.Everywhere (Tree.Spanned S) := fun c hc => hinner.child hc
    unfold bracedOf?
    split
    · exact span_some (.expr span _ _) hspan
    · exact (rootOf_points hinner.here.span hchildren).bind fun node hnode => span_some node hnode
    · exact points_refuse_plain hinner.here.span rfl
    · split
      · exact (branchesOf_points hchildren).bind fun _ _ =>
          span_some (.flow inner _ _ _ _) hinner.here.span
      · exact points_refuse_plain hinner.here.span rfl

theorem rootOf_points : ∀ {span : Span} {ts : List Tree}, S span →
    (∀ t ∈ ts, t.Everywhere (Tree.Spanned S)) →
    Points S (fun n => S n.span) (rootOf source span ts)
  | _, [], hspan, _ => points_refuse_plain hspan rfl
  | span, t :: ts, hspan, hs => by
    have hrest : ∀ u ∈ ts, u.Everywhere (Tree.Spanned S) :=
      fun u hu => hs u (List.mem_cons_of_mem _ hu)
    unfold rootOf
    split
    · exact rootOf_points hspan hrest
    · split
      · next extra hextra =>
        exact points_refuse_labelled (hrest _ (List.mem_of_find?_eq_some hextra)).here.span rfl
          (hs t List.mem_cons_self).here.span
      · refine (nodeOf?_points (hs t List.mem_cons_self)).bind fun o ho => ?_
        cases o with
        | none => exact points_refuse_plain hspan rfl
        | some node => exact ho node rfl

theorem elementOf_points : ∀ {span : Span} {ts : List Tree}, S span →
    (∀ t ∈ ts, t.Everywhere (Tree.Spanned S)) →
    Points S (fun n => S n.span) (elementOf source span ts)
  | _, [], hspan, _ => points_refuse_plain hspan rfl
  | span, ⟨kind, startSpan, parts, message⟩ :: rest, hspan, hs => by
    have hstart := hs _ List.mem_cons_self
    have hparts : ∀ p ∈ parts, p.Everywhere (Tree.Spanned S) := fun p hp => hstart.child hp
    have hrest : ∀ u ∈ rest, u.Everywhere (Tree.Spanned S) :=
      fun u hu => hs u (List.mem_cons_of_mem _ hu)
    unfold elementOf
    refine (tagOf_points hspan hparts).bind fun tag htag => ?_
    dsimp only
    split
    · refine points_refuse_labelled ?_ rfl ?_
      · cases hlast : rest.getLast? with
        | none =>
          rw [List.getLastD_eq_getLast?, hlast]
          exact hstart.here.span
        | some close =>
          rw [List.getLastD_eq_getLast?, hlast]
          exact (hrest close (List.mem_of_getLast? hlast)).here.span
      · cases hname : parts.find? (·.kind == .tagName) with
        | none => exact hstart.here.span
        | some name => exact (hparts name (List.mem_of_find?_eq_some hname)).here.span
    · refine (innerNodesOf_points hrest).bind fun children hchildren => ?_
      split
      · exact (checkChildren_points htag.2 hchildren).bind fun _ _ => htag.1
      · exact htag.1

theorem tagOf_points : ∀ {span : Span} {ts : List Tree}, S span →
    (∀ t ∈ ts, t.Everywhere (Tree.Spanned S)) →
    Points S (fun tag => S tag.span ∧ ∀ a ∈ tag.attributes, S a.span) (tagOf source span ts)
  | _, [], hspan, _ => points_refuse_plain hspan rfl
  | span, name :: rest, hspan, hs => by
    unfold tagOf
    refine (attributesOf_points fun u hu => hs u (List.mem_cons_of_mem _ hu)).bind
      fun attributes hattributes => ?_
    refine (checkAttributesFrom_points hattributes (by simp) (by simp)).bind fun _ _ => ?_
    exact ⟨hspan, hattributes⟩

theorem attributesOf_points : ∀ {ts : List Tree}, (∀ t ∈ ts, t.Everywhere (Tree.Spanned S)) →
    Points S (fun attributes => ∀ a ∈ attributes, S a.span) (attributesOf source ts)
  | [], _ => fun a ha => nomatch ha
  | t :: ts, hs => by
    unfold attributesOf
    refine (attributeOf_points (hs t List.mem_cons_self)).bind fun a ha => ?_
    refine (attributesOf_points fun u hu => hs u (List.mem_cons_of_mem _ hu)).bind
      fun rest hrest => ?_
    exact List.forall_mem_cons.mpr ⟨ha, hrest⟩

theorem attributeOf_points : ∀ {t : Tree}, t.Everywhere (Tree.Spanned S) →
    Points S (fun a => S a.span) (attributeOf source t)
  | ⟨kind, span, children, message⟩, hs => by
    have hchildren : ∀ c ∈ children, c.Everywhere (Tree.Spanned S) := fun c hc => hs.child hc
    have hspan : S span := hs.here.span
    unfold attributeOf
    cases kind
    case staticAttribute => exact staticOf_points hspan hchildren
    case builtinAttribute =>
      exact builtinAttributeOf_points source hspan fun value hvalue =>
        (hchildren value (List.mem_of_getElem? hvalue)).here.span
    case builtinShorthandAttribute => exact builtinShorthandOf_points hspan
    case shorthandAttribute => exact hspan
    case spreadAttribute => exact hspan
    all_goals exact points_refuse_plain hspan rfl

theorem staticOf_points : ∀ {span : Span} {name : String} {ts : List Tree}, S span →
    (∀ t ∈ ts, t.Everywhere (Tree.Spanned S)) →
    Points S (fun a => S a.span) (staticOf source span name ts)
  | _, _, [], hspan, _ => hspan
  | _, _, [_], hspan, _ => hspan
  | span, name, _ :: ⟨kind, valueSpan, children, message⟩ :: _, hspan, hs => by
    have hvalue := hs _ (List.mem_cons_of_mem _ List.mem_cons_self)
    have hvalueSpan : S valueSpan := hvalue.here.span
    unfold staticOf
    cases kind
    case stringValue => exact hspan
    case templateString => exact hspan
    case exprValue =>
      refine (bracedOf?_points hvalueSpan fun c hc => hvalue.child hc).bind fun o _ => ?_
      cases o with
      | none => exact points_refuse_plain hvalueSpan rfl
      | some node => exact hspan
    all_goals exact points_refuse_plain hvalueSpan rfl

theorem branchesOf_points : ∀ {ts : List Tree}, (∀ t ∈ ts, t.Everywhere (Tree.Spanned S)) →
    Points S (fun _ => True) (branchesOf source ts)
  | [], _ => trivial
  | ⟨kind, span, parts, message⟩ :: ts, hs => by
    have hbranch := hs _ List.mem_cons_self
    have hrest : ∀ t ∈ ts, t.Everywhere (Tree.Spanned S) :=
      fun u hu => hs u (List.mem_cons_of_mem _ hu)
    unfold branchesOf
    split
    · refine (bodyOf_points hbranch.here.span fun p hp => hbranch.child hp).bind fun _ _ => ?_
      exact (branchesOf_points hrest).bind fun _ _ => trivial
    · exact branchesOf_points hrest

theorem bodyOf_points : ∀ {span : Span} {ts : List Tree}, S span →
    (∀ t ∈ ts, t.Everywhere (Tree.Spanned S)) →
    Points S (fun _ => True) (bodyOf source span ts)
  | _, [], hspan, _ => points_refuse_plain hspan rfl
  | span, ⟨kind, bodySpan, children, message⟩ :: parts, hspan, hs => by
    have hbody := hs _ List.mem_cons_self
    unfold bodyOf
    split
    · have hlist : Points S (fun _ => True) (do return Body.list (← nodesOf source children)) :=
        (nodesOf_points fun c hc => hbody.child hc).bind fun _ _ => trivial
      -- Only a template root alone is a body of one node.
      match children, hbody, hlist with
      | [], _, hlist => exact hlist
      | [⟨kind, rootSpan, items, _⟩], hbody, hlist =>
        have hroot := hbody.child List.mem_cons_self
        split
        · next heq =>
          cases heq
          exact (rootOf_points hroot.here.span fun c hc => hroot.child hc).bind fun _ _ => trivial
        · exact hlist
      | _ :: _ :: _, _, hlist =>
        split
        · next heq => cases heq
        · exact hlist
    · exact bodyOf_points hspan fun p hp => hs p (List.mem_cons_of_mem _ hp)
end

end OfTree

/-! ## Whole files -/

/-- A node of a tree without errors. What stands behind the opening of a fragment is its first
child, so the opening ends at a boundary. -/
theorem Tree.Sited.spanned {source : Bytes} {t : Tree} (hsize : source.length < 0x100000000)
    (h : Sited source t) (hlaid : Laid source t) (hchildren : ∀ c ∈ t.children, Sited source c) :
    Spanned (Span.Cuts source) t := by
  refine ⟨h.cuts, fun hkind hne => ?_⟩
  obtain ⟨first, rest, hfirst⟩ := List.exists_cons_of_ne_nil hne
  have hcovered := hlaid.covered
  rw [Covered, hkind, hfirst] at hcovered
  have hopen : first.span.start = t.span.start + 2 := hcovered.1
  have hstop := (hchildren first (by simp [hfirst])).cuts.start
  rw [hopen] at hstop
  have hle := hstop.le
  have hopening : Span.ofOffsets t.span.start (t.span.start + 2) =
      ⟨t.span.start, t.span.start + 2⟩ := by
    rw [Span.ofOffsets, Nat.mod_eq_of_lt (by omega), Nat.mod_eq_of_lt (by omega)]
  rw [hopening]
  exact ⟨Nat.le_add_right _ _, h.cuts.start, hstop⟩

theorem Tree.everywhere_spanned {source : Bytes} (hsize : source.length < 0x100000000) (t : Tree) :
    t.Everywhere (Sited source) → t.Everywhere (Laid source) →
      t.Everywhere (Spanned (Span.Cuts source)) := by
  induction t using induction_on_children with
  | h t ih =>
    intro hsited hlaid
    refine everywhere_iff.mpr ⟨?_, fun c hc => ih c hc (hsited.child hc) (hlaid.child hc)⟩
    exact hsited.here.spanned hsize hlaid.here fun c hc => (hsited.child hc).here

theorem templatesOf_points {source : Bytes} (h : IsText source) (hsize : source.length < 0x100000000) :
    Points (Span.Cuts source) (fun _ => True) (templatesOf source (parse source)) := by
  have hsited := parse_sited h
  unfold templatesOf
  split
  · next error others herrors =>
    have hmem : error ∈ (parse source).errors := herrors ▸ List.mem_cons_self
    have hpreorder := (List.mem_filter.mp (List.mem_mergeSort.mp hmem)).1
    exact points_refuse_plain (hsited error hpreorder).cuts rfl
  · next herrors =>
    have hlaid := parse_laid h (Tree.clean_of_errors herrors)
    have hspanned := Tree.everywhere_spanned hsize (parse source) hsited hlaid
    refine Points.mapM fun root hroot => ?_
    have hchild := hspanned.child (List.mem_filter.mp hroot).1
    exact (OfTree.rootOf_points source hchild.here.span fun c hc => hchild.child hc).bind
      fun _ _ => trivial

/-- A span that lies in a source, between characters. -/
structure Span.PointsInto (source : Bytes) (span : Span) : Prop where
  le : span.start ≤ span.stop
  within : span.stop ≤ source.length
  start : isBoundary source span.start = true
  stop : isBoundary source span.stop = true

theorem Span.Cuts.pointsInto {source : Bytes} {span : Span} (h : span.Cuts source) :
    span.PointsInto source := ⟨h.le, h.stop.le, h.start.isBoundary, h.stop.isBoundary⟩

/-- A failure to compile is what reading the templates refused, with its place. -/
theorem exists_refusal_of_compile {options : Options} {text : String} {d : Diagnostic}
    (h : compile options text = .error d) :
    ∃ refusal, templatesOf (utf8 text) (parse (utf8 text)) = .error refusal ∧
      d = refusal.locate options.filename (utf8 text) := by
  unfold compile at h
  dsimp only at h
  split at h
  · cases h
  · next refusal hgenerate =>
    cases h
    refine ⟨refusal, ?_, rfl⟩
    unfold generate at hgenerate
    cases htemplates : templatesOf (utf8 text) (parse (utf8 text)) with
    | error first =>
      rw [htemplates] at hgenerate
      exact congrArg Except.error (Except.error.inj hgenerate)
    | ok templates =>
      rw [htemplates] at hgenerate
      change (if _ then _ else _) = _ at hgenerate
      split at hgenerate <;> cases hgenerate

/-- A diagnostic and its labels point into the source, and its place is where it begins, as a
reader counts lines and columns. -/
theorem compile_error_points (text : String) (hsize : (utf8 text).length < 0x100000000) :
    (∀ (options : Options) (d : Diagnostic), compile options text = .error d →
      d.span.PointsInto (utf8 text) ∧ (∀ label ∈ d.labels, label.span.PointsInto (utf8 text)) ∧
        ∃ place, d.location = some place ∧ place.file = options.filename ∧
          PlacedAt (utf8 text) d.span.start place.line place.column) ∧
    ∀ offset, PlacedAt (utf8 text) (min offset (utf8 text).length)
      ((LineIndex.ofBytes (utf8 text)).lineCol (utf8 text) offset).1
      ((LineIndex.ofBytes (utf8 text)).lineCol (utf8 text) offset).2 := by
  have htext : IsText (utf8 text) := ⟨text, rfl⟩
  have hplaced := LineIndex.placedAt_lineCol htext
  refine ⟨fun options d h => ?_, hplaced⟩
  obtain ⟨refusal, hrefusal, rfl⟩ := exists_refusal_of_compile h
  have hpoints := templatesOf_points htext hsize
  rw [hrefusal] at hpoints
  have hspan : refusal.span.Cuts (utf8 text) := hpoints.span
  refine ⟨hspan.pointsInto, fun label hlabel => (hpoints.labels label hlabel).pointsInto, ?_⟩
  refine ⟨_, rfl, rfl, ?_⟩
  have hstart := hplaced refusal.span.start
  rwa [Nat.min_eq_left hspan.start.le] at hstart

instance decidableEqChecked [DecidableEq α] : DecidableEq (Checked α)
  | .ok a, .ok b => decidable_of_iff (a = b) ⟨congrArg _, Except.ok.inj⟩
  | .error d, .error e => decidable_of_iff (d = e) ⟨congrArg _, Except.error.inj⟩
  | .ok _, .error _ => isFalse (by simp)
  | .error _, .ok _ => isFalse (by simp)

/-- A fragment closed by a name, with characters of more than one byte before it and in it. -/
def misclosedSource : String := "ä\n(<>é</b>)"

def misclosed : Diagnostic where
  errorClass := .malformed
  span := ⟨8, 12⟩
  message := "closing tag `</b>` does not match `<>`"
  labels := [⟨⟨4, 6⟩, "opened here"⟩]
  location := some ⟨"input.zx", 2, 5⟩

theorem compile_error_points_misclosed : (utf8 misclosedSource).length < 0x100000000 ∧
    compile {} misclosedSource = .error misclosed ∧
    Span.PointsInto (utf8 misclosedSource) ⟨8, 12⟩ ∧
    Span.PointsInto (utf8 misclosedSource) ⟨4, 6⟩ ∧ PlacedAt (utf8 misclosedSource) 8 2 5 := by
  have hsize : (utf8 misclosedSource).length < 0x100000000 := by decide
  have hrun : compile {} misclosedSource = .error misclosed := by decide +kernel
  obtain ⟨hspan, hlabels, place, hplace, _, hplaced⟩ :=
    (compile_error_points misclosedSource hsize).1 {} misclosed hrun
  obtain rfl := Option.some.inj hplace
  exact ⟨hsize, hrun, hspan, hlabels _ List.mem_cons_self, hplaced⟩

end ZigMarkup
