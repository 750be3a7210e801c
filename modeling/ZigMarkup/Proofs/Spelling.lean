import ZigMarkup.Proofs.ParseShape
import ZigMarkup.Proofs.Positions

/-!
What the spans of a syntax tree hold. Host code goes up to the next template root, names are
words of the source, string values are whole string literals, and a template root that could be
read stands in its parentheses. Host code inside of templates is cut out without the blanks around
it, and something is left of it, braces apart. The parts of a file lie side by side and cover the
source from its beginning to its end.
-/
namespace ZigMarkup

/-- One string literal of host code, from quote to quote. -/
def IsString (bytes : Bytes) : Prop :=
  bytes.head? = some (ascii '"') ∧ quotedToken (ascii '"') bytes = ⟨bytes.length, true⟩

/-- Bytes between a pair of parentheses. -/
def InParens (bytes : Bytes) : Prop := ∃ inner, bytes = ascii '(' :: inner ++ [ascii ')']

/-- A quoted token that is closed is the same whatever follows it. -/
theorem quotedTail_take_append {quote : UInt8} {text : Bytes}
    (h : (quotedTail quote text).closed) (after : Bytes) :
    quotedTail quote (text.take (quotedTail quote text).length ++ after) =
      quotedTail quote text := by
  fun_induction quotedTail quote text with
  | case1 => cases h
  | case2 => cases h
  | case3 taken rest tail ih =>
    simp only [List.take_succ_cons, List.cons_append, quotedTail, if_true]
    rw [ih h]
  | case4 rest _ =>
    rw [quotedTail.eq_def]
    simp [*]
  | case5 => cases h
  | case6 b rest hslash hquote hline tail ih =>
    rw [quotedTail.eq_def]
    simp only [List.take_succ_cons, List.cons_append, hslash, hquote, hline, if_false]
    rw [ih h]

namespace Tree

/-- What the source holds in the span of a node. -/
def Spelled (source : Bytes) (t : Tree) : Prop :=
  match t.kind with
  | .hostText => nextTemplate? (source.drop t.span.start) =
      if t.span.stop < source.length then some t.span.length else none
  | .tagName => ScanM.WordAt source isNameByte t.span
  | .shorthandAttribute => ∃ name, t.children = [.leaf .attrName name] ∧
      ScanM.WordAt source isIdentByte name
  | .stringValue => IsString (t.span.slice source)
  | .templateRoot => (∃ e ∈ t.children, e.kind = .error) ∨ InParens (t.span.slice source)
  | _ => True

/-- Host code between two offsets, without the blanks at both ends, of which something is left. -/
structure Solid (source : Bytes) (code : Span) : Prop where
  nonempty : code.isEmpty = false
  cut : ∃ start stop, stop ≤ source.length ∧ code = Parser.trimmed ⟨start, source.drop start⟩ stop

/-- Host code between two braces in which the scanner found something else than blanks, without
the blanks at both ends. -/
structure InBraces (source : Bytes) (braces code : Span) : Prop where
  opener : source[braces.start]? = some (ascii '\x7b')
  inside : (Cursor.mk (braces.start + 1) (source.drop (braces.start + 1))).skipBlanks.startsWith
    "\x7d" = false
  group : ∃ next, ScanM.group ⟨braces.start, source.drop braces.start⟩ = .ok () next ∧
    next.pos = braces.stop
  cut : code = Parser.trimmed ⟨braces.start + 1, source.drop (braces.start + 1)⟩ (braces.stop - 1)

/-- How the host code of a node, or right below it, is cut out of the source. -/
def Filled (source : Bytes) (t : Tree) : Prop :=
  match t.kind with
  | .header => (t.span.slice source).head? = some (ascii '(')
  | .expressionBlock => ∀ code ∈ t.children, code.kind = .hostExpr →
      InBraces source t.span code.span
  | .exprValue => ∀ code ∈ t.children, code.kind = .hostExpr → InBraces source t.span code.span ∨
      (code.span.slice source).head? = some (ascii '.')
  | .spreadAttribute | .templateString => ∀ code ∈ t.children, code.kind = .hostExpr →
      Solid source code.span
  | .pattern => Solid source t.span
  | _ => True

/-- What the source holds for a node, and how its host code is cut out. -/
structure Noted (source : Bytes) (t : Tree) : Prop where
  spelled : Spelled source t
  filled : Filled source t

/-- Trees that lie side by side from one offset to another, none of them empty. -/
def Tiles (stop : Nat) : Nat → List Tree → Prop
  | start, [] => start = stop
  | start, t :: ts => t.span.start = start ∧ start < t.span.stop ∧ Tiles stop t.span.stop ts

end Tree

namespace Parser

open ScanM Tree

variable {source : Bytes} {start : Nat} {c next : Cursor} {t : Tree}

/-- Every node of a tree holds what its kind asks. -/
abbrev Spells (source : Bytes) : Tree → Prop := Everywhere (Noted source)

theorem spells_node {kind : Kind} {span : Span} {children : List Tree}
    (h : Noted source (.node kind span children)) (hall : ∀ c ∈ children, Spells source c) :
    Spells source (.node kind span children) := everywhere_iff.mpr ⟨h, hall⟩

theorem spells_error (span : Span) (message : String) : Spells source (.error span message) :=
  everywhere_iff.mpr ⟨⟨trivial, trivial⟩, by simp [Tree.error]⟩

theorem follows_leafFrom {kind : Kind} (h : ∀ span, Noted source (.leaf kind span)) :
    Follows source start (leafFrom kind c) (Spells source) :=
  .get fun _ _ => .pure (everywhere_leaf (h _))

theorem follows_nodeFrom {kind : Kind} {children : List Tree}
    (h : ∀ span, Noted source (.node kind span children))
    (hall : ∀ t ∈ children, Spells source t) :
    Follows source start (nodeFrom kind c children) (Spells source) :=
  .get fun _ _ => .pure (spells_node (h _) hall)

theorem follows_some {p : ScanM Tree} (h : Follows source start p (Spells source)) :
    Follows source start (p >>= fun t => pure (some t)) fun o => ∀ t ∈ o, Spells source t :=
  h.bind fun t ht => .pure (by simpa using ht)

/-- What is left after trimming begins before the end and does not go beyond it. -/
theorem trimmed_bounds {c : Cursor} {stop : Nat} (h : (trimmed c stop).isEmpty = false) :
    c.pos < stop ∧ c.pos ≤ (trimmed c stop).start ∧ (trimmed c stop).stop ≤ stop := by
  unfold trimmed at h ⊢
  dsimp only at h ⊢
  split at h
  · simp [Span.isEmpty, Span.point] at h
  · next hcs =>
    rw [if_neg hcs]
    refine ⟨Nat.lt_of_not_le fun hle => hcs ?_, Nat.le_add_right _ _, Nat.sub_le _ _⟩
    rw [Nat.sub_eq_zero_of_le hle, List.take_zero]
    decide

theorem solid_trimmed (hc : c.On source) (count : Nat) {stop : Nat} (hstop : stop ≤ source.length)
    (h : (trimmed (c.skip count) stop).isEmpty = false) :
    Solid source (trimmed (c.skip count) stop) :=
  ⟨h, _, stop, hstop, by rw [hc.skip_eq]⟩

theorem indexOf?_le {needle text : Bytes} {found : Nat} (h : indexOf? needle text = some found) :
    found + needle.length ≤ text.length := by
  fun_induction indexOf? needle text generalizing found with
  | case1 hempty =>
    cases h
    simp_all
  | case2 => cases h
  | case3 b rest hprefix =>
    cases h
    simpa using List.IsPrefix.length_le (List.isPrefixOf_iff_prefix.mp hprefix)
  | case4 b rest _ ih =>
    obtain ⟨found, hfound, rfl⟩ := Option.map_eq_some_iff.mp h
    have := ih hfound
    rw [List.length_cons]
    omega

theorem follows_comment : Follows source start comment (Spells source) := by
  refine Follows.get fun c hc => ?_
  split
  · next inner hinner =>
    have hle := indexOf?_le hinner
    have hneedle : (utf8 "-->").length = 3 := by decide
    rw [hneedle, List.length_drop] at hle
    exact .set (hc.skip (by omega)) (follows_leafFrom fun _ => ⟨trivial, trivial⟩)
  · exact follows_fail _ _

theorem follows_endTag : Follows source start endTag (Spells source) := by
  refine Follows.get fun c _ => (follows_expect _ _).bind fun _ _ => .skipBlanks ?_
  refine follows_name.bind fun name hname => .skipBlanks ((follows_expect _ _).bind fun _ _ => ?_)
  refine follows_nodeFrom (fun _ => ⟨trivial, trivial⟩) fun t ht => ?_
  obtain ⟨span, hspan, rfl⟩ := List.mem_map.mp ht
  exact everywhere_leaf ⟨hname span (Option.mem_toList.mp hspan), trivial⟩

theorem follows_strayEndTag {α : Type} {P : α → Prop} :
    Follows source start (strayEndTag : ScanM α) P :=
  .get fun _ _ => follows_endTag.bind fun _ _ => .get fun _ _ => follows_fail _ _

theorem follows_text : Follows source start text (Spells source) :=
  .get fun _ hc => .set (hc.skipWhile _) (follows_leafFrom fun _ => ⟨trivial, trivial⟩)

theorem follows_parens (what : Wanted) : Follows source start (parens what) fun _ => True :=
  .get fun _ _ => .ite (fun _ => follows_group) fun _ => follows_expected _

/-- What the productions one level further in are known to give. -/
structure SpellsNested (source : Bytes) (g : Nested) : Prop where
  tag : ∀ start, Follows source start g.tag (Spells source)
  braces : ∀ {kind start c t next}, kind = .expressionBlock ∨ kind = .exprValue →
    c.From source start → c.peek = some (ascii '\x7b') → g.braces kind c = .ok t next →
    next.From source start ∧ Spells source t

/-! ## Attributes -/

theorem follows_templatePiece (opening : Cursor) :
    Follows source start (templatePiece opening) fun o => ∀ p ∈ o, Spells source p.1 ∧
      (p.1.kind = .hostExpr → p.2 = none → Solid source p.1.span) := by
  refine Follows.get fun c hc => ?_
  split
  · exact follows_fail _ _
  · refine Follows.ite (fun _ => .pure (by simp)) fun _ => .ite (fun _ => ?_) fun _ => ?_
    · refine follows_group.bind fun _ _ => .get fun next hnext => .pure ?_
      rintro p ⟨rfl⟩
      refine ⟨everywhere_leaf ⟨trivial, trivial⟩, fun _ hnone => ?_⟩
      refine solid_trimmed hc.toOn 1 (Nat.le_trans (Nat.sub_le _ _) hnext.le) ?_
      cases hempty : (trimmed (c.skip 1) (next.pos - 1)).isEmpty with
      | false => rfl
      | true => simp [hempty] at hnone
    · have hleaf : Follows source start (leafFrom .templateText c) fun t =>
          Spells source t ∧ t.kind = .templateText :=
        .get fun _ _ => .pure ⟨everywhere_leaf ⟨trivial, trivial⟩, rfl⟩
      refine Follows.set (hc.skipWhile _) (hleaf.bind fun piece hpiece => .pure ?_)
      rintro p ⟨rfl⟩
      exact ⟨hpiece.1, by simp [hpiece.2]⟩

theorem follows_templateString : Follows source start templateString (Spells source) := by
  refine Follows.get fun c hc => .set hc.bump ?_
  refine (follows_many (follows_templatePiece c)).bind fun pieces hpieces => ?_
  refine Follows.modify (fun _ hc => hc.bump) ?_
  split
  · exact follows_fail _ _
  · next hnone =>
    refine follows_nodeFrom (fun _ => ⟨trivial, fun t ht hkind => ?_⟩) fun t ht => ?_
    · obtain ⟨p, hp, rfl⟩ := List.mem_map.mp ht
      exact (hpieces p hp).2 hkind (List.findSome?_eq_none_iff.mp hnone p hp)
    · obtain ⟨p, hp, rfl⟩ := List.mem_map.mp ht
      exact (hpieces p hp).1

/-- A string literal that was read is cut out of the source as a whole. -/
theorem follows_stringValue (hc : c.From source start) (hquote : c.peek = some (ascii '"'))
    {u : Unit} (h : ScanM.string c = .ok u next) :
    next.From source start ∧ IsString (Span.slice (next.spanFrom c.pos) source) := by
  have hfrom := (follows_string c u next hc h).1
  unfold ScanM.string ScanM.read stringLength at h
  dsimp only at h
  split at h
  · next length hlength =>
    split at hlength
    · next hclosed =>
      cases hlength
      cases h
      refine ⟨hfrom, ?_⟩
      obtain ⟨rest, hrest⟩ : ∃ rest, c.rest = ascii '"' :: rest := by
        cases hrest : c.rest with
        | nil => simp [Cursor.peek, hrest] at hquote
        | cons b rest => exact ⟨rest, by simpa [Cursor.peek, hrest] using hquote⟩
      rw [hrest] at hclosed
      have htail := quotedTail_take_append hclosed []
      have hlength := quotedTail_within (ascii '"') rest
      rw [List.append_nil] at htail
      have hcut : Span.slice ((c.skip (quotedToken (ascii '"') c.rest).length).spanFrom c.pos)
          source = ascii '"' :: rest.take (quotedTail (ascii '"') rest).length := by
        rw [Cursor.spanFrom, hc.slice]
        simp only [Cursor.skip, Nat.add_sub_cancel_left, hrest, quotedToken, List.take_succ_cons]
      rw [hcut]
      refine ⟨rfl, ?_⟩
      simp only [quotedToken, htail, List.length_cons, List.length_take, Nat.min_eq_left hlength]
      rw [show (quotedTail (ascii '"') rest).closed = true from hclosed]
    · cases hlength
  · cases h

theorem follows_dottedName (hc : c.From source start) (hdot : c.peek = some (ascii '.')) :
    Follows source start (do
      set ((c.skip 1).skipWhile isIdentByte)
      let span := (← get).spanFrom c.pos
      return Tree.node .exprValue span [.leaf .hostExpr span]) (Spells source) := by
  have hone : 1 ≤ c.rest.length := by
    cases hrest : c.rest with
    | nil => simp [Cursor.peek, hrest] at hdot
    | cons b rest => simp
  have hbehind : (c.skip 1).From source (c.pos + 1) :=
    ⟨(hc.skip hone).toOn, Nat.le_refl _⟩
  intro c' t next hc' h
  cases h
  have hnext := hbehind.skipWhile isIdentByte
  refine ⟨hnext.weaken (Nat.le_succ_of_le hc.start_le), ?_⟩
  refine spells_node ⟨trivial, ?_⟩ (by simpa using everywhere_leaf ⟨trivial, trivial⟩)
  intro code hcode _
  rw [List.mem_singleton.mp hcode]
  exact .inr ((hc.head?_slice hnext.start_le).trans hdot)

theorem follows_attributeValue {g : Nested} (hg : SpellsNested source g) :
    Follows source start (attributeValue g) (Spells source) := by
  intro c t next hc h
  obtain ⟨_, _, hget, h⟩ := ok_of_bind h
  cases hget
  by_cases hquote : c.peek = some (ascii '"')
  · rw [if_pos hquote] at h
    obtain ⟨_, mid, hstring, h⟩ := ok_of_bind h
    obtain ⟨hmid, hspelled⟩ := follows_stringValue hc hquote hstring
    cases h
    exact ⟨hmid, everywhere_leaf ⟨hspelled, trivial⟩⟩
  rw [if_neg hquote] at h
  by_cases hbrace : c.peek = some (ascii '\x7b')
  · rw [if_pos hbrace] at h
    exact hg.braces (.inr rfl) hc hbrace h
  · rw [if_neg hbrace] at h
    refine (?_ : Follows source start _ (Spells source)) c t next hc h
    refine Follows.ite (fun _ => follows_templateString) fun _ => .ite (fun hdot => ?_)
      fun _ => follows_expected _
    simp only [Bool.and_eq_true, decide_eq_true_eq] at hdot
    exact follows_dottedName hc hdot.1

theorem follows_attributeValue? {g : Nested} (hg : SpellsNested source g) :
    Follows source start (attributeValue? g) fun o => ∀ t ∈ o, Spells source t := by
  refine Follows.get fun before hbefore => .skipBlanks ((follows_eat _).bind fun found _ => ?_)
  refine Follows.ite (fun _ => .skipBlanks ?_) fun _ => .set hbefore (.pure (by simp))
  exact follows_some (follows_attributeValue hg)

theorem follows_spread (hc : c.From source start) :
    Follows source start (spread c) (Spells source) := by
  refine Follows.set hc (follows_group.bind fun _ _ => .get fun next hnext => ?_)
  refine Follows.ite (fun _ => follows_fail _ _) fun hne => follows_nodeFrom (fun _ => ?_) ?_
  · refine ⟨trivial, fun code hcode _ => ?_⟩
    rw [List.mem_singleton.mp hcode]
    obtain ⟨whole, hwhole⟩ : ∃ whole, whole = trimmed (c.skip 1) (next.pos - 1) := ⟨_, rfl⟩
    rw [← hwhole] at hne ⊢
    have hsome := Bool.eq_false_iff.mpr hne
    -- Something is left behind the two dots, so they are not all that was left.
    have hlt : c.pos + (whole.start + 2 - c.pos) < whole.stop := (trimmed_bounds hsome).1
    have hsolid : whole.isEmpty = false := decide_eq_false (by omega)
    have hstop := (trimmed_bounds (hwhole ▸ hsolid)).2.2
    rw [← hwhole] at hstop
    have hend := hnext.le
    exact solid_trimmed hc.toOn _ (by omega) hsome
  · simpa using everywhere_leaf ⟨trivial, trivial⟩

theorem follows_bracedAttribute : Follows source start bracedAttribute (Spells source) := by
  refine Follows.get fun c hc => .set hc.bump (.skipBlanks ((follows_eat _).bind fun _ _ => ?_))
  refine Follows.ite (fun _ => follows_spread hc) fun _ => (follows_eat _).bind fun at? _ => ?_
  refine follows_ident.bind fun name? hname => ?_
  split
  · exact follows_expected _
  · next name =>
    refine .skipBlanks ((follows_expect _ _).bind fun _ _ => follows_nodeFrom (fun _ => ?_) ?_)
    · cases at? with
      | true => exact ⟨trivial, trivial⟩
      | false => exact ⟨⟨name, rfl, hname name rfl⟩, trivial⟩
    · simpa using everywhere_leaf ⟨trivial, trivial⟩

theorem follows_attr {g : Nested} (hg : SpellsNested source g) :
    Follows source start (attr g) (Spells source) := by
  have hparts : ∀ (name : Span) (value : Option Tree), (∀ t ∈ value, Spells source t) →
      ∀ t ∈ Tree.leaf .attrName name :: value.toList, Spells source t := by
    intro name value hvalue t ht
    rcases List.mem_cons.mp ht with rfl | ht
    · exact everywhere_leaf ⟨trivial, trivial⟩
    · exact hvalue t (Option.mem_toList.mp ht)
  refine Follows.get fun c hc => ?_
  split
  · exact follows_fail _ _
  · refine Follows.ite (fun _ => .set hc.bump (follows_ident.bind fun name? _ => ?_)) fun _ =>
      .ite (fun _ => follows_bracedAttribute) fun _ => follows_name.bind fun name? _ => ?_
    · split
      · exact follows_expected _
      · exact (follows_attributeValue? hg).bind fun value hvalue =>
          follows_nodeFrom (fun _ => ⟨trivial, trivial⟩) (hparts _ value hvalue)
    · split
      · exact (follows_attributeValue? hg).bind fun value hvalue =>
          follows_nodeFrom (fun _ => ⟨trivial, trivial⟩) (hparts _ value hvalue)
      · exact follows_fail _ _

theorem follows_attrOrError {g : Nested} (hg : SpellsNested source g) :
    Follows source start (attrOrError g) (Spells source) := by
  intro c t next hc h
  unfold attrOrError at h
  split at h
  · next hok =>
    cases h
    exact follows_attr hg c _ _ hc hok
  · cases h
    exact ⟨(hc.advance _).skip (attributeRest_le _), spells_error _ _⟩

/-! ## Control flow -/

theorem follows_continueClause (hc : c.From source start) :
    Follows source start (continueClause c) fun next => next.From source start := by
  refine .skipBlanks ((follows_eat _).bind fun _ _ => .ite (fun _ => .skipBlanks ?_) fun _ =>
    .pure hc)
  exact (follows_parens _).bind fun _ _ => follows_get

theorem parens_ok_iff {what : Wanted} : parens what c = .ok () next ↔
    c.peek = some (ascii '(') ∧ group c = .ok () next := by
  unfold parens
  rw [Surface.bind_get]
  by_cases hpeek : c.peek = some (ascii '(')
  · rw [if_pos hpeek]
    exact ⟨fun h => ⟨hpeek, h⟩, And.right⟩
  · rw [if_neg hpeek]
    exact ⟨fun h => (by cases h), fun h => absurd h.1 hpeek⟩

theorem parens_ok {what : Wanted} (hc : c.On source) (h : parens what c = .ok () next) :
    c.peek = some (ascii '(') ∧ next.From source (c.pos + 1) := by
  obtain ⟨hopen, hgroup⟩ := parens_ok_iff.mp h
  exact ⟨hopen, group_ok hc hgroup⟩

theorem noted_header (hc : c.On source) (hopen : c.peek = some (ascii '('))
    (hnext : next.From source (c.pos + 1)) : Noted source (.leaf .header (next.spanFrom c.pos)) :=
  ⟨trivial, (hc.head?_slice hnext.start_le).trans hopen⟩

theorem follows_header (withContinue : Bool) :
    Follows source start (header withContinue) (Spells source) := by
  intro c t next hc h
  obtain ⟨_, _, hget, h⟩ := ok_of_bind h
  cases hget
  obtain ⟨_, mid, hparens, h⟩ := ok_of_bind h
  obtain ⟨hopen, hmid⟩ := parens_ok hc.toOn hparens
  have hleaf : ∀ stop : Cursor, stop.From source (c.pos + 1) →
      Follows source (c.pos + 1) (do set stop; leafFrom .header c) (Spells source) :=
    fun stop hstop => .set hstop (.get fun _ hnext =>
      .pure (everywhere_leaf (noted_header hc.toOn hopen hnext)))
  have hstop : ∀ captured : Cursor, captured.From source (c.pos + 1) →
      Follows source (c.pos + 1) (do
        let stop ← if withContinue then continueClause captured else pure captured
        set stop
        leafFrom .header c) (Spells source) := by
    intro captured hcaptured
    refine Follows.ite (fun _ => ?_) fun _ => ?_
    · exact (follows_continueClause hcaptured).bind hleaf
    · exact (Follows.pure hcaptured).bind hleaf
  -- All that follows lies behind the opening parenthesis.
  refine ((?_ : Follows source (c.pos + 1) _ (Spells source)) mid t next hmid h).imp_left
    fun hnext => hnext.weaken (Nat.le_succ_of_le hc.start_le)
  refine Follows.get fun condition hcond => .skipBlanks (follows_capture.bind fun o _ => ?_)
  refine Follows.ite (fun _ => ?_) fun _ => ?_
  · exact follows_get.bind hstop
  · exact (Follows.pure hcond).bind hstop

section ControlFlow

variable {body : ScanM Tree} (hbody : ∀ start, Follows source start body (Spells source))

include hbody

theorem follows_headedBranch (c : Cursor) (withContinue : Bool) :
    Follows source start (headedBranch body c withContinue) (Spells source) := by
  refine .skipBlanks ((follows_header withContinue).bind fun h hh => .skipBlanks ?_)
  refine (hbody start).bind fun b hb => follows_nodeFrom (fun _ => ⟨trivial, trivial⟩) ?_
  simpa using ⟨hh, hb⟩

theorem follows_capturedBody :
    Follows source start (capturedBody body) fun parts => ∀ t ∈ parts, Spells source t := by
  refine follows_capture.bind fun o _ => ?_
  split
  · refine .skipBlanks ((hbody start).bind fun b hb => .pure ?_)
    simpa using ⟨everywhere_leaf ⟨trivial, trivial⟩, hb⟩
  · exact (hbody start).bind fun b hb => .pure (by simpa using hb)

theorem follows_elseIf? :
    Follows source start (elseIf? body) fun o => ∀ t ∈ o, Spells source t := by
  refine Follows.get fun c hc => Follows.ite (fun hwords => ?_) fun _ => .pure (by simp)
  simp only [Bool.and_eq_true] at hwords
  have helse := (hc.skipBlanks.skip_keyword hwords.1).skipBlanks
  exact .set (helse.skip_keyword hwords.2) (follows_some (follows_headedBranch hbody _ _))

theorem follows_else? :
    Follows source start (else? body) fun o => ∀ t ∈ o, Spells source t := by
  refine Follows.get fun c hc => Follows.ite (fun hword => ?_) fun _ => .pure (by simp)
  refine .set (hc.skipBlanks.skip_keyword hword).skipBlanks ?_
  refine (follows_capturedBody hbody).bind fun parts hparts => ?_
  exact follows_some (follows_nodeFrom (fun _ => ⟨trivial, trivial⟩) hparts)

theorem follows_ifBlock (hc : c.From source start) (hword : c.atKeyword "if")
    (h : ifBlock body c = .ok t next) : next.From source start ∧ Spells source t := by
  obtain ⟨_, _, hget, h⟩ := ok_of_bind h
  cases hget
  refine (?_ : Follows source start _ (Spells source)) c t next hc h
  refine Follows.set (hc.skip_keyword hword) ?_
  refine (follows_headedBranch hbody _ _).bind fun first hfirst => ?_
  refine (follows_many (follows_elseIf? hbody)).bind fun others hothers => ?_
  refine (follows_else? hbody).bind fun last? hlast => ?_
  refine follows_nodeFrom (fun _ => ⟨trivial, trivial⟩) ?_
  intro t ht
  rcases List.mem_append.mp ht with ht | ht
  · rcases List.mem_cons.mp ht with rfl | ht
    · exact hfirst
    · exact hothers t ht
  · exact hlast t (Option.mem_toList.mp ht)

theorem follows_loopBlock {flow : FlowKind} (hflow : flow = .forLoop ∨ flow = .whileLoop)
    (hc : c.From source start) (hword : c.atKeyword flow.keyword)
    (h : loopBlock body flow c = .ok t next) : next.From source start ∧ Spells source t := by
  obtain ⟨_, _, hget, h⟩ := ok_of_bind h
  cases hget
  refine (?_ : Follows source start _ (Spells source)) c t next hc h
  refine Follows.set (hc.skip_keyword hword) ?_
  refine (follows_headedBranch hbody _ _).bind fun branch hbranch => ?_
  refine follows_nodeFrom (fun _ => ?_) (by simpa using hbranch)
  rcases hflow with rfl | rfl <;> exact ⟨trivial, trivial⟩

theorem follows_prong? (opening : Cursor) :
    Follows source start (prong? body opening) fun o => ∀ t ∈ o, Spells source t := by
  refine .skipBlanks ((follows_eat _).bind fun _ _ => .ite (fun _ => .pure (by simp)) fun _ => ?_)
  refine Follows.get fun c hc => .ite (fun _ => follows_fail _ _) fun _ => ?_
  intro c' o next hc' h
  obtain ⟨u, mid, huntil, h⟩ := ok_of_bind h
  obtain ⟨hmid, harrow⟩ := untilTopLevel_ok (by decide) hc' huntil
  obtain ⟨_, _, hget, h⟩ := ok_of_bind h
  cases hget
  by_cases hempty : (trimmed c mid.pos).isEmpty
  · rw [if_pos hempty] at h
    cases h
  · rw [if_neg hempty] at h
    obtain ⟨_, _, hskip, h⟩ := ok_of_bind h
    cases hskip
    refine (?_ : Follows source start _ fun o : Option Tree => ∀ t ∈ o, Spells source t)
      (mid.skip 2) o next (hmid.skip_text harrow) h
    refine .skipBlanks ((follows_capturedBody hbody).bind fun parts hparts => ?_)
    have hpattern : Solid source (trimmed c mid.pos) :=
      solid_trimmed hc.toOn 0 hmid.le (Bool.eq_false_iff.mpr hempty)
    have hprong : Follows source start
        (nodeFrom .branch c (.leaf .pattern (trimmed c mid.pos) :: parts)) (Spells source) := by
      refine follows_nodeFrom (fun _ => ⟨trivial, trivial⟩) fun t ht => ?_
      rcases List.mem_cons.mp ht with rfl | ht
      · exact everywhere_leaf ⟨trivial, hpattern⟩
      · exact hparts t ht
    refine hprong.bind fun prong ht => .skipBlanks ((follows_eat _).bind fun _ _ => .pure ?_)
    simpa using ht

theorem follows_switchBlock (hc : c.From source start) (hword : c.atKeyword "switch")
    (h : switchBlock body c = .ok t next) : next.From source start ∧ Spells source t := by
  obtain ⟨_, _, hget, h⟩ := ok_of_bind h
  cases hget
  refine (?_ : Follows source start _ (Spells source)) c t next hc h
  refine Follows.set (hc.skip_keyword hword) (.skipBlanks ?_)
  intro subject t next hsubject h
  obtain ⟨_, _, hget, h⟩ := ok_of_bind h
  cases hget
  obtain ⟨_, mid, hparens, h⟩ := ok_of_bind h
  obtain ⟨hopen, hmid⟩ := parens_ok hsubject.toOn hparens
  obtain ⟨head, _, hleaf, h⟩ := ok_of_bind h
  cases hleaf
  have hhead : Spells source (.leaf .header (mid.spanFrom subject.pos)) :=
    everywhere_leaf (noted_header hsubject.toOn hopen hmid)
  refine (?_ : Follows source start _ (Spells source)) mid t next
    (hmid.weaken (Nat.le_succ_of_le hsubject.start_le)) h
  refine .skipBlanks ((follows_expect _ _).bind fun _ _ => ?_)
  refine (follows_many (follows_prong? hbody c)).bind fun prongs hprongs => ?_
  refine .ite (fun _ => follows_fail _ _) fun _ => follows_nodeFrom (fun _ => ⟨trivial, trivial⟩) ?_
  intro t ht
  rcases List.mem_cons.mp ht with rfl | ht
  · exact hhead
  · exact hprongs t ht

omit hbody in
theorem gives_flowKind (flow : FlowKind) :
    Gives (controlFlow body flow) fun t => t.kind = flow.kind := by
  have hnode : ∀ kind start children,
      Gives (nodeFrom kind start children) fun t => t.kind = kind :=
    fun _ _ _ => gives_nodeFrom fun _ => rfl
  cases flow with
  | ifElse =>
    exact .after fun _ => .after fun _ => .after fun _ => .after fun _ => .after fun _ =>
      hnode _ _ _
  | switch =>
    exact .after fun _ => .after fun _ => .after fun _ => .after fun _ => .after fun _ =>
      .after fun _ => .after fun _ => .after fun _ => .after fun _ =>
        .ite (fun _ => gives_fail _ _) fun _ => hnode _ _ _
  | forLoop => exact .after fun _ => .after fun _ => .after fun _ => hnode _ _ _
  | whileLoop => exact .after fun _ => .after fun _ => .after fun _ => hnode _ _ _

theorem follows_controlFlow {flow : FlowKind} (hc : c.From source start)
    (hword : c.atKeyword flow.keyword) (h : controlFlow body flow c = .ok t next) :
    next.From source start ∧ Spells source t := by
  cases flow with
  | ifElse => exact follows_ifBlock hbody hc hword h
  | switch => exact follows_switchBlock hbody hc hword h
  | forLoop => exact follows_loopBlock hbody (.inl rfl) hc hword h
  | whileLoop => exact follows_loopBlock hbody (.inr rfl) hc hword h

end ControlFlow

/-! ## Markup -/

/-- Nothing more is found in a template root only at its closing parenthesis. -/
theorem close_of_rootItem? {g : Nested} {opening : Cursor} (hc : c.From source start)
    (h : rootItem? g opening c = .ok none next) :
    ∃ close : Cursor, close.From source start ∧ close.startsWith ")" ∧ next = close.skip 1 := by
  obtain ⟨_, _, hblanks, h⟩ := ok_of_bind h
  cases hblanks
  obtain ⟨found, mid, heat, h⟩ := ok_of_bind h
  rw [eat_eq] at heat
  cases hclose : c.skipBlanks.startsWith ")" with
  | true =>
    rw [hclose] at heat
    cases heat
    cases h
    exact ⟨c.skipBlanks, hc.skipBlanks, hclose, rfl⟩
  | false =>
    rw [hclose] at heat
    cases heat
    have hsome : Gives (do
        let c ← get
        if c.atEnd then fail ⟨opening.pos, opening.pos + 1⟩ .unclosedRoot
        else if c.peek = some (ascii '<') then return some (← g.tag)
        else expected .rootClose) (· ≠ none) :=
      .after fun _ => .ite (fun _ => gives_fail _ _) fun _ =>
        .ite (fun _ => .after fun _ => .pure (by simp)) fun _ => gives_expected _
    exact absurd rfl (hsome _ none next h)

theorem inParens_between {close : Cursor} (hc : c.On source) (hopen : c.startsWith "(")
    (hclose : close.From source (c.pos + 1)) (hend : close.startsWith ")") :
    InParens (Span.slice ⟨c.pos, close.pos + 1⟩ source) := by
  obtain ⟨rest, hrest⟩ := List.isPrefixOf_iff_prefix.mp hopen
  obtain ⟨after, hafter⟩ := List.isPrefixOf_iff_prefix.mp hend
  have hle := hclose.start_le
  obtain ⟨count, hcount⟩ : ∃ count, close.pos = c.pos + 1 + count :=
    ⟨close.pos - (c.pos + 1), by omega⟩
  have htail : rest.drop count = ascii ')' :: after := by
    calc rest.drop count = c.rest.drop (1 + count) := by rw [← hrest, ← List.drop_drop]; rfl
      _ = source.drop close.pos := by rw [hc.rest, List.drop_drop, hcount, Nat.add_assoc]
      _ = ascii ')' :: after := by rw [← hclose.rest, ← hafter]; rfl
  refine ⟨rest.take count, ?_⟩
  have hsize : close.pos + 1 - c.pos = count + 1 + 1 := by omega
  have hbyte : rest[count]? = some (ascii ')') := by rw [← List.head?_drop, htail]; rfl
  rw [hc.slice, hsize, ← hrest, Surface.utf8_openParen, List.singleton_append,
    List.take_succ_cons, List.take_add_one, hbyte]
  rfl

theorem atKeyword_of_flowAhead? {flow : FlowKind} (h : flowAhead? c = some flow) :
    c.atKeyword flow.keyword := by
  obtain ⟨found, hfound, h⟩ := Option.bind_eq_some_iff.mp h
  have hword := List.find?_some hfound
  split at h
  · cases h
    exact hword
  · cases h

section Nested

variable {g : Nested} (hg : SpellsNested source g)

include hg

theorem follows_child? (terminator : Terminator) (opening : Span) (opener : String) :
    Follows source start (child? g terminator opening opener) fun o =>
      ∀ t ∈ o, Spells source t := by
  intro c o next hc h
  obtain ⟨_, _, hget, h⟩ := ok_of_bind h
  cases hget
  by_cases hbrace : c.peek = some (ascii '\x7b')
  · simp only [hbrace] at h
    rw [if_neg (by decide), if_pos trivial] at h
    obtain ⟨t, mid, ht, h⟩ := ok_of_bind h
    cases h
    obtain ⟨hmid, hspells⟩ := hg.braces (.inl rfl) hc hbrace ht
    exact ⟨hmid, by simpa using hspells⟩
  refine (?_ : Follows source start _ fun o : Option Tree => ∀ t ∈ o, Spells source t) c o next hc h
  split
  · exact follows_fail _ _
  next b hpeek =>
  refine Follows.ite (fun _ => .ite (fun _ => ?_) fun _ => follows_some (hg.tag _)) fun _ =>
    .ite (fun hb => absurd (hb ▸ hpeek) hbrace) fun _ => .ite (fun _ => ?_) fun _ =>
      follows_some follows_text
  · cases terminator with
    | endTag => exact .pure (by simp)
    | brace => exact follows_strayEndTag
  · cases terminator with
    | brace => exact .pure (by simp)
    | endTag =>
      refine Follows.set hc.bump (.pure ?_)
      simpa using spells_error _ _

theorem follows_children (terminator : Terminator) (opening : Span) (opener : String) :
    Follows source start (children g terminator opening opener) fun ts =>
      ∀ t ∈ ts, Spells source t :=
  follows_many (follows_child? hg terminator opening opener)

theorem follows_rootItem? (opening : Cursor) :
    Follows source start (rootItem? g opening) fun o => ∀ t ∈ o, Spells source t := by
  refine .skipBlanks ((follows_eat _).bind fun _ _ => .ite (fun _ => .pure (by simp)) fun _ => ?_)
  exact .get fun c hc => .ite (fun _ => follows_fail _ _) fun _ =>
    .ite (fun _ => follows_some (hg.tag _)) fun _ => follows_expected _

/-- A template root that was read takes at least its parentheses, and ends with them. -/
theorem templateRoot_ok (hc : c.From source start) (h : templateRoot g c = .ok t next) :
    c.pos < next.pos ∧ next.From source start ∧ t.span = ⟨c.pos, next.pos⟩ ∧
      t.kind = .templateRoot ∧ Spells source t := by
  obtain ⟨_, _, hget, h⟩ := ok_of_bind h
  cases hget
  obtain ⟨_, mid, hexpect, h⟩ := ok_of_bind h
  obtain ⟨hopen, rfl⟩ := expect_ok hexpect
  obtain ⟨items, behind, hmany, h⟩ := ok_of_bind h
  cases h
  have hinside : (c.skip 1).From source (c.pos + 1) := (hc.skip_text hopen).toOn.from
  have hitems := (follows_many (follows_rootItem? hg c) _ _ _ hinside hmany).2
  obtain ⟨last, hlast, hstep⟩ := exists_last_of_manyFrom
    ((follows_rootItem? hg c).mono fun _ _ => trivial) hinside hmany
  obtain ⟨close, hfrom, hclose, rfl⟩ := close_of_rootItem? hlast hstep
  have hle := hfrom.start_le
  have hnext : (close.skip 1).From source start :=
    (hfrom.skip_text hclose).weaken (Nat.le_succ_of_le hc.start_le)
  refine ⟨?_, hnext, rfl, rfl, spells_node ⟨Or.inr ?_, trivial⟩ hitems⟩
  · change c.pos < close.pos + 1
    omega
  · exact inParens_between hc.toOn hopen hfrom hclose

theorem follows_templateRoot : Follows source start (templateRoot g) (Spells source) := by
  intro c t next hc h
  obtain ⟨_, hnext, _, _, ht⟩ := templateRoot_ok hg hc h
  exact ⟨hnext, ht⟩

theorem follows_body : Follows source start (body g) (Spells source) := by
  refine Follows.get fun c hc => .ite (fun _ => (follows_templateRoot hg).bind fun root hroot => ?_)
    fun _ => .ite (fun _ => .set hc.bump ?_) fun _ => follows_expected _
  · exact follows_nodeFrom (fun _ => ⟨trivial, trivial⟩) (by simpa using hroot)
  · exact (follows_children hg _ _ _).bind fun items hitems => (follows_expect _ _).bind fun _ _ =>
      follows_nodeFrom (fun _ => ⟨trivial, trivial⟩) hitems

theorem follows_fragment (c : Cursor) : Follows source start (fragment g c) (Spells source) := by
  refine Follows.get fun _ _ => (follows_children hg _ _ _).bind fun items hitems => ?_
  refine follows_endTag.bind fun close hclose => follows_nodeFrom (fun _ => ⟨trivial, trivial⟩) ?_
  intro t ht
  rcases List.mem_append.mp ht with ht | ht
  · exact hitems t ht
  · rw [List.mem_singleton.mp ht]
    exact hclose

theorem follows_attr? (opening : Span) (name : String) :
    Follows source start (attr? g opening name) fun o => ∀ t ∈ o, Spells source t :=
  .skipBlanks (.get fun _ _ => .ite (fun _ => .pure (by simp)) fun _ =>
    .ite (fun _ => follows_fail _ _) fun _ => follows_some (follows_attrOrError hg))

theorem follows_element (c : Cursor) {name : Span} (hname : WordAt source isNameByte name) :
    Follows source start (element g c name) (Spells source) := by
  refine Follows.get fun _ _ => (follows_many (follows_attr? hg _ _)).bind fun attributes hattrs => ?_
  have hparts : ∀ t ∈ Tree.leaf .tagName name :: attributes, Spells source t := by
    intro t ht
    rcases List.mem_cons.mp ht with rfl | ht
    · exact everywhere_leaf ⟨hname, trivial⟩
    · exact hattrs t ht
  have hclosed : Follows source start (nodeFrom .selfClosingElement c
      (.leaf .tagName name :: attributes)) (Spells source) :=
    follows_nodeFrom (fun _ => ⟨trivial, trivial⟩) hparts
  have hopened : Follows source start (nodeFrom .startTag c
      (.leaf .tagName name :: attributes)) (Spells source) :=
    follows_nodeFrom (fun _ => ⟨trivial, trivial⟩) hparts
  refine (follows_eat _).bind fun _ _ => .ite (fun _ => hclosed) fun _ => ?_
  refine .modify (fun _ hc => hc.bump) (.ite (fun _ => hclosed) fun _ => ?_)
  refine hopened.bind fun startTag hstart => (follows_children hg _ _ _).bind fun items hitems => ?_
  refine follows_endTag.bind fun close hclose => follows_nodeFrom (fun _ => ⟨trivial, trivial⟩) ?_
  intro t ht
  rcases List.mem_append.mp ht with ht | ht
  · rcases List.mem_cons.mp ht with rfl | ht
    · exact hstart
    · exact hitems t ht
  · rw [List.mem_singleton.mp ht]
    exact hclose

theorem follows_tag : Follows source start (tag g) (Spells source) := by
  refine Follows.get fun c hc => .ite (fun _ => follows_comment) fun _ =>
    .ite (fun _ => follows_strayEndTag) fun _ => .set hc.bump ((follows_eat _).bind fun _ _ => ?_)
  refine .ite (fun _ => follows_fragment hg c) fun _ => follows_name.bind fun name? hname => ?_
  split
  · exact follows_expected _
  · next name => exact follows_element hg c (hname name rfl)

/-- Host code in braces is cut out between them. -/
theorem braced_ok {inside : Cursor} (hc : c.From source start) (hinside : inside.From source start)
    (h : braced g c inside = .ok t next) :
    next.From source start ∧ Spells source t ∧ (t.kind = .hostExpr →
      group c = .ok () next ∧ t.span = trimmed (c.skip 1) (next.pos - 1)) := by
  obtain ⟨_, _, hget, h⟩ := ok_of_bind h
  cases hget
  by_cases hopen : inside.atTemplate
  · rw [if_pos hopen] at h
    obtain ⟨root, mid, hroot, h⟩ := ok_of_bind h
    obtain ⟨_, hmid, _, hkind, hspells⟩ := templateRoot_ok hg hinside hroot
    refine (?_ : Follows source start _ fun t => Spells source t ∧ (t.kind = .hostExpr → _))
      mid t next hmid h
    refine .skipBlanks ((follows_expect _ _).bind fun _ _ => .pure ⟨hspells, fun hhost => ?_⟩)
    rw [hkind] at hhost
    cases hhost
  · rw [if_neg hopen] at h
    cases hahead : flowAhead? inside with
    | some flow =>
      simp only [hahead] at h
      obtain ⟨block, mid, hblock, h⟩ := ok_of_bind h
      obtain ⟨hmid, hspells⟩ := follows_controlFlow (fun _ => follows_body hg) hinside
        (atKeyword_of_flowAhead? hahead) hblock
      refine (?_ : Follows source start _ fun t => Spells source t ∧ (t.kind = .hostExpr → _))
        mid t next hmid h
      refine .skipBlanks ((follows_expect _ _).bind fun _ _ => .pure ⟨hspells, fun hhost => ?_⟩)
      rw [gives_flowKind flow _ _ _ hblock] at hhost
      cases flow <;> cases hhost
    | none =>
      simp only [hahead] at h
      obtain ⟨_, _, hset, h⟩ := ok_of_bind h
      cases hset
      obtain ⟨_, mid, hgroup, h⟩ := ok_of_bind h
      cases h
      exact ⟨(follows_group c _ next hc hgroup).1, everywhere_leaf ⟨trivial, trivial⟩,
        fun _ => ⟨hgroup, rfl⟩⟩

/-- Braces hold nothing, or a part in which the scanner saw something else than blanks. -/
theorem bracesOf_ok {kind : Kind} (hkind : kind = .expressionBlock ∨ kind = .exprValue)
    (hc : c.From source start) (hopen : c.peek = some (ascii '\x7b'))
    (h : bracesOf g kind c = .ok t next) : next.From source start ∧ Spells source t := by
  have hnoted : ∀ span children, (∀ code ∈ children, code.kind = .hostExpr →
      InBraces source span code.span) → Noted source (.node kind span children) := by
    intro span children hcode
    rcases hkind with rfl | rfl
    · exact ⟨trivial, hcode⟩
    · exact ⟨trivial, fun code hmem hhost => .inl (hcode code hmem hhost)⟩
  obtain ⟨_, _, hget, h⟩ := ok_of_bind h
  cases hget
  obtain ⟨_, _, hset, h⟩ := ok_of_bind h
  cases hset
  obtain ⟨_, _, hblanks, h⟩ := ok_of_bind h
  cases hblanks
  have hinside := hc.bump.skipBlanks
  obtain ⟨found, mid, heat, h⟩ := ok_of_bind h
  rw [eat_eq] at heat
  cases hclose : c.bump.skipBlanks.startsWith "\x7d" with
  | true =>
    rw [hclose] at heat
    cases heat
    cases h
    exact ⟨hinside.skip_text hclose, spells_node (hnoted _ [] (by simp)) (by simp)⟩
  | false =>
    rw [hclose] at heat
    cases heat
    obtain ⟨inner, behind, hinner, h⟩ := ok_of_bind h
    cases h
    obtain ⟨hbehind, hspells, hcode⟩ := braced_ok hg hc hinside hinner
    refine ⟨hbehind, spells_node (hnoted _ [inner] fun code hmem hhost => ?_) ?_⟩
    · obtain rfl := List.mem_singleton.mp hmem
      obtain ⟨hgroup, hspan⟩ := hcode hhost
      rw [Cursor.bump_of_peek hopen, hc.skip_eq] at hclose
      rw [hc.skip_eq] at hspan
      refine ⟨?_, hclose, ⟨next, ?_, rfl⟩, hspan⟩
      · change source[c.pos]? = some (ascii '\x7b')
        rwa [← List.head?_drop, ← hc.rest]
      · change group ⟨c.pos, source.drop c.pos⟩ = .ok () next
        rwa [← hc.rest]
    · simpa using hspells

theorem braces_ok {kind : Kind} (hkind : kind = .expressionBlock ∨ kind = .exprValue)
    (hc : c.From source start) (hopen : c.peek = some (ascii '\x7b'))
    (h : braces g kind c = .ok t next) : next.From source start ∧ Spells source t := by
  unfold braces at h
  split at h
  · next hok =>
    cases h
    exact bracesOf_ok hg hkind hc hopen hok
  · cases h
    refine ⟨?_, spells_error _ _⟩
    have hwithin := groupLength_within c.rest
    split
    · next length hlength =>
      rw [hlength] at hwithin
      exact hc.skip hwithin
    · exact hc.advance _

end Nested

/-- Induction on the depth to which productions may contain each other. -/
theorem nested_spells (source : Bytes) (depth : Nat) : SpellsNested source (nested depth) := by
  induction depth with
  | zero =>
    refine ⟨?_, ?_⟩
    · intro start c t next _ h
      cases h
    · intro _ _ _ _ _ _ _ _ h
      cases h
  | succ depth ih => exact ⟨fun _ => follows_tag ih, braces_ok ih⟩

/-! ## Files -/

theorem nextTemplate?_le {text : Bytes} {offset : Nat} (h : nextTemplate? text = some offset) :
    offset ≤ text.length := by
  revert h
  refine walk_induction (P := fun r => r = some offset → offset ≤ text.length)
    (fun _ found b rest result hrest hvisit => ?_) (fun _ h => by cases h) ()
  rintro rfl
  unfold templateVisit at hvisit
  split at hvisit
  · cases hvisit
  · cases hvisit
  · split at hvisit
    · cases hvisit
      exact Nat.le_of_lt (lt_of_drop_eq_cons hrest)
    · cases hvisit

theorem nextTemplate_from {found : Bool} (hc : c.From source start)
    (h : c.nextTemplate = (found, next)) :
    next.From source c.pos ∧ Spelled source (.leaf .hostText (next.spanFrom c.pos)) := by
  have hlength := hc.length
  unfold Cursor.nextTemplate at h
  split at h
  · next offset hoffset =>
    cases h
    have hle := nextTemplate?_le hoffset
    obtain ⟨n, hn, hbegin⟩ := beginsTemplate_of_walk hoffset
    have hlt : offset < c.rest.length := by
      refine Nat.lt_of_not_le fun hge => ?_
      rw [List.drop_eq_nil_of_le (by omega)] at hbegin
      cases hbegin
    refine ⟨hc.toOn.from.skip hle, ?_⟩
    change nextTemplate? (source.drop c.pos) =
      if c.pos + offset < source.length then some (c.pos + offset - c.pos) else none
    rw [← hc.rest, hoffset, if_pos (by omega), Nat.add_sub_cancel_left]
  · next hnone =>
    cases h
    refine ⟨hc.toOn.from.skip (Nat.le_refl _), ?_⟩
    change nextTemplate? (source.drop c.pos) =
      if c.pos + c.rest.length < source.length then _ else none
    rw [← hc.rest, hnone, if_neg (by omega)]

/-- A root takes at least one byte, whether or not it could be read. -/
theorem rootOrError_ok {g : Nested} (hg : SpellsNested source g) (hc : c.From source start)
    (hopen : c.atTemplate) {root : Tree} (h : rootOrError g c = (root, next)) :
    c.pos < next.pos ∧ next.From source start ∧ root.span = ⟨c.pos, next.pos⟩ ∧
      Spells source root := by
  unfold rootOrError at h
  split at h
  · next hok =>
    cases h
    obtain ⟨hlt, hnext, hspan, _, hspells⟩ := templateRoot_ok hg hc hok
    exact ⟨hlt, hnext, hspan, hspells⟩
  · next e _ _ =>
    cases h
    have hne : 1 ≤ c.rest.length := by
      cases hrest : c.rest with
      | nil => simp [Cursor.atTemplate, hrest, beginsTemplate] at hopen
      | cons b rest => simp
    refine ⟨?_, hc.advance _, rfl,
      spells_node ⟨Or.inl ⟨_, List.mem_singleton_self _, rfl⟩, trivial⟩ ?_⟩
    · change c.pos < c.pos + min (max e.span.stop (c.pos + 1) - c.pos) c.rest.length
      omega
    · simpa using spells_error _ _

/-- Host code and roots by turns, from a cursor to the end of its source. -/
theorem fileItems_tiles {g : Nested} (hg : SpellsNested source g) (turns : Nat) :
    ∀ c : Cursor, c.On source → c.rest.length < turns →
      Tiles source.length c.pos (fileItems g turns c) := by
  induction turns with
  | zero =>
    intro c _ hturns
    omega
  | succ turns ih =>
    intro c hc hturns
    have hlength := hc.length
    unfold fileItems
    rcases hnext : c.nextTemplate with ⟨found, c'⟩
    have hfrom := (nextTemplate_from hc.from hnext).1
    have hle := hfrom.start_le
    -- The host code before the root, if there is any, is one tile.
    have htile : ∀ rest, Tiles source.length c'.pos rest → Tiles source.length c.pos
        ((if c.pos < c'.pos then [Tree.leaf .hostText (c'.spanFrom c.pos)] else []) ++ rest) := by
      intro rest hrest
      split
      · next hlt => exact ⟨rfl, hlt, hrest⟩
      · have heq : c'.pos = c.pos := by omega
        rwa [heq] at hrest
    cases found with
    | false =>
      have hend : c'.pos = source.length := by
        unfold Cursor.nextTemplate at hnext
        split at hnext
        · cases hnext
        · cases hnext
          exact hlength
      simpa using htile [] hend
    | true =>
      rcases hroot : rootOrError g c' with ⟨root, next⟩
      obtain ⟨hlt, hnextFrom, hspan, _⟩ :=
        rootOrError_ok hg hfrom (atTemplate_of_nextTemplate hnext) hroot
      have hnextLength := hnextFrom.length
      have htail := ih next hnextFrom.toOn (by omega)
      have hrest : Tiles source.length c'.pos (root :: fileItems g turns next) := by
        unfold Tiles
        rw [hspan]
        exact ⟨rfl, hlt, htail⟩
      simpa only [hroot, if_true] using htile _ hrest

theorem fileItems_spells {g : Nested} (hg : SpellsNested source g) (turns : Nat) :
    ∀ c : Cursor, c.On source → ∀ t ∈ fileItems g turns c, Spells source t := by
  induction turns with
  | zero => simp [fileItems]
  | succ turns ih =>
    intro c hc t ht
    unfold fileItems at ht
    rcases hnext : c.nextTemplate with ⟨found, c'⟩
    obtain ⟨hfrom, hspelled⟩ := nextTemplate_from hc.from hnext
    have hhost : ∀ u ∈ (if c.pos < c'.pos then [Tree.leaf .hostText (c'.spanFrom c.pos)]
        else []), Spells source u := by
      intro u hu
      split at hu
      · rw [List.mem_singleton.mp hu]
        exact everywhere_leaf ⟨hspelled, trivial⟩
      · simp at hu
    cases found with
    | false =>
      simp only [hnext, Bool.false_eq_true, if_false] at ht
      exact hhost t ht
    | true =>
      rcases hroot : rootOrError g c' with ⟨root, next⟩
      obtain ⟨_, hnextFrom, _, hspells⟩ :=
        rootOrError_ok hg hfrom (atTemplate_of_nextTemplate hnext) hroot
      simp only [hnext, hroot, if_true] at ht
      rcases List.mem_append.mp ht with ht | ht
      · exact hhost t ht
      · rcases List.mem_cons.mp ht with rfl | ht
        · exact hspells
        · exact ih next hnextFrom.toOn t ht

end Parser

theorem Cursor.on_ofBytes (source : Bytes) : (Cursor.ofBytes source).On source :=
  ⟨Nat.zero_le _, rfl⟩

/-- The parts of a file cover its source, side by side. -/
theorem parse_tiles (source : Bytes) :
    Tree.Tiles source.length 0 (parse source).children :=
  Parser.fileItems_tiles (Parser.nested_spells source _) _ _ (Cursor.on_ofBytes source)
    (Nat.lt_succ_self _)

theorem parse_noted (source : Bytes) : (parse source).Everywhere (Tree.Noted source) :=
  Parser.spells_node ⟨trivial, trivial⟩
    (Parser.fileItems_spells (Parser.nested_spells source _) _ _ (Cursor.on_ofBytes source))

/-- Every node of the tree of a source is spelled as its kind asks. -/
theorem parse_spells (source : Bytes) : (parse source).Everywhere (Tree.Spelled source) :=
  fun t ht => (parse_noted source t ht).spelled

end ZigMarkup
