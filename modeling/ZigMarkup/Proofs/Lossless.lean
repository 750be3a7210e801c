import ZigMarkup.Proofs.Sites

/-!
Syntax trees keep their source. Every node, an error too, is cut out of the source between
characters, so its text can always be taken. In a tree without errors the children of each node
lie in order inside of it, and those of elements, fragments and bodies in braces leave nothing
of their parent out.
-/
namespace ZigMarkup

open ScanM

variable {source : Bytes} {n m k : Nat}

namespace Parser

open Tree

theorem exists_paren_of_atTemplate (h : (cursorAt source n).atTemplate = true) :
    ∃ rest, source.drop n = ascii '(' :: rest := by
  unfold Cursor.atTemplate beginsTemplate at h
  split at h
  · cases h
  · next b rest hdrop =>
    simp only [Bool.and_eq_true, beq_iff_eq] at h
    obtain rfl := h.1
    exact ⟨rest, hdrop⟩

theorem head?_slice {b : UInt8} {rest : Bytes} (hdrop : source.drop n = b :: rest) (hlt : n < m) :
    (Span.slice ⟨n, m⟩ source).head? = some b := by
  obtain ⟨j, hj⟩ : ∃ j, m - n = j + 1 := ⟨m - n - 1, by omega⟩
  rw [Span.slice, Span.length, hdrop, hj]
  rfl

/-- Attributes up to the end of their tag. -/
structure Attributes (source : Bytes) (n : Nat) (ts : List Tree) (m : Nat) : Prop where
  parts : Parts source n ts m
  ends : ((cursorAt source m).startsWith "/>" || (cursorAt source m).startsWith ">") = true

section Nested

variable {g : Nested} (hg : SitedNested source g)

include hg

theorem goes_child? (terminator : Terminator) {opening : Span} (opener : String)
    (hopening : opening.Cuts source) (hn : Boundary source n) :
    Goes source n (child? g terminator opening opener) (Adds (Run source) n) := by
  have hnone : Goes source n (pure none) (Adds (Run source) n) := .pure hn (Run.nil source n)
  have hsome : ∀ {p : ScanM Tree}, Goes source n p (Whole source n) →
      Goes source n (p >>= fun t => pure (some t)) (Adds (Run source) n) :=
    fun hp => hp.bind fun t m hm ht => .pure hm ⟨ht.lt, fun ts l hts => Run.cons ht hts⟩
  refine Goes.get ?_
  split
  · exact goes_fail hn hopening
  · next b hpeek =>
    obtain ⟨rest, hdrop⟩ := exists_drop_of_peek hpeek
    refine Goes.ite (fun hb => .ite (fun _ => ?_) fun _ => ?_) fun hopen =>
      .ite (fun hb => ?_) fun hbrace => .ite (fun hb => ?_) fun hclose => ?_
    · cases terminator with
      | endTag => exact hnone
      | brace => exact goes_strayEndTag hn
    · subst hb
      exact hsome (hg.tag n rest hn hdrop)
    · subst hb
      exact hsome (hg.braces .expressionBlock (.inl rfl) n rest hn hdrop)
    · cases terminator with
      | brace => exact hnone
      | endTag =>
        subst hb
        have hnext := hn.next hdrop (by decide)
        have hlt := Nat.lt_succ_self n
        refine Goes.set (cursorAt_bump hdrop) (.pure hnext ⟨hlt, fun ts l hts => Run.cons ?_ hts⟩)
        exact whole_error ⟨Nat.le_succ n, hn, hnext⟩ hlt
    · exact hsome (goes_text hn hdrop (by simp [isTextByte, hopen, hbrace, hclose]))

theorem goes_children (terminator : Terminator) {opening : Span} (opener : String)
    (hopening : opening.Cuts source) (hn : Boundary source n) :
    Goes source n (children g terminator opening opener) (Run source n) :=
  goes_many (fun _ hk => goes_child? hg terminator opener hopening hk) hn

theorem goes_rootItem? (hopening : Span.Cuts source ⟨k, k + 1⟩) (hn : Boundary source n) :
    Goes source n (rootItem? g (cursorAt source k)) (Adds (Parts source) n) := by
  refine Goes.skipBlanks hn fun a ha hna _ => ?_
  refine Goes.eat ha Surface.utf8_closeParen (by decide) (fun _ _ hend => ?_) fun _ => ?_
  · exact .pure hend (Parts.nil (show n ≤ a + 1 by omega))
  refine Goes.get (.ite (fun _ => goes_fail ha hopening) fun _ => .ite (fun hpeek => ?_) fun _ =>
    goes_expected ha)
  obtain ⟨rest, hdrop⟩ := exists_drop_of_peek hpeek
  refine (hg.tag a rest ha hdrop).bind fun t m hm ht => .pure hm ⟨?_, fun ts l hts => ?_⟩
  · exact Nat.lt_of_le_of_lt hna ht.lt
  · exact ((Parts.of_whole ht).widen hna (Nat.le_refl m)).append hts

theorem goes_templateRoot (hn : Boundary source n) :
    Goes source n (templateRoot g) (Whole source n) := by
  refine Goes.get (Goes.expect hn Surface.utf8_openParen (by decide) fun _ _ hopen => ?_)
  have hopening : Span.Cuts source ⟨n, n + 1⟩ := ⟨Nat.le_succ n, hn, hopen⟩
  refine (goes_many (fun _ hk => goes_rootItem? hg hopening hk) hopen).bind fun items m hm hp => ?_
  have hle : n + 1 ≤ m := hp.le
  refine goes_nodeFrom hm (whole_node hn hm hle ?_ trivial fun _ => trivial)
  exact hp.widen (Nat.le_succ n) (Nat.le_refl m)

theorem goes_body (hn : Boundary source n) : Goes source n (body g) (Whole source n) := by
  refine Goes.get (.ite (fun htemplate => ?_) fun _ => .ite (fun hpeek => ?_) fun _ =>
    goes_expected hn)
  · obtain ⟨rest, hdrop⟩ := exists_paren_of_atTemplate htemplate
    refine (goes_templateRoot hg hn).bind fun root m hm hroot => goes_nodeFrom hm ?_
    refine whole_node hn hm hroot.lt (.of_whole hroot) trivial fun _ hbrace => ?_
    have hhead := (head?_slice hdrop hroot.lt).symm.trans hbrace
    exact absurd (Option.some.inj hhead) (by decide)
  · obtain ⟨rest, hdrop⟩ := exists_drop_of_peek hpeek
    have hopen := hn.next hdrop (by decide)
    have hopening : Span.Cuts source ⟨n, n + 1⟩ := ⟨Nat.le_succ n, hn, hopen⟩
    refine Goes.set (cursorAt_bump hdrop) ?_
    refine (goes_children hg .brace _ hopening hopen).bind fun items m hm hitems => ?_
    refine Goes.expect hm Surface.utf8_closeBrace (by decide) fun after hclose hend => ?_
    have hle : n + 1 ≤ m := hitems.le
    have hlast : source[m]? = some (ascii '\x7d') := by rw [← List.head?_drop, hclose]; rfl
    refine goes_nodeFrom hend (whole_node hn hend (show n < m + 1 by omega) ?_ trivial ?_)
    · exact hitems.toParts.widen (Nat.le_succ n) (Nat.le_succ m)
    · exact fun hclean _ => ⟨show n + 2 ≤ m + 1 by omega, hlast, hitems.tiles hclean⟩

/-- A fragment, read up to the end of its opening. -/
theorem goes_fragment (hn : Boundary source n) (hopen : Boundary source (n + 2)) :
    Goes source (n + 2) (fragment g (cursorAt source n)) (Whole source n) := by
  have hopening : Span.Cuts source ⟨n, n + 2⟩ := ⟨Nat.le_add_right n 2, hn, hopen⟩
  refine Goes.get ((goes_children hg .endTag _ hopening hopen).bind fun items a ha hitems => ?_)
  refine (goes_endTag ha).bind fun close m hm hclose => goes_nodeFrom hm ?_
  have hrun := hitems.append (Run.of_whole hclose)
  have hle := hrun.le
  refine whole_node hn hm (by omega) (hrun.toParts.widen ?_ (Nat.le_refl m)) trivial hrun.tiles
  exact Nat.le_add_right n 2

theorem goes_attr? {opening : Span} (name : String) (hopening : opening.Cuts source)
    (hn : Boundary source n) :
    Goes source n (attr? g opening name) (Adds (Attributes source) n) := by
  refine Goes.skipBlanks hn fun a ha hna _ => Goes.get ?_
  refine Goes.ite (fun hends => .pure ha ⟨.nil hna, hends⟩) fun _ =>
    .ite (fun _ => goes_fail ha hopening) fun hmore => ?_
  obtain ⟨b, rest, hdrop⟩ : ∃ b rest, source.drop a = b :: rest := by
    cases hdrop : source.drop a with
    | nil =>
      rw [Cursor.atEnd, cursorAt, hdrop] at hmore
      exact absurd rfl hmore
    | cons b rest => exact ⟨b, rest, rfl⟩
  refine (goes_attrOrError hg ha hdrop).bind fun t m hm ht => .pure hm ⟨?_, fun ts l hts => ?_⟩
  · exact Nat.lt_of_le_of_lt hna ht.lt
  · exact ⟨((Parts.of_whole ht).widen hna (Nat.le_refl m)).append hts.parts, hts.ends⟩

theorem goes_element (hn : Boundary source n) (hopen : Boundary source (n + 1))
    (hk : Boundary source k) (hlt : n + 1 < k) :
    Goes source k (element g (cursorAt source n) ⟨n + 1, k⟩) (Whole source n) := by
  have hopening : Span.Cuts source ⟨n, k⟩ := ⟨show n ≤ k by omega, hn, hk⟩
  have hname : Whole source (n + 1) (.leaf .tagName ⟨n + 1, k⟩) k :=
    whole_leaf hopen hk hlt trivial trivial
  refine Goes.get ?_
  refine (goes_many (fun _ ha => goes_attr? hg _ hopening ha) hk).bind fun attributes a ha hattrs => ?_
  have hle := hattrs.parts.le
  -- All tags hold the name and the attributes, whatever they end with.
  have hparts : ∀ m, a ≤ m → Parts source n (.leaf .tagName ⟨n + 1, k⟩ :: attributes) m :=
    fun m hm => (Parts.cons hname hattrs.parts).widen (Nat.le_succ n) hm
  refine Goes.eat ha Surface.utf8_closeEmpty (by decide) (fun _ _ hend => ?_) fun hslash => ?_
  · exact goes_nodeFrom hend (whole_node hn hend (show n < a + 2 by omega)
      (hparts _ (Nat.le_add_right a 2)) trivial fun _ => trivial)
  have hends := hattrs.ends
  rw [hslash, Bool.false_or] at hends
  obtain ⟨after, hafter⟩ := exists_drop_of_startsWith hends
  rw [Surface.utf8_close, List.singleton_append] at hafter
  have hend := ha.next hafter (by decide)
  refine Goes.modify (cursorAt_bump hafter) (.ite (fun _ => ?_) fun _ => ?_)
  · exact goes_nodeFrom hend (whole_node hn hend (by omega) (hparts _ (Nat.le_succ a)) trivial
      fun _ => trivial)
  · have hstart : Whole source n
        (.node .startTag ⟨n, a + 1⟩ (.leaf .tagName ⟨n + 1, k⟩ :: attributes)) (a + 1) :=
      whole_node hn hend (by omega) (hparts _ (Nat.le_succ a)) trivial fun _ => trivial
    refine Goes.get ((goes_children hg .endTag _ hopening hend).bind fun items b hb hitems => ?_)
    refine (goes_endTag hb).bind fun close m hm hclose => goes_nodeFrom hm ?_
    have hrun := (Run.cons hstart hitems).append (Run.of_whole hclose)
    have hclosed := hclose.lt
    have hinside := hitems.le
    exact whole_node hn hm (by omega) hrun.toParts trivial hrun.tiles

theorem goes_tag {rest : Bytes} (hn : Boundary source n) (hdrop : source.drop n = ascii '<' :: rest) :
    Goes source n (tag g) (Whole source n) := by
  have hopen := hn.next hdrop (by decide)
  refine Goes.get (.ite (fun hcomment => ?_) fun _ => .ite (fun _ => goes_strayEndTag hn) fun _ => ?_)
  · obtain ⟨after, hafter⟩ := exists_drop_of_startsWith hcomment
    exact goes_comment hn hafter
  refine Goes.set (cursorAt_bump hdrop) ?_
  refine Goes.eat hopen Surface.utf8_close (by decide) (fun _ _ hend => ?_) fun _ => ?_
  · exact goes_fragment hg hn hend
  · refine Goes.name hopen (fun k hk hlt => ?_) fun _ => goes_expected hopen
    exact goes_element hg hn hopen hk hlt

theorem goes_braced {rest : Bytes} (hn : Boundary source n)
    (hdrop : source.drop n = ascii '\x7b' :: rest) (hk : Boundary source k) (hlt : n < k) :
    Goes source k (braced g (cursorAt source n)) fun t m => n < m ∧ Parts source n [t] m := by
  have hclose : ∀ {what : Wanted} (t : Tree) (a : Nat), Boundary source a → Whole source k t a →
      Goes source a (do
        skipBlanks
        expect "\x7d" what
        return t) fun t m => n < m ∧ Parts source n [t] m := by
    intro what t a ha ht
    refine Goes.skipBlanks ha fun b hb hab _ => ?_
    refine Goes.expect hb Surface.utf8_closeBrace (by decide) fun _ _ hend => .pure hend ?_
    have htlt := ht.lt
    exact ⟨show n < b + 1 by omega, (Parts.of_whole ht).widen (Nat.le_of_lt hlt) (by omega)⟩
  refine Goes.get (.ite (fun _ => ?_) fun _ => ?_)
  · exact (goes_templateRoot hg hk).bind fun root a ha hroot => hclose root a ha hroot
  · split
    · next flow hahead =>
      exact (goes_controlFlow (fun _ ha => goes_body hg ha) hk (atKeyword_of_flowAhead? hahead)).bind
        fun block a ha hblock => hclose block a ha hblock
    · refine Goes.set rfl (Goes.group hn hdrop (by decide) fun m hm hgroup => .get (.pure hm ?_))
      have htwo := hgroup.two_le
      exact ⟨by omega, hgroup.parts hn hdrop (by decide)⟩

theorem goes_bracesOf {kind : Kind} (hkind : kind = .expressionBlock ∨ kind = .exprValue)
    {rest : Bytes} (hn : Boundary source n) (hdrop : source.drop n = ascii '\x7b' :: rest) :
    Goes source n (bracesOf g kind) (Whole source n) := by
  have hheld : ∀ span ts, Held source (.node kind span ts) := by
    intro span ts
    rcases hkind with rfl | rfl <;> trivial
  have hcovered : ∀ span ts, Covered source (.node kind span ts) := by
    intro span ts
    rcases hkind with rfl | rfl <;> trivial
  have hopen := hn.next hdrop (by decide)
  refine Goes.get (Goes.set (cursorAt_bump hdrop) (.skipBlanks hopen fun k hk hle _ => ?_))
  refine Goes.eat hk Surface.utf8_closeBrace (by decide) (fun _ _ hend => ?_) fun _ => ?_
  · exact goes_leafFrom hend (whole_leaf hn hend (show n < k + 1 by omega) (hheld _ _) (hcovered _ _))
  · refine (goes_braced hg hn hdrop hk hle).bind fun inner m hm hinner => goes_nodeFrom hm ?_
    exact whole_node hn hm hinner.1 hinner.2 (hheld _ _) fun _ => hcovered _ _

theorem goes_braces {kind : Kind} (hkind : kind = .expressionBlock ∨ kind = .exprValue)
    {rest : Bytes} (hn : Boundary source n) (hdrop : source.drop n = ascii '\x7b' :: rest) :
    Goes source n (braces g kind) (Whole source n) := by
  have hopen := hn.next hdrop (by decide)
  have hof := goes_bracesOf hg hkind hn hdrop
  unfold Goes at hof ⊢
  unfold braces
  cases hresult : bracesOf g kind (cursorAt source n) with
  | ok t next =>
    rw [hresult] at hof
    exact hof
  | error e reached =>
    rw [hresult] at hof
    have hgroup := groupLength_bounded hn.text hdrop (by decide)
    have hrest : (cursorAt source n).rest = source.drop n := rfl
    dsimp only
    rw [hrest]
    cases hlength : groupLength (source.drop n) with
    | ok length =>
      rw [hlength] at hgroup
      have hpos := (groupLength_reaches_end hlength).1
      exact ⟨n + length, cursorAt_skip source n length, hn.shift hgroup,
        whole_error hof.1 (Nat.lt_add_of_pos_right hpos)⟩
    | error failure =>
      have hstop := hof.1.stop.max hopen
      have hlt : n < max e.span.stop (n + 1) := by omega
      exact ⟨_, cursorAt_advance hstop.le (Nat.le_of_lt hlt), hstop, whole_error hof.1 hlt⟩

end Nested

/-- Induction on the depth to which productions may contain each other. -/
theorem nested_sited (source : Bytes) (depth : Nat) : SitedNested source (nested depth) := by
  induction depth with
  | zero =>
    refine ⟨fun n _ hn _ => ?_, fun _ _ n _ hn _ => ?_⟩
    · exact ⟨hn.point, n, rfl, hn⟩
    · exact ⟨hn.point, n, rfl, hn⟩
  | succ depth ih =>
    exact ⟨fun _ _ hn hdrop => goes_tag ih hn hdrop,
      fun _ hkind _ _ hn hdrop => goes_braces ih hkind hn hdrop⟩

/-! ## Files -/

theorem rootOrError_whole {g : Nested} (hg : SitedNested source g) (hn : Boundary source n)
    (htemplate : (cursorAt source n).atTemplate = true) :
    ∃ m, (rootOrError g (cursorAt source n)).2 = cursorAt source m ∧ Boundary source m ∧
      Whole source n (rootOrError g (cursorAt source n)).1 m := by
  obtain ⟨rest, hdrop⟩ := exists_paren_of_atTemplate htemplate
  have hroot := goes_templateRoot hg hn
  unfold Goes at hroot
  unfold rootOrError
  cases hresult : templateRoot g (cursorAt source n) with
  | ok t next =>
    rw [hresult] at hroot
    exact hroot
  | error e reached =>
    rw [hresult] at hroot
    have hstop := hroot.1.stop.max (hn.next hdrop (by decide))
    have hlt : n < max e.span.stop (n + 1) := by omega
    have hresume := cursorAt_advance hstop.le (Nat.le_of_lt hlt)
    refine ⟨_, hresume, hstop, ?_⟩
    change Whole source n (.node .templateRoot (((cursorAt source n).advance
      (max e.span.stop (n + 1) - n)).spanFrom n) [.error e.span e.message]) _
    rw [hresume]
    exact whole_node hn hstop hlt (.of_whole (whole_error hroot.1 hlt)) trivial fun _ => trivial

theorem nextTemplate_at (hn : Boundary source n) : ∃ m, n ≤ m ∧ Boundary source m ∧
    (cursorAt source n).nextTemplate.2 = cursorAt source m := by
  unfold Cursor.nextTemplate
  split
  · next offset hfound =>
    exact ⟨n + offset, Nat.le_add_right _ _, hn.shift (nextTemplate?_bounded hn.text hfound),
      cursorAt_skip source n offset⟩
  · exact ⟨n + (source.drop n).length, Nat.le_add_right _ _, hn.shift (.length _),
      cursorAt_skip source n _⟩

theorem fileItems_sited {g : Nested} (hg : SitedNested source g) (turns : Nat) :
    ∀ n, Boundary source n → ∀ t ∈ fileItems g turns (cursorAt source n),
      t.Everywhere (Sited source) ∧ (t.Clean → t.Everywhere (Laid source)) := by
  induction turns with
  | zero => simp [fileItems]
  | succ turns ih =>
    intro n hn t ht
    obtain ⟨m, hnm, hm, hnext⟩ := nextTemplate_at hn
    unfold fileItems at ht
    rcases hfound : (cursorAt source n).nextTemplate with ⟨found, c⟩
    rw [hfound] at hnext
    obtain rfl : c = cursorAt source m := hnext
    have hhost : ∀ u ∈ (if (cursorAt source n).pos < (cursorAt source m).pos then
        [Tree.leaf .hostText ((cursorAt source m).spanFrom (cursorAt source n).pos)] else []),
        u.Everywhere (Sited source) ∧ (u.Clean → u.Everywhere (Laid source)) := by
      intro u hu
      split at hu
      · next hlt =>
        have hwhole : Whole source n (.leaf .hostText ⟨n, m⟩) m :=
          whole_leaf hn hm hlt trivial trivial
        rw [List.mem_singleton.mp hu]
        exact ⟨hwhole.sited, fun hclean => (hwhole.laid hclean).2⟩
      · simp at hu
    cases found with
    | false =>
      simp only [hfound, Bool.false_eq_true, if_false] at ht
      exact hhost t ht
    | true =>
      obtain ⟨l, hbehind, hl, hroot⟩ := rootOrError_whole hg hm (atTemplate_of_nextTemplate hfound)
      simp only [hfound, if_true] at ht
      rcases List.mem_append.mp ht with ht | ht
      · exact hhost t ht
      · rcases List.mem_cons.mp ht with rfl | ht
        · exact ⟨hroot.sited, fun hclean => (hroot.laid hclean).2⟩
        · rw [hbehind] at ht
          exact ih l hl t ht

end Parser

namespace Tree

theorem Tiles.row {ts : List Tree} (h : Tiles m n ts) : Row m n ts := by
  induction ts generalizing n with
  | nil => exact Nat.le_of_eq h
  | cons t ts ih =>
    obtain ⟨hstart, hlt, hrest⟩ := h
    exact ⟨by omega, by omega, ih hrest⟩

theorem Row.le {ts : List Tree} (h : Row m n ts) :
    n ≤ m ∧ ∀ t ∈ ts, n ≤ t.span.start ∧ t.span.stop ≤ m := by
  induction ts generalizing n with
  | nil => exact ⟨h, by simp⟩
  | cons t ts ih =>
    obtain ⟨hstart, hspan, hrest⟩ := h
    obtain ⟨hle, hall⟩ := ih hrest
    refine ⟨by omega, fun u hu => ?_⟩
    rcases List.mem_cons.mp hu with rfl | hu
    · exact ⟨hstart, hle⟩
    · have hu' := hall u hu
      omega

theorem Row.pairwise {ts : List Tree} (h : Row m n ts) :
    ts.Pairwise fun a b => a.span.stop ≤ b.span.start := by
  induction ts generalizing n with
  | nil => exact .nil
  | cons t ts ih =>
    obtain ⟨_, _, hrest⟩ := h
    exact .cons (fun u hu => (hrest.le.2 u hu).1) (ih hrest)

theorem clean_of_hasErrors {t : Tree} (h : t.hasErrors = false) : t.Clean := by
  intro u hu herror
  have hnot := List.any_eq_false.mp h u hu
  exact hnot (by simp [isError, herror])

theorem clean_of_errors {t : Tree} (h : t.errors = []) : t.Clean := by
  have hfilter : t.preorder.filter isError = [] := by
    have hlength := congrArg List.length h
    rw [errors, List.length_mergeSort] at hlength
    exact List.length_eq_zero_iff.mp hlength
  exact clean_of_hasErrors (by simpa [hasErrors, List.filter_eq_nil_iff] using hfilter)

end Tree

/-- The nodes of a parsed text are cut out at boundaries, with their host code held. -/
theorem parse_sited {source : Bytes} (h : IsText source) :
    (parse source).Everywhere (Tree.Sited source) := by
  have hitems := Parser.fileItems_sited (Parser.nested_sited source (source.length + 1))
    (source.length + 1) 0 (.zero h)
  refine Tree.everywhere_iff.mpr ⟨⟨⟨Nat.zero_le _, .zero h, .length source⟩, trivial⟩, fun t ht => ?_⟩
  exact (hitems t ht).1

theorem parse_laid {source : Bytes} (h : IsText source) (hclean : (parse source).Clean) :
    (parse source).Everywhere (Tree.Laid source) := by
  have hitems := Parser.fileItems_sited (Parser.nested_sited source (source.length + 1))
    (source.length + 1) 0 (.zero h)
  refine Tree.everywhere_iff.mpr ⟨⟨(parse_tiles source).row, trivial⟩, fun t ht => ?_⟩
  exact (hitems t ht).2 (hclean.child ht)

namespace Tree

/-- A node whose text can be taken from the source. -/
structure Sliceable (source : Bytes) (t : Tree) : Prop where
  le : t.span.start ≤ t.span.stop
  within : t.span.stop ≤ source.length
  start : isBoundary source t.span.start = true
  stop : isBoundary source t.span.stop = true
  text : utf8 (t.text source) = t.span.slice source

/-- A node whose children stand in it as the source has them. -/
structure Keeps (source : Bytes) (t : Tree) : Prop where
  disjoint : t.children.Pairwise fun a b => a.span.stop ≤ b.span.start
  inside : ∀ c ∈ t.children, t.span.start ≤ c.span.start ∧ c.span.stop ≤ t.span.stop
  element : t.kind = .element → (∃ start items close, t.children = start :: items ++ [close] ∧
    start.kind = .startTag ∧ close.kind = .endTag) ∧ Tiles t.span.stop t.span.start t.children
  fragment : t.kind = .fragment → Tiles t.span.stop (t.span.start + 2) t.children
  braces : t.kind = .body → (t.span.slice source).head? = some (ascii '\x7b') →
    t.span.start + 2 ≤ t.span.stop ∧ source[t.span.stop - 1]? = some (ascii '\x7d') ∧
      Tiles (t.span.stop - 1) (t.span.start + 1) t.children

theorem Sited.sliceable {t : Tree} (h : Sited source t) : Sliceable source t :=
  ⟨h.cuts.le, h.cuts.stop.le, h.cuts.start.isBoundary, h.cuts.stop.isBoundary,
    h.cuts.isText_slice.utf8_decode⟩

theorem Laid.keeps {t : Tree} (h : Laid source t) (hshape : Shaped t) : Keeps source t := by
  obtain ⟨kind, span, children, message⟩ := t
  refine ⟨h.row.pairwise, h.row.le.2, ?_, ?_, ?_⟩
  · rintro rfl
    obtain ⟨start, items, close, hchildren, hstart, hclose, _⟩ := hshape
    exact ⟨⟨start, items, close, hchildren, hstart, hclose⟩, h.covered⟩
  · rintro rfl
    exact h.covered
  · rintro rfl
    exact h.covered

end Tree

/-- The syntax tree of a text keeps it: every node can be sliced, and without errors every node
has its children in order, apart and inside, with elements, fragments and braces covered. -/
theorem parse_keeps_source (text : String) :
    (∀ t ∈ (parse (utf8 text)).preorder, t.Sliceable (utf8 text)) ∧
      ((parse (utf8 text)).hasErrors = false →
        ∀ t ∈ (parse (utf8 text)).preorder, t.Keeps (utf8 text)) := by
  have htext : IsText (utf8 text) := ⟨text, rfl⟩
  constructor
  · exact fun t ht => (parse_sited htext t ht).sliceable
  · intro hclean t ht
    have hlaid := parse_laid htext (Tree.clean_of_hasErrors hclean)
    exact (hlaid t ht).keeps (parse_shaped (utf8 text) t ht)

/-- Markup with all that is covered in it, and with characters of more than one byte. -/
def coveredSource : String :=
  "const p = (<p id=\"ä\">é\x7bif (x) \x7b→<b/>\x7d else (<><i></i> ü</>)\x7d</p>);"

theorem parse_keeps_source_covered :
    (parse (utf8 coveredSource)).hasErrors = false ∧
      ∀ t ∈ (parse (utf8 coveredSource)).preorder, t.Sliceable (utf8 coveredSource) ∧
        t.Keeps (utf8 coveredSource) := by
  have hclean : (parse (utf8 coveredSource)).hasErrors = false := by decide +kernel
  obtain ⟨hslice, hkeeps⟩ := parse_keeps_source coveredSource
  exact ⟨hclean, fun t ht => ⟨hslice t ht, hkeeps hclean t ht⟩⟩

end ZigMarkup
