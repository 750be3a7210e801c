import ZigMarkup.Proofs.Surface.Markup

/-!
How template roots, the bodies of branches and the headers before them are read. A body begins
with a parenthesis or a brace, so a header ends where no bar and no colon come next.
-/
namespace ZigMarkup.Surface

open ScanM Parser

/-! ## Roots -/

theorem beginsTemplate_root (root : Root) (rest : Bytes) :
    beginsTemplate (utf8 root.text ++ rest) = true := by
  cases root with
  | mk before markup after =>
    obtain ⟨b, more, hmore, hb⟩ := markup.opening
    have hdrop : ∀ tail, (utf8 before.text ++ (ascii '<' :: tail)).dropWhile isAsciiBlank =
        ascii '<' :: tail := by
      intro tail
      rw [List.dropWhile_append_of_pos before.bytes_blank]
      rfl
    simp only [Root.text, utf8_append, List.append_assoc, utf8_openParen, beginsTemplate, hmore,
      List.cons_append, List.nil_append, hdrop, hb]
    rfl

theorem rootItem?_of_tag {g : Nested} (opening : Cursor) (before : Gap) {text : Bytes}
    (hhead : text.head? = some (ascii '<')) {pos : Nat} {t : Tree} {next : Cursor}
    (htag : g.tag ⟨pos + width before.text, text⟩ = .ok t next) :
    rootItem? g opening ⟨pos, utf8 before.text ++ text⟩ = .ok (some t) next := by
  obtain ⟨more, rfl⟩ := List.head?_eq_some_iff.mp hhead
  have hclose : eat ")" ⟨pos + width before.text, ascii '<' :: more⟩ =
      .ok false ⟨pos + width before.text, ascii '<' :: more⟩ :=
    eat_of_not (startsWith_of_stops (b := ascii ')') (by decide) (by simp; decide) _)
  have hahead : Cursor.atEnd ⟨pos + width before.text, ascii '<' :: more⟩ = false := rfl
  have hpeek : Cursor.peek ⟨pos + width before.text, ascii '<' :: more⟩ = some (ascii '<') := rfl
  unfold rootItem?
  rw [bind_skipBlanks, skipBlanks_gap before (by simp; decide), bind_of_ok hclose,
    if_neg (by decide), bind_get, hahead, if_neg (by decide), hpeek, if_pos rfl, bind_of_ok htag]
  rfl

/-- A root, given how its tag is read. -/
theorem templateRoot_of_tag {g : Nested} (before after : Gap) {text rest : Bytes}
    (hhead : text.head? = some (ascii '<')) {pos stop : Nat} {t : Tree}
    (htag : g.tag ⟨pos + width "(" + width before.text, text⟩ =
      .ok t ⟨stop, utf8 after.text ++ (utf8 ")" ++ rest)⟩)
    (hless : (utf8 after.text ++ (utf8 ")" ++ rest)).length < text.length) :
    templateRoot g ⟨pos, utf8 "(" ++ (utf8 before.text ++ text)⟩ =
      .ok (.node .templateRoot ⟨pos, stop + width after.text + width ")"⟩ [t])
        ⟨stop + width after.text + width ")", rest⟩ := by
  have hsteps : ∀ opening, Steps (rootItem? g opening) ⟨pos + width "(", utf8 before.text ++ text⟩
      [t] ⟨stop + width after.text + width ")", rest⟩ := by
    intro opening
    refine .more (rootItem?_of_tag opening before hhead htag) ?_ (.done ?_)
    · simp only [List.length_append] at hless ⊢
      omega
    · unfold rootItem?
      rw [bind_skipBlanks, skipBlanks_gap after (by simp; decide), bind_of_ok (eat_append ..),
        if_pos rfl]
      rfl
  unfold templateRoot
  rw [bind_get, bind_of_ok (expect_append ..), bind_of_ok (hsteps _).many, nodeFrom_eq]

theorem templateRoot_append {g : Nested} {size : Nat} (hg : Reads g size) (root : Root)
    (hsize : width root.text ≤ size) (pos : Nat) (rest : Bytes) :
    templateRoot g ⟨pos, utf8 root.text ++ rest⟩ =
      .ok (root.tree pos) ⟨pos + width root.text, rest⟩ := by
  cases root with
  | mk before markup after =>
    simp only [Root.text, width_append] at hsize
    have htag := hg.tag markup (pos + width "(" + width before.text)
      (utf8 after.text ++ (utf8 ")" ++ rest)) (by omega)
    have hhead : (utf8 markup.text ++ (utf8 after.text ++ (utf8 ")" ++ rest))).head? =
        some (ascii '<') := by
      rw [List.head?_append, markup.head]
      rfl
    have hless : (utf8 after.text ++ (utf8 ")" ++ rest)).length <
        (utf8 markup.text ++ (utf8 after.text ++ (utf8 ")" ++ rest))).length := by
      have hlength := length_pos_of_head markup.head
      simp only [List.length_append]
      omega
    simp only [Root.text, utf8_append, List.append_assoc]
    rw [templateRoot_of_tag before after hhead htag hless]
    simp only [Root.tree, Root.text, nodeAt, spanAt, width_append, Nat.add_assoc]

/-! ## Bodies -/

theorem Root.head (root : Root) : (utf8 root.text).head? = some (ascii '(') := by
  cases root with
  | mk before markup after => simp [Root.text, utf8_append]

/-- A byte that begins a body. -/
def isBodyStart (b : UInt8) : Bool := b == ascii '(' || b == ascii '\x7b'

theorem Body.head (body : Body) : (utf8 body.text).head?.any isBodyStart := by
  cases body with
  | root root =>
    rw [Body.text, root.head]
    rfl
  | list children =>
    simp [Body.text, utf8_append]
    decide

theorem Body.stops (body : Body) {p : UInt8 → Bool} (hparen : p (ascii '(') = false)
    (hbrace : p (ascii '\x7b') = false) (rest : Bytes) : Stops p (utf8 body.text ++ rest) := by
  refine stops_of_head body.head (fun b hb => ?_) rest
  rcases Bool.or_eq_true _ _ |>.mp hb with h | h
  · obtain rfl := beq_iff_eq.mp h
    exact hparen
  · obtain rfl := beq_iff_eq.mp h
    exact hbrace

/-- What a body begins with is what the lookahead asks for. -/
theorem Body.opens (body : Body) (pos : Nat) (rest : Bytes) :
    (Cursor.atTemplate ⟨pos, utf8 body.text ++ rest⟩ ||
      decide (Cursor.peek ⟨pos, utf8 body.text ++ rest⟩ = some (ascii '\x7b'))) = true := by
  cases body with
  | root root =>
    simp only [Body.text, Cursor.atTemplate]
    rw [beginsTemplate_root, Bool.true_or]
  | list children =>
    rw [peek_append (b := ascii '\x7b') (by simp [Body.text, utf8_append]), decide_eq_true rfl,
      Bool.or_true]

theorem body_append {g : Nested} {size : Nat} (hg : Reads g size) (b : Body)
    (hsize : width b.text ≤ size) (pos : Nat) (rest : Bytes) :
    body g ⟨pos, utf8 b.text ++ rest⟩ = .ok (b.tree pos) ⟨pos + width b.text, rest⟩ := by
  cases b with
  | root root =>
    have hroot : Cursor.atTemplate ⟨pos, utf8 root.text ++ rest⟩ = true :=
      beginsTemplate_root root rest
    simp only [Body.text] at hsize ⊢
    unfold body
    rw [bind_get, hroot, if_pos rfl, bind_of_ok (templateRoot_append hg root hsize pos rest),
      nodeFrom_eq]
    rfl
  | list children =>
    have hsplit : utf8 (Body.list children).text ++ rest =
        utf8 "\x7b" ++ (utf8 children.text ++ (utf8 "\x7d" ++ rest)) := by
      simp only [Body.text, utf8_append, List.append_assoc]
    have hroot : Cursor.atTemplate
        ⟨pos, utf8 "\x7b" ++ (utf8 children.text ++ (utf8 "\x7d" ++ rest))⟩ = false := rfl
    simp only [Body.text, width_append] at hsize
    unfold body
    rw [hsplit, bind_get, hroot, if_neg (by decide), peek_append (b := ascii '\x7b') (by decide),
      if_pos rfl, bind_set, bump_append rfl,
      bind_of_ok (children_append hg .brace _ "\x7b" ⟨rest, rfl⟩ children (by omega) _),
      bind_of_ok (expect_append ..), nodeFrom_eq]
    simp only [Body.tree, Body.text, nodeAt, spanAt, width_append, Nat.add_assoc]
    rfl

/-! ## Headers -/

/-- What comes behind the gap after a header. -/
structure EndsHeader (tail : Bytes) : Prop where
  blank : Stops isAsciiBlank tail
  bar : Stops (· == ascii '|') tail

/-- A header is read up to its end. The rest may have gone on over the gap behind it. -/
theorem header_eq (withContinue : Bool) (h : Header) (gap : Gap) {tail : Bytes}
    (hend : EndsHeader tail) (pos : Nat) : ∃ c : Cursor,
    c.skipBlanks = ⟨pos + width h.text + width gap.text, tail⟩ ∧
      Parser.header withContinue ⟨pos, utf8 h.text ++ (utf8 gap.text ++ tail)⟩ =
        (do
          let stop ← if withContinue
            then continueClause ⟨pos + width h.text, utf8 gap.text ++ tail⟩
            else pure ⟨pos + width h.text, utf8 gap.text ++ tail⟩
          set stop
          leafFrom .header ⟨pos, utf8 h.text ++ (utf8 gap.text ++ tail)⟩ : ScanM Tree) c := by
  obtain ⟨condition, capture?⟩ := h
  cases capture? with
  | none =>
    refine ⟨⟨pos + width condition.text + width gap.text, tail⟩, skipBlanks_of_stops hend.blank _, ?_⟩
    simp only [Header.text]
    unfold Parser.header
    rw [bind_get, bind_of_ok (parens_group ..), bind_get, bind_skipBlanks,
      skipBlanks_gap gap hend.blank, bind_of_ok (capture_of_stops hend.bar _)]
    rfl
  | some captured =>
    obtain ⟨between, k⟩ := captured
    refine ⟨⟨pos + width (Header.text ⟨condition, some (between, k)⟩), utf8 gap.text ++ tail⟩,
      skipBlanks_gap gap hend.blank _, ?_⟩
    simp only [Header.text, utf8_append, List.append_assoc, width_append]
    unfold Parser.header
    rw [bind_get, bind_of_ok (parens_group ..), bind_get, bind_skipBlanks,
      skipBlanks_gap between (k.stops (by decide) _), bind_of_ok (capture_append ..)]
    simp only [Nat.add_assoc]
    rfl

theorem header_condition (h : Header) (gap : Gap) {tail : Bytes} (hend : EndsHeader tail)
    (pos : Nat) :
    Parser.header false ⟨pos, utf8 h.text ++ (utf8 gap.text ++ tail)⟩ =
      .ok (leafAt .header pos h.text) ⟨pos + width h.text, utf8 gap.text ++ tail⟩ := by
  obtain ⟨c, _, hheader⟩ := header_eq false h gap hend pos
  rw [hheader]
  rfl

theorem endsHeader_continue (rest : Bytes) : EndsHeader (utf8 ":" ++ rest) :=
  ⟨by simp; decide, by simp; decide⟩

theorem header_continue (h : Header) (continue? : Option Continue) (gap : Gap) {tail : Bytes}
    (hend : EndsHeader tail) (hcolon : Stops (· == ascii ':') tail) (pos : Nat) :
    Parser.header true ⟨pos, utf8 (headerText h continue?) ++ (utf8 gap.text ++ tail)⟩ =
      .ok (leafAt .header pos (headerText h continue?))
        ⟨pos + width (headerText h continue?), utf8 gap.text ++ tail⟩ := by
  cases continue? with
  | none =>
    obtain ⟨c, hskip, hheader⟩ := header_eq true h gap hend pos
    have hclause : continueClause ⟨pos + width h.text, utf8 gap.text ++ tail⟩ c =
        .ok ⟨pos + width h.text, utf8 gap.text ++ tail⟩
          ⟨pos + width h.text + width gap.text, tail⟩ := by
      unfold continueClause
      rw [bind_skipBlanks, hskip,
        bind_of_ok (eat_of_not (startsWith_of_stops (b := ascii ':') (by decide) hcolon _))]
      rfl
    simp only [headerText, continueText, String.append_empty]
    rw [hheader, if_pos rfl, bind_of_ok hclause]
    rfl
  | some k =>
    obtain ⟨c, hskip, hheader⟩ := header_eq true h k.before
      (endsHeader_continue (utf8 k.after.text ++ (utf8 k.expr.text ++ (utf8 gap.text ++ tail)))) pos
    have hclause : ∀ before, continueClause before c =
        .ok ⟨pos + width (headerText h (some k)), utf8 gap.text ++ tail⟩
          ⟨pos + width (headerText h (some k)), utf8 gap.text ++ tail⟩ := by
      intro before
      unfold continueClause
      rw [bind_skipBlanks, hskip, bind_of_ok (eat_append ..), if_pos rfl, bind_skipBlanks,
        skipBlanks_gap k.after (k.expr.stops_blank _), bind_of_ok (parens_group ..)]
      simp only [headerText, continueText, Continue.text, width_append, Nat.add_assoc]
      rfl
    have hsplit : utf8 (headerText h (some k)) ++ (utf8 gap.text ++ tail) =
        utf8 h.text ++ (utf8 k.before.text ++ (utf8 ":" ++ (utf8 k.after.text ++
          (utf8 k.expr.text ++ (utf8 gap.text ++ tail))))) := by
      simp only [headerText, continueText, Continue.text, utf8_append, List.append_assoc]
    rw [hsplit, hheader, if_pos rfl, bind_of_ok (hclause _)]
    rfl

/-! ## Branches -/

theorem Body.endsHeader (body : Body) (rest : Bytes) : EndsHeader (utf8 body.text ++ rest) :=
  ⟨body.stops (by decide) (by decide) rest, body.stops (by decide) (by decide) rest⟩

theorem Header.stops_blank (h : Header) (rest : Bytes) :
    Stops isAsciiBlank (utf8 h.text ++ rest) := by
  obtain ⟨condition, capture?⟩ := h
  cases capture? with
  | none => exact condition.stops_blank rest
  | some captured =>
    simp only [Header.text, utf8_append, List.append_assoc]
    exact condition.stops_blank _

/-- A branch under a header, from what `start` stands for on. -/
theorem headedBranch_append {g : Nested} {size : Nat} (hg : Reads g size) (start : Cursor)
    (before : Gap) (h : Header) (withContinue : Bool) (continue? : Option Continue)
    (hcontinue : withContinue = false → continue? = none) (after : Gap) (b : Body)
    (hsize : width b.text ≤ size) (pos : Nat) (rest : Bytes) :
    headedBranch (body g) start withContinue ⟨pos, utf8 before.text ++
        (utf8 (headerText h continue?) ++ (utf8 after.text ++ (utf8 b.text ++ rest)))⟩ =
      .ok (.node .branch
          ⟨start.pos, pos + width (before.text ++ headerText h continue? ++ after.text ++ b.text)⟩
          [leafAt .header (pos + width before.text) (headerText h continue?),
            b.tree (pos + width (before.text ++ headerText h continue? ++ after.text))])
        ⟨pos + width (before.text ++ headerText h continue? ++ after.text ++ b.text), rest⟩ := by
  have hblank : Stops isAsciiBlank
      (utf8 (headerText h continue?) ++ (utf8 after.text ++ (utf8 b.text ++ rest))) := by
    simp only [headerText, utf8_append, List.append_assoc]
    exact h.stops_blank _
  have hheader : Parser.header withContinue ⟨pos + width before.text,
      utf8 (headerText h continue?) ++ (utf8 after.text ++ (utf8 b.text ++ rest))⟩ =
        .ok (leafAt .header (pos + width before.text) (headerText h continue?))
          ⟨pos + width before.text + width (headerText h continue?),
            utf8 after.text ++ (utf8 b.text ++ rest)⟩ := by
    cases withContinue with
    | true =>
      exact header_continue h continue? after (b.endsHeader rest)
        (b.stops (by decide) (by decide) rest) _
    | false =>
      obtain rfl := hcontinue rfl
      simp only [headerText, continueText, String.append_empty]
      exact header_condition h after (b.endsHeader rest) _
  unfold headedBranch
  rw [bind_skipBlanks, skipBlanks_gap before hblank, bind_of_ok hheader, bind_skipBlanks,
    skipBlanks_gap after (b.endsHeader rest).blank, bind_of_ok (body_append hg b hsize _ rest),
    nodeFrom_eq]
  simp only [width_append, Nat.add_assoc]

theorem capturedBody_append {g : Nested} {size : Nat} (hg : Reads g size)
    (capture? : Option (Capture × Gap)) (b : Body) (hsize : width b.text ≤ size) (pos : Nat)
    (rest : Bytes) :
    capturedBody (body g) ⟨pos, utf8 (captureText capture?) ++ (utf8 b.text ++ rest)⟩ =
      .ok (captureTrees pos capture? ++ [b.tree (pos + width (captureText capture?))])
        ⟨pos + width (captureText capture? ++ b.text), rest⟩ := by
  cases capture? with
  | none =>
    unfold capturedBody
    simp only [captureText, utf8_empty, List.nil_append, String.empty_append]
    rw [bind_of_ok (capture_of_stops (b.endsHeader rest).bar _)]
    dsimp only
    rw [bind_of_ok (body_append hg b hsize _ rest)]
    rfl
  | some captured =>
    obtain ⟨k, gap⟩ := captured
    unfold capturedBody
    simp only [captureText, utf8_append, List.append_assoc]
    rw [bind_of_ok (capture_append ..)]
    dsimp only
    rw [bind_skipBlanks, skipBlanks_gap gap (b.endsHeader rest).blank,
      bind_of_ok (body_append hg b hsize _ rest)]
    simp only [width_append, Nat.add_assoc]
    rfl

theorem stops_capturedBody (capture? : Option (Capture × Gap)) (b : Body) {p : UInt8 → Bool}
    (hbar : p (ascii '|') = false) (hparen : p (ascii '(') = false)
    (hbrace : p (ascii '\x7b') = false) (rest : Bytes) :
    Stops p (utf8 (captureText capture?) ++ (utf8 b.text ++ rest)) := by
  cases capture? with
  | none =>
    simp only [captureText, utf8_empty, List.nil_append]
    exact b.stops hparen hbrace rest
  | some captured =>
    simp only [captureText, utf8_append, List.append_assoc]
    exact captured.1.stops hbar _

end ZigMarkup.Surface
