import ZigMarkup.Proofs.Surface.Bodies

/-!
How control flow is read: the branches of an `if`, loops, and the prongs of a switch up to its
closing brace. The lookahead at an opening brace takes each construct for what it is.
-/
namespace ZigMarkup.Surface

open ScanM Parser

/-! ## Keywords -/

theorem atKeyword_append (word : String) {rest : Bytes} (h : Stops isIdentByte rest) (pos : Nat) :
    Cursor.atKeyword ⟨pos, utf8 word ++ rest⟩ word = true := by
  have hnext : (Cursor.peekAt ⟨pos, utf8 word ++ rest⟩ (utf8 word).length).any isIdentByte =
      false := by
    unfold Cursor.peekAt
    rw [List.getElem?_append_right (Nat.le_refl _), Nat.sub_self]
    cases rest with
    | nil => rfl
    | cons b rest => exact stops_cons.mp h
  rw [Cursor.atKeyword, startsWith_append, hnext]
  rfl

theorem atKeyword_of_stops {word : String} {b : UInt8} (hhead : (utf8 word).head? = some b)
    {rest : Bytes} (h : Stops (· == b) rest) (pos : Nat) :
    Cursor.atKeyword ⟨pos, rest⟩ word = false := by
  rw [Cursor.atKeyword, startsWith_of_stops hhead h]
  rfl

theorem skip_if (pos : Nat) (rest : Bytes) :
    Cursor.skip ⟨pos, utf8 "if" ++ rest⟩ 2 = ⟨pos + width "if", rest⟩ := skip_width pos "if" rest

theorem skip_else (pos : Nat) (rest : Bytes) :
    Cursor.skip ⟨pos, utf8 "else" ++ rest⟩ 4 = ⟨pos + width "else", rest⟩ :=
  skip_width pos "else" rest

theorem skip_arrow (pos : Nat) (rest : Bytes) :
    Cursor.skip ⟨pos, utf8 "=>" ++ rest⟩ 2 = ⟨pos + width "=>", rest⟩ := skip_width pos "=>" rest

theorem skip_switch (pos : Nat) (rest : Bytes) :
    Cursor.skip ⟨pos, utf8 "switch" ++ rest⟩ 6 = ⟨pos + width "switch", rest⟩ :=
  skip_width pos "switch" rest

theorem Header.stops (h : Header) {p : UInt8 → Bool} (hp : p (ascii '(') = false) (rest : Bytes) :
    Stops p (utf8 h.text ++ rest) := by
  obtain ⟨condition, capture?⟩ := h
  have hcondition : ∀ rest, Stops p (utf8 condition.text ++ rest) :=
    fun rest => stops_of_head (p := (· == ascii '(')) (by simp [condition.opened])
      (fun b hb => by obtain rfl := beq_iff_eq.mp hb; exact hp) rest
  cases capture? with
  | none => exact hcondition rest
  | some captured =>
    simp only [Header.text, utf8_append, List.append_assoc]
    exact hcondition _

/-! ## Branches of an `if` -/

/-- What comes behind a construct of control flow: the brace that closes it. -/
def EndsFlow (tail : Bytes) : Prop := ∃ (gap : Gap) (rest : Bytes),
  tail = utf8 gap.text ++ (utf8 "\x7d" ++ rest)

theorem elseIf?_append {g : Nested} {size : Nat} (hg : Reads g size) (before : Gap) (space : Space)
    (gap : Gap) (h : Header) (after : Gap) (b : Body) (hsize : width b.text ≤ size) (pos : Nat)
    (rest : Bytes) :
    elseIf? (body g) ⟨pos, utf8 (before.text ++ "else" ++ space.text ++ "if" ++ gap.text ++ h.text ++
        after.text ++ b.text) ++ rest⟩ =
      .ok (some (nodeAt .branch (pos + width before.text)
          ("else" ++ space.text ++ "if" ++ gap.text ++ h.text ++ after.text ++ b.text)
          [leafAt .header
              (pos + width before.text + width ("else" ++ space.text ++ "if" ++ gap.text)) h.text,
            b.tree (pos + width before.text +
              width ("else" ++ space.text ++ "if" ++ gap.text ++ h.text ++ after.text))]))
        ⟨pos + width (before.text ++ "else" ++ space.text ++ "if" ++ gap.text ++ h.text ++
          after.text ++ b.text), rest⟩ := by
  have hif : Stops isIdentByte (utf8 gap.text ++ (utf8 h.text ++ (utf8 after.text ++
      (utf8 b.text ++ rest)))) :=
    stops_of_blank not_identByte_of_blank gap (h.stops (by decide) _)
  have hbranch := fun start pos =>
    headedBranch_append hg start gap h false none (fun _ => rfl) after b hsize pos rest
  simp only [headerText, continueText, String.append_empty] at hbranch
  unfold elseIf?
  simp only [utf8_append, List.append_assoc]
  rw [bind_get, skipBlanks_gap before (by simp; decide), skip_else,
    skipBlanks_gap space.toGap (by simp; decide),
    atKeyword_append "else" (space.stops not_identByte_of_blank _), atKeyword_append "if" hif,
    if_pos (by decide), bind_set, skip_if, bind_of_ok (hbranch ..)]
  simp only [nodeAt, leafAt, spanAt, width_append, Nat.add_assoc]
  rfl

/-- No further branch is read before the closing brace. -/
theorem elseIf?_of_endsFlow (b : ScanM Tree) {tail : Bytes} (htail : EndsFlow tail) (pos : Nat) :
    elseIf? b ⟨pos, tail⟩ = .ok none ⟨pos, tail⟩ := by
  obtain ⟨gap, rest, rfl⟩ := htail
  have helse : ∀ pos, Cursor.atKeyword ⟨pos, utf8 "\x7d" ++ rest⟩ "else" = false :=
    atKeyword_of_stops (b := ascii 'e') (by decide) (by simp; decide)
  unfold elseIf?
  rw [bind_get, skipBlanks_gap gap (by simp; decide), helse, Bool.false_and]
  rfl

theorem else?_of_endsFlow (b : ScanM Tree) {tail : Bytes} (htail : EndsFlow tail) (pos : Nat) :
    else? b ⟨pos, tail⟩ = .ok none ⟨pos, tail⟩ := by
  obtain ⟨gap, rest, rfl⟩ := htail
  have helse : ∀ pos, Cursor.atKeyword ⟨pos, utf8 "\x7d" ++ rest⟩ "else" = false :=
    atKeyword_of_stops (b := ascii 'e') (by decide) (by simp; decide)
  unfold else?
  rw [bind_get, skipBlanks_gap gap (by simp; decide), helse]
  rfl

theorem elseIf?_otherwise (b : ScanM Tree) (before gap : Gap) (capture? : Option (Capture × Gap))
    (branch : Body) (pos : Nat) (rest : Bytes) :
    elseIf? b ⟨pos, utf8 before.text ++ (utf8 "else" ++ (utf8 gap.text ++
        (utf8 (captureText capture?) ++ (utf8 branch.text ++ rest))))⟩ =
      .ok none ⟨pos, utf8 before.text ++ (utf8 "else" ++ (utf8 gap.text ++
        (utf8 (captureText capture?) ++ (utf8 branch.text ++ rest))))⟩ := by
  have hif : ∀ pos, Cursor.atKeyword
      ⟨pos, utf8 (captureText capture?) ++ (utf8 branch.text ++ rest)⟩ "if" = false :=
    atKeyword_of_stops (b := ascii 'i') (by decide)
      (stops_capturedBody capture? branch (by decide) (by decide) (by decide) rest)
  unfold elseIf?
  rw [bind_get, skipBlanks_gap before (by simp; decide), skip_else,
    skipBlanks_gap gap (stops_capturedBody capture? branch (by decide) (by decide) (by decide) rest),
    hif, Bool.and_false]
  rfl

theorem else?_append {g : Nested} {size : Nat} (hg : Reads g size) (before gap : Gap)
    (capture? : Option (Capture × Gap)) (b : Body) (hsize : width b.text ≤ size) (pos : Nat)
    (rest : Bytes) :
    else? (body g) ⟨pos, utf8 before.text ++ (utf8 "else" ++ (utf8 gap.text ++
        (utf8 (captureText capture?) ++ (utf8 b.text ++ rest))))⟩ =
      .ok (some (nodeAt .branch (pos + width before.text)
          ("else" ++ gap.text ++ captureText capture? ++ b.text)
          (captureTrees (pos + width before.text + width ("else" ++ gap.text)) capture? ++
            [b.tree (pos + width before.text +
              width ("else" ++ gap.text ++ captureText capture?))])))
        ⟨pos + width (before.text ++ "else" ++ gap.text ++ captureText capture? ++ b.text), rest⟩ := by
  have hstops : ∀ {p : UInt8 → Bool}, p (ascii '|') = false → p (ascii '(') = false →
      p (ascii '\x7b') = false → Stops p (utf8 (captureText capture?) ++ (utf8 b.text ++ rest)) :=
    fun hbar hparen hbrace => stops_capturedBody capture? b hbar hparen hbrace rest
  have hword : Stops isIdentByte
      (utf8 gap.text ++ (utf8 (captureText capture?) ++ (utf8 b.text ++ rest))) :=
    stops_of_blank not_identByte_of_blank gap (hstops (by decide) (by decide) (by decide))
  unfold else?
  rw [bind_get, skipBlanks_gap before (by simp; decide), atKeyword_append "else" hword, if_pos rfl,
    bind_set, skip_else, skipBlanks_gap gap (hstops (by decide) (by decide) (by decide)),
    bind_of_ok (capturedBody_append hg capture? b hsize _ rest), bind_of_ok (nodeFrom_eq ..)]
  simp only [nodeAt, spanAt, width_append, Nat.add_assoc]
  rfl

/-- The branches behind the first one, those with a condition before the one without. -/
theorem chain_append {g : Nested} {size : Nat} (hg : Reads g size) {tail : Bytes}
    (htail : EndsFlow tail) (chain : Chain) (hsize : width chain.text ≤ size) (pos : Nat) :
    ∃ others last mid, chain.trees pos = others ++ Option.toList last ∧
      Steps (elseIf? (body g)) ⟨pos, utf8 chain.text ++ tail⟩ others mid ∧
      else? (body g) mid = .ok last ⟨pos + width chain.text, tail⟩ := by
  cases chain with
  | done =>
    exact ⟨[], none, ⟨pos, tail⟩, rfl, .done (elseIf?_of_endsFlow _ htail pos),
      else?_of_endsFlow _ htail pos⟩
  | otherwise before gap capture? b =>
    simp only [Chain.text, width_append] at hsize
    have hnone := elseIf?_otherwise (body g) before gap capture? b pos tail
    have helse := else?_append hg before gap capture? b (by omega) pos tail
    simp only [Chain.text, Chain.trees, utf8_append, List.append_assoc]
    exact ⟨[], some _, _, rfl, .done hnone, helse⟩
  | elseIf before space gap h after b rest =>
    simp only [Chain.text, width_append] at hsize
    have hfirst := elseIf?_append hg before space gap h after b (by omega) pos
      (utf8 rest.text ++ tail)
    obtain ⟨others, last, mid, htrees, hsteps, hlast⟩ := chain_append hg htail rest (by omega)
      (pos + width (before.text ++ "else" ++ space.text ++ "if" ++ gap.text ++ h.text ++
        after.text ++ b.text))
    have hless : (utf8 rest.text ++ tail).length <
        (utf8 (Chain.elseIf before space gap h after b rest).text ++ tail).length := by
      have hspace := List.length_pos_iff.mpr (utf8_ne_nil space.nonempty)
      simp only [Chain.text, utf8_append, List.length_append]
      omega
    simp only [Chain.text, utf8_append, List.append_assoc] at hless ⊢
    simp only [utf8_append, List.append_assoc] at hfirst
    simp only [Chain.trees, width_append, Nat.add_assoc] at hfirst htrees hsteps hlast ⊢
    exact ⟨_ :: others, last, mid, by rw [htrees]; rfl, .more hfirst hless hsteps, hlast⟩

theorem ifBlock_append {g : Nested} {size : Nat} (hg : Reads g size) (before : Gap) (h : Header)
    (after : Gap) (b : Body) (chain : Chain) (hbody : width b.text ≤ size)
    (hchain : width chain.text ≤ size) {tail : Bytes} (htail : EndsFlow tail) (pos : Nat) :
    ifBlock (body g) ⟨pos, utf8 (Flow.ifElse before h after b chain).text ++ tail⟩ =
      .ok ((Flow.ifElse before h after b chain).tree pos)
        ⟨pos + width (Flow.ifElse before h after b chain).text, tail⟩ := by
  have hfirst := fun start => headedBranch_append hg start before h false none (fun _ => rfl) after b
    hbody (pos + width "if") (utf8 chain.text ++ tail)
  simp only [headerText, continueText, String.append_empty] at hfirst
  obtain ⟨others, last, mid, htrees, hsteps, hlast⟩ := chain_append hg htail chain hchain
    (pos + width "if" + width (before.text ++ h.text ++ after.text ++ b.text))
  unfold ifBlock
  simp only [Flow.text, utf8_append, List.append_assoc]
  rw [bind_get, bind_set, skip_if, bind_of_ok (hfirst _), bind_of_ok hsteps.many,
    bind_of_ok hlast, nodeFrom_eq]
  simp only [width_append, Nat.add_assoc] at htrees
  simp only [Flow.tree, Flow.text, nodeAt, leafAt, spanAt, width_append, Nat.add_assoc, htrees]
  rfl

/-! ## Loops -/

theorem loopBlock_append {g : Nested} {size : Nat} (hg : Reads g size) (flow : FlowKind)
    (before : Gap) (h : Header) (continue? : Option Continue)
    (hcontinue : flow ≠ .whileLoop → continue? = none) (after : Gap) (b : Body)
    (hsize : width b.text ≤ size) (pos : Nat) (tail : Bytes) :
    loopBlock (body g) flow ⟨pos, utf8 (flow.keyword ++ before.text ++ headerText h continue? ++
        after.text ++ b.text) ++ tail⟩ =
      .ok (nodeAt flow.kind pos (flow.keyword ++ before.text ++ headerText h continue? ++ after.text ++
          b.text) [nodeAt .branch pos (flow.keyword ++ before.text ++ headerText h continue? ++
            after.text ++ b.text)
          [leafAt .header (pos + width (flow.keyword ++ before.text)) (headerText h continue?),
            b.tree (pos + width (flow.keyword ++ before.text ++ headerText h continue? ++
              after.text))]])
        ⟨pos + width (flow.keyword ++ before.text ++ headerText h continue? ++ after.text ++ b.text),
          tail⟩ := by
  have hbranch := fun start => headedBranch_append hg start before h (flow = .whileLoop) continue?
    (fun hflow => hcontinue (of_decide_eq_false hflow)) after b hsize (pos + width flow.keyword) tail
  unfold loopBlock
  simp only [utf8_append, List.append_assoc]
  rw [bind_get, bind_set, skip_append, ← width, bind_of_ok (hbranch _), nodeFrom_eq]
  simp only [nodeAt, leafAt, spanAt, width_append, Nat.add_assoc]

/-! ## Prongs of a switch -/

theorem prong?_append {g : Nested} {size : Nat} (hg : Reads g size) (opening : Cursor) (lead : Gap)
    (pattern : Pattern) (before after : Gap) (capture? : Option (Capture × Gap)) (b : Body)
    (gap : Gap) (hsize : width b.text ≤ size) (pos : Nat) {tail : Bytes} {found : Bool}
    {next : Cursor} (htail : Stops isAsciiBlank tail)
    (hcomma : eat "," ⟨pos + width (lead.text ++ pattern.text ++ before.text ++ "=>" ++ after.text ++
      captureText capture? ++ b.text ++ gap.text), tail⟩ = .ok found next) :
    prong? (body g) opening ⟨pos, utf8 (lead.text ++ pattern.text ++ before.text ++ "=>" ++
        after.text ++ captureText capture? ++ b.text ++ gap.text) ++ tail⟩ =
      .ok (some (nodeAt .branch (pos + width lead.text)
        (pattern.text ++ before.text ++ "=>" ++ after.text ++ captureText capture? ++ b.text)
        (leafAt .pattern (pos + width lead.text) pattern.text ::
          captureTrees (pos + width lead.text +
            width (pattern.text ++ before.text ++ "=>" ++ after.text)) capture? ++
          [b.tree (pos + width lead.text + width (pattern.text ++ before.text ++ "=>" ++ after.text ++
            captureText capture?))]))) next := by
  have hstops : ∀ {p : UInt8 → Bool}, p (ascii '|') = false → p (ascii '(') = false →
      p (ascii '\x7b') = false → Stops p (utf8 (captureText capture?) ++
        (utf8 b.text ++ (utf8 gap.text ++ tail))) :=
    fun hbar hparen hbrace => stops_capturedBody capture? b hbar hparen hbrace _
  have hclose : ∀ pos rest, eat "\x7d" ⟨pos, utf8 pattern.text ++ rest⟩ =
      .ok false ⟨pos, utf8 pattern.text ++ rest⟩ :=
    fun pos rest => eat_of_not
      (startsWith_of_stops (b := ascii '\x7d') (by decide) (pattern.stops_brace rest) pos)
  have hahead : ∀ pos rest, Cursor.atEnd ⟨pos, utf8 pattern.text ++ rest⟩ = false := by
    intro pos rest
    unfold Cursor.atEnd
    simp [utf8_ne_nil pattern.nonempty]
  unfold prong?
  simp only [utf8_append, List.append_assoc]
  rw [bind_skipBlanks, skipBlanks_gap lead (pattern.tight.stops_blank _), bind_of_ok (hclose ..),
    if_neg (by decide), bind_get, hahead, if_neg (by decide),
    bind_of_ok (untilTopLevel_arrow pattern before _ _), bind_get]
  dsimp only
  rw [trimmed_before_gap before pattern.tight, pattern.tight.isEmpty_spanAt, if_neg (by decide),
    bind_modify, skip_arrow, bind_skipBlanks,
    skipBlanks_gap after (hstops (by decide) (by decide) (by decide)),
    bind_of_ok (capturedBody_append hg capture? b hsize _ _), bind_of_ok (nodeFrom_eq ..),
    bind_skipBlanks, skipBlanks_gap gap htail]
  simp only [width_append, Nat.add_assoc] at hcomma ⊢
  rw [bind_of_ok hcomma]
  simp only [nodeAt, leafAt, spanAt, width_append, Nat.add_assoc]
  rfl

theorem prong?_done (b : ScanM Tree) (opening : Cursor) (gap : Gap) (pos : Nat) (rest : Bytes) :
    prong? b opening ⟨pos, utf8 gap.text ++ (utf8 "\x7d" ++ rest)⟩ =
      .ok none ⟨pos + width gap.text + width "\x7d", rest⟩ := by
  unfold prong?
  rw [bind_skipBlanks, skipBlanks_gap gap (by simp; decide), bind_of_ok (eat_append ..), if_pos rfl]
  rfl

theorem Pattern.length_pos (pattern : Pattern) : 0 < (utf8 pattern.text).length :=
  List.length_pos_iff.mpr (utf8_ne_nil pattern.nonempty)

theorem steps_prongs {g : Nested} {size : Nat} (hg : Reads g size) (opening : Cursor)
    (prongs : Prongs) (hsize : width prongs.text ≤ size) (lead : Gap) (pos : Nat) (rest : Bytes) :
    Steps (prong? (body g) opening)
      ⟨pos, utf8 lead.text ++ (utf8 prongs.text ++ (utf8 "\x7d" ++ rest))⟩
      (prongs.trees (pos + width lead.text))
      ⟨pos + width lead.text + width prongs.text + width "\x7d", rest⟩ := by
  cases prongs with
  | last pattern before after capture? b gap comma? =>
    simp only [Prongs.text, width_append] at hsize
    have hpattern := pattern.length_pos
    cases comma? with
    | none =>
      have hcomma : ∀ pos, eat "," ⟨pos, utf8 "\x7d" ++ rest⟩ = .ok false ⟨pos, utf8 "\x7d" ++ rest⟩ :=
        fun pos => eat_of_not (startsWith_of_stops (b := ascii ',') (by decide) (by simp; decide) pos)
      have hprong := prong?_append hg opening lead pattern before after capture? b gap (by omega) pos
        (by simp; decide) (hcomma _)
      have hdone := prong?_done (body g) opening Gap.none (pos + width (lead.text ++ pattern.text ++
        before.text ++ "=>" ++ after.text ++ captureText capture? ++ b.text ++ gap.text)) rest
      have hnone : utf8 Gap.none.text = [] ∧ width Gap.none.text = 0 := ⟨rfl, rfl⟩
      rw [hnone.1, hnone.2, List.nil_append, Nat.add_zero] at hdone
      simp only [Prongs.text, Prongs.trees, commaText, String.append_empty, utf8_append,
        List.append_assoc] at hprong ⊢
      simp only [width_append, Nat.add_assoc] at hprong hdone ⊢
      refine .more hprong ?_ (.done hdone)
      simp only [List.length_append]
      omega
    | some final =>
      have hprong := prong?_append hg opening lead pattern before after capture? b gap (by omega) pos
        (by simp; decide) (eat_append "," _ (utf8 final.text ++ (utf8 "\x7d" ++ rest)))
      have hdone := prong?_done (body g) opening final (pos + width (lead.text ++ pattern.text ++
        before.text ++ "=>" ++ after.text ++ captureText capture? ++ b.text ++ gap.text) + width ",")
        rest
      simp only [Prongs.text, Prongs.trees, commaText, utf8_append, List.append_assoc] at hprong ⊢
      simp only [width_append, Nat.add_assoc] at hprong hdone ⊢
      refine .more hprong ?_ (.done hdone)
      simp only [List.length_append]
      omega
  | more pattern before after capture? b gap next more =>
    simp only [Prongs.text, width_append] at hsize
    have hprong := prong?_append hg opening lead pattern before after capture? b gap (by omega) pos
      (by simp; decide)
      (eat_append "," _ (utf8 next.text ++ (utf8 more.text ++ (utf8 "\x7d" ++ rest))))
    have hrest := steps_prongs hg opening more (by omega) next (pos + width (lead.text ++
      pattern.text ++ before.text ++ "=>" ++ after.text ++ captureText capture? ++ b.text ++
        gap.text) + width ",") rest
    have hpattern := pattern.length_pos
    simp only [Prongs.text, Prongs.trees, utf8_append, List.append_assoc] at hprong ⊢
    simp only [width_append, Nat.add_assoc] at hprong hrest ⊢
    refine .more hprong ?_ hrest
    simp only [List.length_append]
    omega

theorem Prongs.trees_ne_nil (prongs : Prongs) (pos : Nat) :
    (prongs.trees pos).isEmpty = false := by
  cases prongs <;> simp [Prongs.trees]

theorem switchBlock_append {g : Nested} {size : Nat} (hg : Reads g size) (before : Gap)
    (subject : Group) (between first : Gap) (prongs : Prongs) (hsize : width prongs.text ≤ size)
    (pos : Nat) (tail : Bytes) :
    switchBlock (body g)
        ⟨pos, utf8 (Flow.switch before subject between first prongs).text ++ tail⟩ =
      .ok ((Flow.switch before subject between first prongs).tree pos)
        ⟨pos + width (Flow.switch before subject between first prongs).text, tail⟩ := by
  have hsteps := fun opening => steps_prongs hg opening prongs hsize first
    (pos + width "switch" + width before.text + width subject.text + width between.text +
      width "\x7b") tail
  unfold switchBlock
  simp only [Flow.text, utf8_append, List.append_assoc]
  rw [bind_get, bind_set, skip_switch, bind_skipBlanks,
    skipBlanks_gap before (subject.stops_blank _), bind_get, bind_of_ok (parens_group ..),
    bind_of_ok (leafFrom_eq ..), bind_skipBlanks, skipBlanks_gap between (by simp; decide),
    bind_of_ok (expect_append ..), bind_of_ok (hsteps _).many, prongs.trees_ne_nil,
    if_neg (by decide), nodeFrom_eq]
  simp only [Flow.tree, Flow.text, nodeAt, leafAt, spanAt, width_append, Nat.add_assoc]

/-! ## All constructs -/

def Flow.flowKind : Flow → FlowKind
  | .ifElse .. => .ifElse
  | .forLoop .. => .forLoop
  | .whileLoop .. => .whileLoop
  | .switch .. => .switch

theorem controlFlow_append {g : Nested} {size : Nat} (hg : Reads g size) (flow : Flow)
    (hsize : width flow.text ≤ size) {tail : Bytes} (htail : EndsFlow tail) (pos : Nat) :
    controlFlow (body g) flow.flowKind ⟨pos, utf8 flow.text ++ tail⟩ =
      .ok (flow.tree pos) ⟨pos + width flow.text, tail⟩ := by
  cases flow with
  | ifElse before h after b chain =>
    simp only [Flow.text, width_append] at hsize
    exact ifBlock_append hg before h after b chain (by omega) (by omega) htail pos
  | forLoop before h after b =>
    simp only [Flow.text, width_append] at hsize
    have hloop := loopBlock_append hg .forLoop before h none (fun _ => rfl) after b (by omega) pos tail
    simp only [headerText, continueText, String.append_empty] at hloop
    exact hloop
  | whileLoop before h continue? after b =>
    simp only [Flow.text, width_append] at hsize
    exact loopBlock_append hg .whileLoop before h continue? (fun hne => absurd rfl hne) after b
      (by omega) pos tail
  | switch before subject between first prongs =>
    simp only [Flow.text, width_append] at hsize
    exact switchBlock_append hg before subject between first prongs (by omega) pos tail

/-! ## Looking ahead -/

/-- The lookahead passes a header and comes to what stands behind it. -/
theorem opensBody_header (flow : FlowKind) (h : Header) (gap : Gap) {tail : Bytes}
    (hend : EndsHeader tail) (pos : Nat) :
    (do
        parens .condition
        skipBlanks
        opensBody flow : ScanM Bool) ⟨pos, utf8 h.text ++ (utf8 gap.text ++ tail)⟩ =
      (do
        if flow = .whileLoop then
          if ← eat ":" then
            skipBlanks
            parens .continueExpr
            skipBlanks
        let c ← get
        return c.atTemplate || c.peek = some (ascii '\x7b') : ScanM Bool)
        ⟨pos + width h.text + width gap.text, tail⟩ := by
  obtain ⟨condition, capture?⟩ := h
  cases capture? with
  | none =>
    simp only [Header.text]
    rw [bind_of_ok (parens_group ..), bind_skipBlanks, skipBlanks_gap gap hend.blank]
    unfold opensBody
    rw [bind_of_ok (capture_of_stops hend.bar _)]
    rfl
  | some captured =>
    obtain ⟨between, k⟩ := captured
    simp only [Header.text, utf8_append, List.append_assoc, width_append]
    rw [bind_of_ok (parens_group ..), bind_skipBlanks, skipBlanks_gap between (k.stops (by decide) _)]
    unfold opensBody
    rw [bind_of_ok (capture_append ..)]
    dsimp only
    rw [Option.isSome_some, if_pos rfl, bind_skipBlanks, skipBlanks_gap gap hend.blank]
    simp only [Nat.add_assoc]

/-- The lookahead finds a body behind its header. -/
theorem opensBody_headed (flow : FlowKind) (h : Header) (continue? : Option Continue)
    (hcontinue : flow ≠ .whileLoop → continue? = none) (after : Gap) (b : Body) (pos : Nat)
    (rest : Bytes) : ∃ next,
    (do
        parens .condition
        skipBlanks
        opensBody flow : ScanM Bool)
        ⟨pos, utf8 (headerText h continue?) ++ (utf8 after.text ++ (utf8 b.text ++ rest))⟩ =
      .ok true next := by
  have hopens : ∀ pos, (do
      let c ← get
      return c.atTemplate || c.peek = some (ascii '\x7b') : ScanM Bool)
        ⟨pos, utf8 b.text ++ rest⟩ = .ok true ⟨pos, utf8 b.text ++ rest⟩ := by
    intro pos
    rw [bind_get, b.opens]
    rfl
  cases continue? with
  | none =>
    have hcolon : ∀ pos, eat ":" ⟨pos, utf8 b.text ++ rest⟩ = .ok false ⟨pos, utf8 b.text ++ rest⟩ :=
      fun pos => eat_of_not (startsWith_of_stops (b := ascii ':') (by decide)
        (b.stops (by decide) (by decide) rest) pos)
    refine ⟨⟨pos + width h.text + width after.text, utf8 b.text ++ rest⟩, ?_⟩
    simp only [headerText, continueText, String.append_empty]
    rw [opensBody_header flow h after (b.endsHeader rest)]
    by_cases hflow : flow = .whileLoop
    · rw [if_pos hflow, bind_of_ok (hcolon _), if_neg (by decide)]
      exact hopens _
    · rw [if_neg hflow]
      exact hopens _
  | some k =>
    have hflow : flow = .whileLoop :=
      Decidable.byContradiction fun hne => Option.some_ne_none k (hcontinue hne)
    subst hflow
    have hheader := opensBody_header .whileLoop h k.before (endsHeader_continue
      (utf8 k.after.text ++ (utf8 k.expr.text ++ (utf8 after.text ++ (utf8 b.text ++ rest))))) pos
    simp only [headerText, continueText, Continue.text, utf8_append, List.append_assoc]
    rw [hheader, if_pos rfl, bind_of_ok (eat_append ..), if_pos rfl, bind_skipBlanks,
      skipBlanks_gap k.after (k.expr.stops_blank _), bind_of_ok (parens_group ..), bind_skipBlanks,
      skipBlanks_gap after (b.endsHeader rest).blank]
    exact ⟨_, hopens _⟩

theorem opensMarkup_headed (flow : FlowKind) (hflow : flow ≠ .switch) (before : Gap) (h : Header)
    (continue? : Option Continue) (hcontinue : flow ≠ .whileLoop → continue? = none) (after : Gap)
    (b : Body) (pos : Nat) (rest : Bytes) : ∃ next,
    opensMarkup flow ⟨pos, utf8 flow.keyword ++ (utf8 before.text ++
        (utf8 (headerText h continue?) ++ (utf8 after.text ++ (utf8 b.text ++ rest))))⟩ =
      .ok true next := by
  obtain ⟨next, hbody⟩ := opensBody_headed flow h continue? hcontinue after b
    (pos + width flow.keyword + width before.text) rest
  have hblank : Stops isAsciiBlank
      (utf8 (headerText h continue?) ++ (utf8 after.text ++ (utf8 b.text ++ rest))) := by
    simp only [headerText, utf8_append, List.append_assoc]
    exact h.stops_blank _
  refine ⟨next, ?_⟩
  unfold opensMarkup
  rw [bind_modify, skip_append, ← width, bind_skipBlanks, skipBlanks_gap before hblank]
  simp only [if_neg hflow]
  exact hbody

theorem opensBody_captured (capture? : Option (Capture × Gap)) (b : Body) (pos : Nat)
    (rest : Bytes) :
    opensBody .switch ⟨pos, utf8 (captureText capture?) ++ (utf8 b.text ++ rest)⟩ =
      .ok true ⟨pos + width (captureText capture?), utf8 b.text ++ rest⟩ := by
  unfold opensBody
  cases capture? with
  | none =>
    simp only [captureText, utf8_empty, List.nil_append]
    rw [bind_of_ok (capture_of_stops (b.endsHeader rest).bar _), Option.isSome_none,
      if_neg (by decide), if_neg (by decide), bind_get, b.opens]
    rfl
  | some captured =>
    obtain ⟨k, gap⟩ := captured
    simp only [captureText, utf8_append, List.append_assoc, width_append]
    rw [bind_of_ok (capture_append ..), Option.isSome_some, if_pos rfl, bind_skipBlanks,
      skipBlanks_gap gap (b.endsHeader rest).blank, if_neg (by decide), bind_get, b.opens]
    simp only [Nat.add_assoc]
    rfl

theorem Prongs.first (prongs : Prongs) : ∃ (pattern : Pattern) (before after : Gap)
    (capture? : Option (Capture × Gap)) (b : Body) (more : Bytes),
    utf8 prongs.text = utf8 pattern.text ++ (utf8 before.text ++ (utf8 "=>" ++ (utf8 after.text ++
      (utf8 (captureText capture?) ++ (utf8 b.text ++ more))))) := by
  cases prongs with
  | last pattern before after capture? b gap comma? =>
    refine ⟨pattern, before, after, capture?, b, utf8 (gap.text ++ commaText comma?), ?_⟩
    simp only [Prongs.text, utf8_append, List.append_assoc]
  | more pattern before after capture? b gap next rest =>
    refine ⟨pattern, before, after, capture?, b, utf8 (gap.text ++ "," ++ next.text ++ rest.text), ?_⟩
    simp only [Prongs.text, utf8_append, List.append_assoc]

theorem opensMarkup_switch (before : Gap) (subject : Group) (between first : Gap) (prongs : Prongs)
    (pos : Nat) (rest : Bytes) : ∃ next,
    opensMarkup .switch ⟨pos, utf8 "switch" ++ (utf8 before.text ++ (utf8 subject.text ++
        (utf8 between.text ++ (utf8 "\x7b" ++ (utf8 first.text ++ (utf8 prongs.text ++ rest))))))⟩ =
      .ok true next := by
  obtain ⟨pattern, arrow, after, capture?, b, more, hprongs⟩ := prongs.first
  have hpeek : ∀ pos rest, Cursor.peek ⟨pos, utf8 pattern.text ++ rest⟩ ≠ some (ascii '\x7d') := by
    intro pos rest hpeek
    have hstop := pattern.stops_brace rest (ascii '\x7d') hpeek
    cases hstop
  simp only [hprongs, List.append_assoc]
  unfold opensMarkup
  rw [bind_modify, FlowKind.keyword, skip_append, bind_skipBlanks,
    skipBlanks_gap before (subject.stops_blank _),
    bind_of_ok (parens_group ..), bind_skipBlanks, skipBlanks_gap between (by simp; decide),
    if_pos rfl, bind_of_ok (eat_append ..), if_pos rfl, bind_skipBlanks,
    skipBlanks_gap first (pattern.tight.stops_blank _), bind_get, if_neg (hpeek _ _),
    bind_of_ok (untilTopLevel_arrow pattern arrow _ _), bind_modify, skip_arrow, bind_skipBlanks,
    skipBlanks_gap after (stops_capturedBody capture? b (by decide) (by decide) (by decide) _),
    opensBody_captured]
  exact ⟨_, rfl⟩

theorem atKeyword_flow {flow : FlowKind} {text : Bytes} (hword : Stops isIdentByte text) (pos : Nat)
    (other : FlowKind) :
    Cursor.atKeyword ⟨pos, utf8 flow.keyword ++ text⟩ other.keyword = decide (other = flow) := by
  by_cases hother : other = flow
  · subst hother
    rw [atKeyword_append other.keyword hword pos, decide_eq_true rfl]
  · rw [decide_eq_false hother]
    -- The four words begin with four letters.
    cases flow <;> cases other <;> first
      | exact absurd rfl hother
      | exact atKeyword_of_stops rfl (by simp [FlowKind.keyword]; decide) pos

theorem flowAhead?_of_opens {flow : FlowKind} {text : Bytes} {pos : Nat} {next : Cursor}
    (hword : Stops isIdentByte text)
    (hopens : opensMarkup flow ⟨pos, utf8 flow.keyword ++ text⟩ = .ok true next) :
    flowAhead? ⟨pos, utf8 flow.keyword ++ text⟩ = some flow := by
  have hfind : FlowKind.all.find?
      (Cursor.atKeyword ⟨pos, utf8 flow.keyword ++ text⟩ ·.keyword) = some flow := by
    rw [funext (atKeyword_flow hword pos)]
    cases flow <;> rfl
  unfold flowAhead?
  rw [hfind]
  simp only [Option.bind_eq_bind, Option.bind_some, hopens]

/-- The lookahead takes a construct for what it is, whatever follows it. -/
theorem flowAhead?_append (flow : Flow) (pos : Nat) (rest : Bytes) :
    flowAhead? ⟨pos, utf8 flow.text ++ rest⟩ = some flow.flowKind := by
  have hheaded : ∀ (before : Gap) (h : Header) (continue? : Option Continue) (more : Bytes),
      Stops isIdentByte (utf8 before.text ++ (utf8 (headerText h continue?) ++ more)) := by
    intro before h continue? more
    refine stops_of_blank not_identByte_of_blank before ?_
    simp only [headerText, utf8_append, List.append_assoc]
    exact h.stops (by decide) _
  cases flow with
  | ifElse before h after b chain =>
    obtain ⟨next, hopens⟩ := opensMarkup_headed .ifElse (by decide) before h none (fun _ => rfl) after
      b pos (utf8 chain.text ++ rest)
    have hahead := flowAhead?_of_opens (hheaded before h none _) hopens
    simpa only [headerText, continueText, String.append_empty, FlowKind.keyword, Flow.flowKind, Flow.text,
      utf8_append, List.append_assoc] using hahead
  | forLoop before h after b =>
    obtain ⟨next, hopens⟩ := opensMarkup_headed .forLoop (by decide) before h none (fun _ => rfl) after
      b pos rest
    have hahead := flowAhead?_of_opens (hheaded before h none _) hopens
    simpa only [headerText, continueText, String.append_empty, FlowKind.keyword, Flow.flowKind, Flow.text,
      utf8_append, List.append_assoc] using hahead
  | whileLoop before h continue? after b =>
    obtain ⟨next, hopens⟩ := opensMarkup_headed .whileLoop (by decide) before h continue?
      (fun hne => absurd rfl hne) after b pos rest
    have hahead := flowAhead?_of_opens (hheaded before h continue? _) hopens
    simpa only [FlowKind.keyword, Flow.flowKind, Flow.text, utf8_append, List.append_assoc]
      using hahead
  | switch before subject between first prongs =>
    obtain ⟨next, hopens⟩ := opensMarkup_switch before subject between first prongs pos
      (utf8 "\x7d" ++ rest)
    have hword : ∀ more, Stops isIdentByte (utf8 before.text ++ (utf8 subject.text ++ more)) :=
      fun more => stops_of_blank not_identByte_of_blank before (stops_of_head
        (p := (· == ascii '(')) (by simp [subject.opened])
        (fun b hb => by obtain rfl := beq_iff_eq.mp hb; decide) more)
    have hahead := flowAhead?_of_opens (hword _) hopens
    simpa only [FlowKind.keyword, Flow.flowKind, Flow.text, utf8_append, List.append_assoc]
      using hahead

end ZigMarkup.Surface
