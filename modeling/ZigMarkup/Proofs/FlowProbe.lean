import ZigMarkup.Proofs.Spelling
import ZigMarkup.Proofs.Surface.Flow
import ZigMarkup.Proofs.Tokens

/-!
The lookahead for control flow and the productions that follow it. The lookahead says that a
construct begins exactly where its word stands whole, its header can be read and a body of markup
begins behind it. Main statement: a construct that was announced is read up to its first body
without a failure, an empty switch and an empty pattern apart, and braces in which none was
announced hold one expression of host code.
-/
namespace ZigMarkup

open ScanM Parser
open Surface (bind_get bind_set bind_modify bind_skipBlanks)

/-- A body of markup begins here. -/
def Cursor.AtBody (c : Cursor) : Prop := c.atTemplate = true ∨ c.peek = some (ascii '\x7b')

/-- The cursor behind the word of a construct and the blanks that follow. -/
def Cursor.behindWord (c : Cursor) (flow : FlowKind) : Cursor :=
  (c.skip (utf8 flow.keyword).length).skipBlanks

/-- The header of the construct at a cursor can be read, and a body begins behind it. -/
structure HeaderAhead (flow : FlowKind) (c : Cursor) (head : Tree) (first : Cursor) : Prop where
  word : c.atKeyword flow.keyword = true
  exists_stop : ∃ stop, header (flow = .whileLoop) (c.behindWord flow) = .ok head stop ∧
    first = stop.skipBlanks
  opens : first.AtBody

/-- The subject of the switch at a cursor and the brace that opens its prongs can be read. -/
structure SubjectAhead (c : Cursor) (head : Tree) (inside : Cursor) : Prop where
  word : c.atKeyword "switch" = true
  exists_stop : ∃ stop, parens .switchSubject (c.behindWord .switch) = .ok () stop ∧
    head = .leaf .header (stop.spanFrom (c.behindWord .switch).pos) ∧
    stop.skipBlanks.peek = some (ascii '\x7b') ∧ inside = stop.skipBlanks.skip 1

/-- A prong can be read up to its body: the pattern, `=>` and a capture if there is one. -/
structure ProngAhead (start arrow : Cursor) (capture? : Option Span) (first : Cursor) : Prop where
  pattern : untilTopLevel "=>" start = .ok () arrow
  exists_stop : ∃ stop, capture (arrow.skip 2).skipBlanks = .ok capture? stop ∧
    first = stop.skipBlanks
  opens : first.AtBody

/-! ## Steps -/

theorem Cursor.skipBlanks_skipBlanks (c : Cursor) : c.skipBlanks.skipBlanks = c.skipBlanks := by
  refine Surface.skipBlanks_of_stops (fun b hb => ?_) c.skipBlanks.pos
  have hhead := List.head?_dropWhile_not isAsciiBlank c.rest
  rw [← Cursor.skipWhile_rest, show (c.skipWhile isAsciiBlank).rest.head? = some b from hb] at hhead
  exact hhead

variable {α β : Type}

theorem bind_of_error {x : ScanM α} {f : α → ScanM β} {c mid : Cursor} {e : ScanError}
    (h : x c = .error e mid) : (x >>= f) c = .error e mid := by
  change EStateM.bind x f c = _
  unfold EStateM.bind
  rw [h]

theorem bind_of_eq {x y : ScanM α} {f : α → ScanM β} {c d : Cursor} (h : x c = y d) :
    (x >>= f) c = (y >>= f) d := by
  change EStateM.bind x f c = EStateM.bind y f d
  unfold EStateM.bind
  rw [h]

/-- Without a capture the cursor stays. -/
theorem capture_none {c next : Cursor} (h : capture c = .ok none next) : next = c := by
  unfold capture at h
  split at h
  · cases h; rfl
  · cases h
  · cases h

/-- Whether a body begins at the cursor. -/
def bodyAhead : ScanM Bool := do
  let c ← get
  return c.atTemplate || c.peek = some (ascii '\x7b')

theorem bodyAhead_eq (c next : Cursor) : bodyAhead c = .ok true next ↔ next = c ∧ c.AtBody := by
  change EStateM.Result.ok (c.atTemplate || decide (c.peek = some (ascii '\x7b'))) c = _ ↔ _
  unfold Cursor.AtBody
  constructor
  · intro h
    injection h with hopens hnext
    exact ⟨hnext.symm, by simpa using hopens⟩
  · rintro ⟨rfl, hopens⟩
    rw [show (next.atTemplate || decide (next.peek = some (ascii '\x7b'))) = true by
      simpa using hopens]

/-- What the lookahead does behind the captures. -/
def continueAhead (flow : FlowKind) : ScanM Bool := do
  if flow = .whileLoop then
    if ← eat ":" then
      skipBlanks
      parens .continueExpr
      skipBlanks
  bodyAhead

theorem opensBody_eq (flow : FlowKind) (c : Cursor) : opensBody flow c =
    (capture >>= fun capture? => do
      if capture?.isSome then skipBlanks
      continueAhead flow) c := rfl

theorem bind_leafFrom (kind : Kind) (start : Cursor) (f : Tree → ScanM α) (c : Cursor) :
    (leafFrom kind start >>= f) c = f (.leaf kind (c.spanFrom start.pos)) c := rfl

/-- The rest of a header whose captures end at `captured`. -/
def headerEnd (withContinue : Bool) (start captured : Cursor) : ScanM Tree := do
  let stop ← if withContinue then continueClause captured else pure captured
  set stop
  leafFrom .header start

theorem header_of_captures {withContinue : Bool} {c condition stop : Cursor}
    {capture? : Option Span} (hcondition : parens .condition c = .ok () condition)
    (hcapture : capture condition.skipBlanks = .ok capture? stop) : header withContinue c =
      headerEnd withContinue c (if capture?.isSome then stop else condition) stop := by
  unfold header
  rw [bind_get, bind_of_ok hcondition, bind_get, bind_skipBlanks, bind_of_ok hcapture]
  cases capture? <;> rfl

theorem continueAhead_eq (flow : FlowKind) (start : Cursor) {captured stop : Cursor}
    (hstop : stop.skipBlanks = captured.skipBlanks) : continueAhead flow captured.skipBlanks =
      (do let _ ← headerEnd (flow = FlowKind.whileLoop) start captured; skipBlanks; bodyAhead)
        stop := by
  unfold continueAhead headerEnd
  by_cases hflow : flow = .whileLoop
  · simp only [hflow, if_true, decide_true, continueClause, bind_assoc]
    rw [bind_skipBlanks, hstop, bind_of_ok (eat_eq ..), bind_of_ok (eat_eq ..)]
    cases hcolon : captured.skipBlanks.startsWith ":" with
    | true =>
      simp only [if_true, bind_skipBlanks, bind_assoc]
      cases hcontinue : parens .continueExpr
        (captured.skipBlanks.skip (utf8 ":").length).skipBlanks with
      | error e next => rw [bind_of_error hcontinue, bind_of_error hcontinue]
      | ok _ next => rw [bind_of_ok hcontinue, bind_of_ok hcontinue]; rfl
    | false => rfl
  · simp only [hflow, if_false, decide_false]
    rfl

/-- The lookahead takes the steps of the header and of the blanks behind it. -/
theorem opensBody_eq_header (flow : FlowKind) (c : Cursor) :
    (do parens .condition; skipBlanks; opensBody flow) c =
      (do let _ ← header (flow = FlowKind.whileLoop); skipBlanks; bodyAhead) c := by
  cases hcondition : parens .condition c with
  | error e condition =>
    have hheader : header (flow = FlowKind.whileLoop) c = .error e condition := by
      unfold header
      rw [bind_get, bind_of_error hcondition]
    rw [bind_of_error hcondition, bind_of_error hheader]
  | ok _ condition =>
    rw [bind_of_ok hcondition, bind_skipBlanks, opensBody_eq]
    cases hcapture : capture condition.skipBlanks with
    | error e stop =>
      have hheader : header (flow = FlowKind.whileLoop) c = .error e stop := by
        unfold header
        rw [bind_get, bind_of_ok hcondition, bind_get, bind_skipBlanks, bind_of_error hcapture]
      rw [bind_of_error hcapture, bind_of_error hheader]
    | ok capture? stop =>
      rw [bind_of_ok hcapture, bind_of_eq (header_of_captures hcondition hcapture)]
      cases capture? with
      | none =>
        cases capture_none hcapture
        exact continueAhead_eq flow c (condition.skipBlanks_skipBlanks)
      | some span => exact continueAhead_eq flow c rfl

/-! ## What the lookahead announces -/

theorem ok_bind_iff {x : ScanM α} {f : α → ScanM β} {c next : Cursor} {b : β} :
    (x >>= f) c = .ok b next ↔ ∃ a mid, x c = .ok a mid ∧ f a mid = .ok b next := by
  refine ⟨ok_of_bind, ?_⟩
  rintro ⟨a, mid, ha, hb⟩
  rw [bind_of_ok ha, hb]

theorem opensMarkup_iff {flow : FlowKind} (hflow : flow ≠ .switch) (c : Cursor) :
    (∃ next, opensMarkup flow c = .ok true next) ↔ ∃ head stop,
      header (flow = .whileLoop) (c.behindWord flow) = .ok head stop ∧ stop.skipBlanks.AtBody := by
  have hprobe : opensMarkup flow c =
      (do let _ ← header (flow = FlowKind.whileLoop); skipBlanks; bodyAhead)
        (c.behindWord flow) := by
    rw [← opensBody_eq_header]
    unfold opensMarkup
    rw [bind_modify, bind_skipBlanks]
    simp only [hflow, if_false]
    rfl
  rw [hprobe]
  constructor
  · rintro ⟨next, h⟩
    obtain ⟨head, stop, hheader, hbody⟩ := ok_of_bind h
    rw [bind_skipBlanks, bodyAhead_eq] at hbody
    exact ⟨head, stop, hheader, hbody.2⟩
  · rintro ⟨head, stop, hheader, hbody⟩
    refine ⟨stop.skipBlanks, ?_⟩
    rw [bind_of_ok hheader, bind_skipBlanks, bodyAhead_eq]
    exact ⟨rfl, hbody⟩

theorem exists_of_atKeyword {word : String} {c : Cursor} (h : c.atKeyword word = true) :
    ∃ rest, c = ⟨c.pos, utf8 word ++ rest⟩ ∧ Surface.Stops isIdentByte rest := by
  obtain ⟨hstart, hstops⟩ := Bool.and_eq_true_iff.mp h
  obtain ⟨rest, hrest⟩ := List.isPrefixOf_iff_prefix.mp hstart
  refine ⟨rest, by rw [hrest], fun b hb => ?_⟩
  have hpeek : c.peekAt (utf8 word).length = some b := by
    rw [Cursor.peekAt, ← hrest, List.getElem?_append_right (Nat.le_refl _), Nat.sub_self,
      ← List.head?_eq_getElem?]
    exact hb
  simpa [hpeek] using hstops

theorem flowAhead?_eq_some_iff {flow : FlowKind} {c : Cursor} : flowAhead? c = some flow ↔
    c.atKeyword flow.keyword = true ∧ ∃ next, opensMarkup flow c = .ok true next := by
  constructor
  · intro h
    refine ⟨atKeyword_of_flowAhead? h, ?_⟩
    obtain ⟨found, _, h⟩ := Option.bind_eq_some_iff.mp h
    split at h
    · next next hopens =>
      cases h
      exact ⟨next, hopens⟩
    · cases h
  · rintro ⟨hword, next, hopens⟩
    obtain ⟨rest, hc, hrest⟩ := exists_of_atKeyword hword
    rw [hc] at hopens ⊢
    exact Surface.flowAhead?_of_opens hrest hopens

theorem flowAhead?_iff_header {flow : FlowKind} (hflow : flow ≠ .switch) (c : Cursor) :
    flowAhead? c = some flow ↔ ∃ head first, HeaderAhead flow c head first := by
  rw [flowAhead?_eq_some_iff, opensMarkup_iff hflow]
  constructor
  · rintro ⟨hword, head, stop, hheader, hopens⟩
    exact ⟨head, stop.skipBlanks, hword, ⟨stop, hheader, rfl⟩, hopens⟩
  · rintro ⟨head, first, hword, ⟨stop, hheader, rfl⟩, hopens⟩
    exact ⟨hword, head, stop, hheader, hopens⟩

theorem opensBody_switch_iff (c : Cursor) :
    (∃ next, opensBody .switch c.skipBlanks = .ok true next) ↔
    ∃ capture? stop, capture c.skipBlanks = .ok capture? stop ∧ stop.skipBlanks.AtBody := by
  simp only [opensBody_eq, ok_bind_iff]
  constructor
  · rintro ⟨next, capture?, stop, hcapture, hopens⟩
    refine ⟨capture?, stop, hcapture, ?_⟩
    cases capture? with
    | none =>
      cases capture_none hcapture
      rw [Cursor.skipBlanks_skipBlanks]
      exact ((bodyAhead_eq _ _).mp hopens).2
    | some span => exact ((bodyAhead_eq stop.skipBlanks next).mp hopens).2
  · rintro ⟨capture?, stop, hcapture, hopens⟩
    refine ⟨stop.skipBlanks, capture?, stop, hcapture, ?_⟩
    cases capture? with
    | none =>
      cases capture_none hcapture
      rw [Cursor.skipBlanks_skipBlanks] at hopens ⊢
      exact (bodyAhead_eq _ _).mpr ⟨rfl, hopens⟩
    | some span => exact (bodyAhead_eq _ _).mpr ⟨rfl, hopens⟩

theorem startsWith_iff_peek {text : String} {b : UInt8} (htext : utf8 text = [b]) (c : Cursor) :
    c.startsWith text = true ↔ c.peek = some b := by
  unfold Cursor.startsWith Cursor.peek
  rw [htext]
  cases c.rest with
  | nil => exact ⟨fun h => (by cases h), fun h => (by cases h)⟩
  | cons x rest =>
    rw [List.isPrefixOf, List.isPrefixOf, Bool.and_true, beq_iff_eq, List.head?_cons,
      Option.some.injEq, eq_comm]

/-- The lookahead behind the brace of a switch. -/
def prongsAhead : ScanM Bool := do
  skipBlanks
  if (← get).peek = some (ascii '\x7d') then return true
  else
    untilTopLevel "=>"
    modify (·.skip 2)
    skipBlanks
    opensBody .switch

theorem prongsAhead_iff (c : Cursor) : (∃ next, prongsAhead c = .ok true next) ↔
    c.skipBlanks.peek = some (ascii '\x7d') ∨
      ∃ arrow capture? first, ProngAhead c.skipBlanks arrow capture? first := by
  unfold prongsAhead
  simp only [bind_skipBlanks, bind_get]
  by_cases hclose : c.skipBlanks.peek = some (ascii '\x7d')
  · rw [if_pos hclose]
    exact ⟨fun _ => .inl hclose, fun _ => ⟨c.skipBlanks, rfl⟩⟩
  · rw [if_neg hclose]
    constructor
    · rintro ⟨next, h⟩
      obtain ⟨_, arrow, hpattern, hopens⟩ := ok_of_bind h
      obtain ⟨capture?, stop, hcapture, hopens⟩ := (opensBody_switch_iff _).mp ⟨next, hopens⟩
      exact .inr ⟨arrow, capture?, stop.skipBlanks, hpattern, ⟨stop, hcapture, rfl⟩, hopens⟩
    · rintro (h | ⟨arrow, capture?, first, hpattern, ⟨stop, hcapture, rfl⟩, hopens⟩)
      · exact absurd h hclose
      · obtain ⟨next, h⟩ := (opensBody_switch_iff (arrow.skip 2)).mpr
          ⟨capture?, stop, hcapture, hopens⟩
        refine ⟨next, ?_⟩
        rw [bind_of_ok hpattern]
        exact h

theorem opensMarkup_switch_eq (c : Cursor) : opensMarkup .switch c =
    (do parens .condition
        skipBlanks
        if ← eat "\x7b" then prongsAhead else return false) (c.behindWord .switch) := rfl

theorem flowAhead?_iff_switch (c : Cursor) : flowAhead? c = some .switch ↔
    ∃ head inside, SubjectAhead c head inside ∧ (inside.skipBlanks.peek = some (ascii '\x7d') ∨
      ∃ arrow capture? first, ProngAhead inside.skipBlanks arrow capture? first) := by
  rw [flowAhead?_eq_some_iff, opensMarkup_switch_eq]
  constructor
  · rintro ⟨hword, next, h⟩
    obtain ⟨_, stop, hsubject, h⟩ := ok_of_bind h
    rw [bind_skipBlanks, bind_of_ok (eat_eq ..)] at h
    have hbrace := startsWith_iff_peek Surface.utf8_openBrace stop.skipBlanks
    cases hopen : stop.skipBlanks.startsWith "\x7b" with
    | false => rw [hopen] at h; cases h
    | true =>
      rw [hopen, if_pos rfl, if_pos rfl] at h
      exact ⟨_, _, ⟨hword, stop, parens_ok_iff.mpr (parens_ok_iff.mp hsubject), rfl,
        hbrace.mp hopen, rfl⟩, (prongsAhead_iff _).mp ⟨next, h⟩⟩
  · rintro ⟨head, inside, ⟨hword, stop, hsubject, -, hbrace, rfl⟩, hprongs⟩
    obtain ⟨next, h⟩ := (prongsAhead_iff _).mpr hprongs
    refine ⟨hword, next, ?_⟩
    rw [bind_of_ok (parens_ok_iff.mpr (parens_ok_iff.mp hsubject)), bind_skipBlanks,
      bind_of_ok (eat_eq ..), (startsWith_iff_peek Surface.utf8_openBrace _).mpr hbrace]
    exact h

/-! ## What is read of a construct that was announced -/

/-- What a body holds, once it is known that one begins. -/
def openedBody (g : Nested) : ScanM Tree := do
  let start ← get
  if start.atTemplate then
    let root ← templateRoot g
    nodeFrom .body start [root]
  else
    set start.bump
    let items ← children g .brace ⟨start.pos, start.pos + 1⟩ "\x7b"
    expect "\x7d" .bodyEnd
    nodeFrom .body start items

theorem body_eq_opened (g : Nested) {c : Cursor} (h : c.AtBody) : body g c = openedBody g c := by
  unfold body openedBody
  rw [bind_get, bind_get]
  by_cases htemplate : c.atTemplate
  · rw [if_pos htemplate, if_pos htemplate]
  · rw [if_neg htemplate, if_neg htemplate, if_pos (h.resolve_left htemplate)]

variable (body : ScanM Tree)

/-- What is left of a construct behind its first branch. -/
def afterBranch (flow : FlowKind) (start : Cursor) (branch : Tree) : ScanM Tree :=
  match flow with
  | .ifElse => do
    let others ← many (elseIf? body)
    let last ← else? body
    nodeFrom .ifBlock start (branch :: others ++ last.toList)
  | flow => nodeFrom flow.kind start [branch]

/-- What is left of a switch behind the body of its first prong, with so many turns to go. -/
def afterProng (start : Cursor) (head : Tree) (turns : Nat) (prong : Tree) : ScanM Tree := do
  skipBlanks
  let _ ← eat ","
  let prongs ← manyFrom (prong? body start) turns
  nodeFrom .switchBlock start (head :: prong :: prongs)

theorem headedBranch_eq {c stop : Cursor} {head : Tree} {withContinue : Bool} (start : Cursor)
    (h : header withContinue c.skipBlanks = .ok head stop) :
    headedBranch body start withContinue c =
      (do let b ← body; nodeFrom .branch start [head, b]) stop.skipBlanks := by
  unfold headedBranch
  rw [bind_skipBlanks, bind_of_ok h, bind_skipBlanks]

theorem controlFlow_eq {flow : FlowKind} (hflow : flow ≠ .switch) (c : Cursor) :
    controlFlow body flow c = (do
      let branch ← headedBranch body c (flow = FlowKind.whileLoop)
      afterBranch body flow c branch) (c.skip (utf8 flow.keyword).length) := by
  cases flow with
  | switch => exact absurd rfl hflow
  | ifElse => rfl
  | forLoop => rfl
  | whileLoop => rfl

theorem controlFlow_of_header {flow : FlowKind} (hflow : flow ≠ .switch) {c first : Cursor}
    {head : Tree} (h : HeaderAhead flow c head first) : controlFlow body flow c =
      (do let b ← body
          let branch ← nodeFrom .branch c [head, b]
          afterBranch body flow c branch) first := by
  obtain ⟨stop, hheader, rfl⟩ := h.exists_stop
  rw [controlFlow_eq body hflow, bind_of_eq (headedBranch_eq body c hheader), bind_assoc]

theorem switchBlock_eq {c inside : Cursor} {head : Tree} (h : SubjectAhead c head inside) :
    controlFlow body .switch c = (do
      let prongs ← many (prong? body c)
      if prongs.isEmpty then fail ⟨c.pos, c.pos + 6⟩ .emptySwitch
      else nodeFrom .switchBlock c (head :: prongs)) inside := by
  obtain ⟨stop, hsubject, rfl, hbrace, rfl⟩ := h.exists_stop
  have hopen := (startsWith_iff_peek Surface.utf8_openBrace stop.skipBlanks).mpr hbrace
  have hexpect : expect "\x7b" .switchOpen stop.skipBlanks = .ok () (stop.skipBlanks.skip 1) := by
    unfold expect
    rw [bind_of_ok (eat_eq ..), hopen]
    rfl
  have hbehind : (c.skip 6).skipBlanks = c.behindWord .switch := rfl
  change switchBlock body c = _
  unfold switchBlock
  rw [bind_get, bind_set, bind_skipBlanks, hbehind, bind_get, bind_of_ok hsubject, bind_leafFrom,
    bind_skipBlanks, bind_of_ok hexpect]

theorem controlFlow_emptySwitch {c inside : Cursor} {head : Tree} (h : SubjectAhead c head inside)
    (hclose : inside.skipBlanks.peek = some (ascii '\x7d')) : controlFlow body .switch c =
      .error ⟨⟨c.pos, c.pos + 6⟩, .emptySwitch⟩ (inside.skipBlanks.skip 1) := by
  have hclose := (startsWith_iff_peek Surface.utf8_closeBrace inside.skipBlanks).mpr hclose
  have hprong : prong? body c inside = .ok none (inside.skipBlanks.skip 1) := by
    unfold prong?
    rw [bind_skipBlanks, bind_of_ok (eat_eq ..), hclose]
    rfl
  have hprongs : many (prong? body c) inside = .ok [] (inside.skipBlanks.skip 1) := by
    unfold many
    rw [bind_get, manyFrom, bind_of_ok hprong]
    rfl
  rw [switchBlock_eq body h, bind_of_ok hprongs]
  rfl

theorem capturedBody_eq {c stop : Cursor} {capture? : Option Span}
    (h : capture c.skipBlanks = .ok capture? stop) : capturedBody body c.skipBlanks =
      (do let b ← body; return (capture?.map (Tree.leaf .capture)).toList ++ [b])
        stop.skipBlanks := by
  unfold capturedBody
  rw [bind_of_ok h]
  cases capture? with
  | none =>
    cases capture_none h
    rw [Cursor.skipBlanks_skipBlanks]
    rfl
  | some span => rfl

theorem missing_of_closer {text : Bytes} (h : text.head? = some (ascii '\x7d')) :
    lengthUntil (utf8 "=>") text = untilVisit.missing (utf8 "=>") 0 := by
  obtain ⟨rest, rfl⟩ := List.head?_eq_some_iff.mp h
  have hvisit : untilVisit (utf8 "=>") () 0 (ascii '\x7d') rest =
      .stop (untilVisit.missing (utf8 "=>") 0) := by
    unfold untilVisit
    rw [plain_of_isCloser (by decide)]
    rfl
  unfold lengthUntil walk
  rw [walkFrom, hvisit]

theorem ProngAhead.opened {start arrow first : Cursor} {capture? : Option Span}
    (h : ProngAhead start arrow capture? first) :
    start.atEnd = false ∧ start.peek ≠ some (ascii '\x7d') := by
  have hpattern := h.pattern
  unfold untilTopLevel ScanM.read at hpattern
  constructor
  · cases hend : start.rest with
    | nil => rw [hend] at hpattern; cases hpattern
    | cons b rest => rw [Cursor.atEnd, hend]; rfl
  · intro hclose
    rw [missing_of_closer hclose] at hpattern
    cases hpattern

theorem prong?_eq {c arrow first : Cursor} {capture? : Option Span} (opening : Cursor)
    (h : ProngAhead c.skipBlanks arrow capture? first) : prong? body opening c =
      if (trimmed c.skipBlanks arrow.pos).isEmpty then
        .error ⟨.point arrow.pos, .expected .prongPattern⟩ arrow
      else (do
        let b ← body
        let prong ← nodeFrom .branch c.skipBlanks (Tree.leaf .pattern
          (trimmed c.skipBlanks arrow.pos) :: (capture?.map (Tree.leaf .capture)).toList ++ [b])
        skipBlanks
        let _ ← eat ","
        return some prong) first := by
  obtain ⟨hend, hclose⟩ := h.opened
  obtain ⟨stop, hcapture, rfl⟩ := h.exists_stop
  have hclose : c.skipBlanks.startsWith "\x7d" = false :=
    Bool.eq_false_iff.mpr (hclose ∘ (startsWith_iff_peek Surface.utf8_closeBrace _).mp)
  unfold prong?
  rw [bind_skipBlanks, bind_of_ok (Surface.eat_of_not hclose), if_neg Bool.false_ne_true, bind_get,
    hend, if_neg Bool.false_ne_true, bind_of_ok h.pattern, bind_get]
  split
  · rfl
  · rw [bind_modify, bind_skipBlanks, bind_of_eq (capturedBody_eq body hcapture), bind_assoc]
    rfl

theorem controlFlow_of_prong {c inside arrow first : Cursor} {head : Tree}
    {capture? : Option Span} (h : SubjectAhead c head inside)
    (hprong : ProngAhead inside.skipBlanks arrow capture? first) : controlFlow body .switch c =
      if (trimmed inside.skipBlanks arrow.pos).isEmpty then
        .error ⟨.point arrow.pos, .expected .prongPattern⟩ arrow
      else (do
        let b ← body
        let prong ← nodeFrom .branch inside.skipBlanks (Tree.leaf .pattern
          (trimmed inside.skipBlanks arrow.pos) ::
            (capture?.map (Tree.leaf .capture)).toList ++ [b])
        afterProng body c head inside.rest.length prong) first := by
  rw [switchBlock_eq body h]
  unfold many
  rw [bind_assoc, bind_get, manyFrom, bind_assoc]
  have hfirst := prong?_eq body c hprong
  split
  · next hempty =>
    rw [if_pos hempty] at hfirst
    rw [bind_of_error hfirst]
  · next hempty =>
    rw [if_neg hempty] at hfirst
    rw [bind_of_eq hfirst]
    simp only [bind_assoc, pure_bind]
    rfl

/-! ## Braces in which none was announced -/

theorem braces_of_code (g : Nested) (kind : Kind) {start next : Cursor}
    (hopen : start.peek = some (ascii '\x7b')) (hflow : flowAhead? (start.skip 1).skipBlanks = none)
    (hclose : (start.skip 1).skipBlanks.peek ≠ some (ascii '\x7d'))
    (htemplate : (start.skip 1).skipBlanks.atTemplate = false)
    (hgroup : group start = .ok () next) : braces g kind start =
      .ok (.node kind ⟨start.pos, next.pos⟩
        [.leaf .hostExpr (trimmed (start.skip 1) (next.pos - 1))]) next := by
  have hclose : (start.skip 1).skipBlanks.startsWith "\x7d" = false :=
    Bool.eq_false_iff.mpr (hclose ∘ (startsWith_iff_peek Surface.utf8_closeBrace _).mp)
  have hbraced : braced g start (start.skip 1).skipBlanks =
      .ok (.leaf .hostExpr (trimmed (start.skip 1) (next.pos - 1))) next := by
    unfold braced
    rw [bind_get, htemplate, if_neg Bool.false_ne_true, hflow]
    dsimp only
    rw [bind_set, bind_of_ok hgroup]
    rfl
  have hbraces : bracesOf g kind start = .ok (.node kind ⟨start.pos, next.pos⟩
      [.leaf .hostExpr (trimmed (start.skip 1) (next.pos - 1))]) next := by
    unfold bracesOf
    rw [bind_get, bind_set, Cursor.bump_of_peek hopen, bind_skipBlanks,
      bind_of_ok (Surface.eat_of_not hclose), if_neg Bool.false_ne_true, bind_of_ok hbraced]
    rfl
  unfold braces
  rw [hbraces]

/-- The lookahead and the productions agree. An `if`, `for` or `while` is announced exactly where
its header can be read and a body begins behind it, and a switch exactly where its subject and
either its closing brace or its first prong can. What was announced is then read up to its first
body; the failures left are those of an empty switch, of an empty pattern, and of what the body
and the rest of the construct hold. What was not announced is host code. -/
theorem control_flow_probe_agrees (c : Cursor) :
    (∀ flow, flow ≠ .switch →
      (flowAhead? c = some flow ↔ ∃ head first, HeaderAhead flow c head first)) ∧
    (flowAhead? c = some .switch ↔
      ∃ head inside, SubjectAhead c head inside ∧ (inside.skipBlanks.peek = some (ascii '\x7d') ∨
        ∃ arrow capture? first, ProngAhead inside.skipBlanks arrow capture? first)) ∧
    (∀ flow head first g, flow ≠ .switch → HeaderAhead flow c head first →
      controlFlow (Parser.body g) flow c = (do
        let b ← openedBody g
        let branch ← nodeFrom .branch c [head, b]
        afterBranch (Parser.body g) flow c branch) first) ∧
    (∀ head inside g, SubjectAhead c head inside →
      (inside.skipBlanks.peek = some (ascii '\x7d') → controlFlow (Parser.body g) .switch c =
        .error ⟨⟨c.pos, c.pos + 6⟩, .emptySwitch⟩ (inside.skipBlanks.skip 1)) ∧
      ∀ arrow capture? first, ProngAhead inside.skipBlanks arrow capture? first →
        controlFlow (Parser.body g) .switch c =
          if (trimmed inside.skipBlanks arrow.pos).isEmpty then
            .error ⟨.point arrow.pos, .expected .prongPattern⟩ arrow
          else (do
            let b ← openedBody g
            let prong ← nodeFrom .branch inside.skipBlanks (Tree.leaf .pattern
              (trimmed inside.skipBlanks arrow.pos) ::
                (capture?.map (Tree.leaf .capture)).toList ++ [b])
            afterProng (Parser.body g) c head inside.rest.length prong) first) ∧
    (∀ g kind start next, start.peek = some (ascii '\x7b') → c = (start.skip 1).skipBlanks →
      flowAhead? c = none → c.peek ≠ some (ascii '\x7d') → c.atTemplate = false →
      group start = .ok () next → braces g kind start =
        .ok (.node kind ⟨start.pos, next.pos⟩
          [.leaf .hostExpr (trimmed (start.skip 1) (next.pos - 1))]) next) := by
  refine ⟨fun flow hflow => flowAhead?_iff_header hflow c, flowAhead?_iff_switch c, ?_, ?_, ?_⟩
  · intro flow head first g hflow hheader
    rw [controlFlow_of_header _ hflow hheader, bind_of_eq (body_eq_opened g hheader.opens)]
  · intro head inside g hsubject
    refine ⟨controlFlow_emptySwitch _ hsubject, fun arrow capture? first hprong => ?_⟩
    rw [controlFlow_of_prong _ hsubject hprong, bind_of_eq (body_eq_opened g hprong.opens)]
  · rintro g kind start next hopen rfl hflow hclose htemplate hgroup
    exact braces_of_code g kind hopen hflow hclose htemplate hgroup

/-- A loop with a capture and a continue expression, and an expression that merely begins with the
word `if`. -/
theorem control_flow_probe_agrees_loop_and_code :
    (∃ head first, HeaderAhead .whileLoop
      ⟨1, utf8 "while (it.next()) |x| : (i += 1) (<p/>)\x7d"⟩ head first) ∧
    braces (nested 1) .expressionBlock ⟨0, utf8 "\x7b if (a) b else c\x7d"⟩ =
      .ok (.node .expressionBlock ⟨0, 18⟩ [.leaf .hostExpr ⟨2, 17⟩]) ⟨18, []⟩ := by
  refine ⟨((control_flow_probe_agrees _).1 .whileLoop (by decide)).mp (by decide +kernel), ?_⟩
  have hcode := (control_flow_probe_agrees ⟨2, utf8 "if (a) b else c\x7d"⟩).2.2.2.2 (nested 1)
    .expressionBlock ⟨0, utf8 "\x7b if (a) b else c\x7d"⟩ ⟨18, []⟩ (by decide +kernel)
    (by decide +kernel) (by decide +kernel) (by decide) (by decide +kernel) (by decide +kernel)
  exact hcode

end ZigMarkup
