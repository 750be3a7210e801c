import ZigMarkup.Proofs.Agreement

/-!
Parsing ends. Productions contain each other without a bound: the equations between them have
one solution on a source, and every way to unfold them more often than bytes lie ahead is this
solution, whatever it begins with. Every loop ends, since each of its turns reads something, and
no cursor leaves the source.
-/
namespace ZigMarkup

open ScanM

variable {source : Bytes} {n m k : Nat} {α : Type}

theorem ScanM.Goes.forget {p : ScanM α} {R : α → Nat → Prop} (h : Goes source n p R) :
    Goes source n p fun _ _ => True := h.mono fun _ _ _ => trivial

theorem exists_drop_of_atEnd (h : (cursorAt source n).atEnd = false) :
    ∃ b rest, source.drop n = b :: rest :=
  List.exists_cons_of_ne_nil (by simpa [Cursor.atEnd, cursorAt] using h)

namespace Parser

/-! ## Nested productions -/

/-- The productions that contain those of `g`. -/
def enclose (g : Nested) : Nested := ⟨tag g, braces g⟩

/-- Productions that contain each other to some depth, and there those of `bottom`. -/
def levels (bottom : Nested) : Nat → Nested
  | 0 => bottom
  | depth + 1 => enclose (levels bottom depth)

theorem nested_eq_levels (depth : Nat) : nested depth = levels (nested 0) depth := by
  induction depth with
  | zero => rfl
  | succ depth ih =>
    rw [levels, ← ih]
    rfl

namespace Agree

variable {f g h : Nested}

theorem symm (hgh : Agree source k g h) : Agree source k h g :=
  ⟨fun n rest hkn hn hdrop => (hgh.tag n rest hkn hn hdrop).symm,
    fun kind n rest hkn hn hdrop => (hgh.braces kind n rest hkn hn hdrop).symm⟩

theorem trans (hfg : Agree source k f g) (hgh : Agree source k g h) : Agree source k f h :=
  ⟨fun n rest hkn hn hdrop => (hfg.tag n rest hkn hn hdrop).trans (hgh.tag n rest hkn hn hdrop),
    fun kind n rest hkn hn hdrop =>
      (hfg.braces kind n rest hkn hn hdrop).trans (hgh.braces kind n rest hkn hn hdrop)⟩

theorem from_later (hgh : Agree source k g h) (hkm : k ≤ m) : Agree source m g h :=
  ⟨fun n rest hmn => hgh.tag n rest (Nat.le_trans hkm hmn),
    fun kind n rest hmn => hgh.braces kind n rest (Nat.le_trans hkm hmn)⟩

theorem beyond (hk : source.length < k) : Agree source k g h := by
  refine ⟨fun n _ hkn hn _ => ?_, fun _ n _ hkn hn _ => ?_⟩
  · exact absurd hn.le (by omega)
  · exact absurd hn.le (by omega)

/-- One level takes one byte. -/
theorem enclose (hg : SitedNested source g) (hgh : Agree source (k + 1) g h) :
    Agree source k (enclose g) (enclose h) :=
  ⟨fun _ _ hkn hn hdrop => same_tag hg hgh (Nat.succ_le_succ hkn) hn hdrop,
    fun kind _ _ hkn hn hdrop => same_braces hg hgh kind (Nat.succ_le_succ hkn) hn hdrop⟩

end Agree

/-- Unfolded more often than bytes lie ahead, productions are the same whatever they began
with. -/
theorem agree_levels (source : Bytes) (bottom : Nested) (depth : Nat) : ∀ depth' k,
    source.length < k + depth → source.length < k + depth' →
      Agree source k (nested depth) (levels bottom depth') := by
  induction depth with
  | zero => exact fun _ k hk _ => Agree.beyond hk
  | succ depth ih =>
    intro depth' k hk hk'
    cases depth' with
    | zero => exact Agree.beyond hk'
    | succ depth' =>
      exact Agree.enclose (nested_sited source depth) (ih depth' (k + 1) (by omega) (by omega))

/-- A solution of the equations is found by unfolding. -/
theorem agree_of_enclose {g : Nested} (hg : Agree source 0 g (enclose g)) (depth : Nat) :
    ∀ k, source.length < k + depth → Agree source k (nested depth) g := by
  induction depth with
  | zero => exact fun k hk => Agree.beyond hk
  | succ depth ih =>
    intro k hk
    -- Only the unfolded productions are known to stay in the source, so they come first.
    have hstep := Agree.enclose (nested_sited source depth) (ih (k + 1) (by omega))
    exact hstep.trans (hg.symm.from_later (Nat.zero_le k))

theorem agree_enclose_nested (source : Bytes) :
    Agree source 0 (nested (source.length + 1)) (enclose (nested (source.length + 1))) := by
  have hagree := agree_levels source (nested 0) (source.length + 1) (source.length + 2) 0
    (by omega) (by omega)
  rwa [levels, ← nested_eq_levels] at hagree

/-! ## Loops -/

/-- What comes of a step done over and over until it yields nothing or fails, without a bound on
its turns. -/
inductive Repeats (step : ScanM (Option α)) :
    Cursor → EStateM.Result ScanError Cursor (List α) → Prop
  | stop {c last : Cursor} (h : step c = .ok none last) : Repeats step c (.ok [] last)
  | fail {c last : Cursor} {e : ScanError} (h : step c = .error e last) :
    Repeats step c (.error e last)
  | next {c more last : Cursor} {a : α} {as : List α} (h : step c = .ok (some a) more)
    (rest : Repeats step more (.ok as last)) : Repeats step c (.ok (a :: as) last)
  | abort {c more last : Cursor} {a : α} {e : ScanError} (h : step c = .ok (some a) more)
    (rest : Repeats step more (.error e last)) : Repeats step c (.error e last)

theorem repeats_manyFrom {step : ScanM (Option α)} {Q : Nat → List α → Nat → Prop}
    (hstep : ∀ n, Boundary source n → Goes source n step (Adds Q n)) (turns : Nat) :
    ∀ n, Boundary source n → source.length < n + turns →
      Repeats step (cursorAt source n) (manyFrom step turns (cursorAt source n)) := by
  induction turns with
  | zero => exact fun n hn hlt => absurd hn.le (by omega)
  | succ turns ih =>
    intro n hn hlt
    have hgoes := hstep n hn
    unfold Goes at hgoes
    rw [manyFrom]
    change Repeats step _ (EStateM.bind _ _ _)
    unfold EStateM.bind
    cases hresult : step (cursorAt source n) with
    | error e last => exact .fail hresult
    | ok o next =>
      rw [hresult] at hgoes
      obtain ⟨m, rfl, hm, ho⟩ := hgoes
      cases o with
      | none => exact .stop hresult
      | some a =>
        -- The turn has read something, so one turn less still covers what lies ahead.
        have hnm : n < m := ho.1
        have hrest := ih m hm (by omega)
        change Repeats step _ (EStateM.bind (manyFrom step turns) _ _)
        unfold EStateM.bind
        cases hmany : manyFrom step turns (cursorAt source m) with
        | ok as last =>
          rw [hmany] at hrest
          exact .next hresult hrest
        | error e last =>
          rw [hmany] at hrest
          exact .abort hresult hrest

/-- Each turn reads something, so there are no more turns than bytes. -/
theorem repeats_many {step : ScanM (Option α)} {Q : Nat → List α → Nat → Prop}
    (hstep : ∀ n, Boundary source n → Goes source n step (Adds Q n)) (hn : Boundary source n) :
    Repeats step (cursorAt source n) (many step (cursorAt source n)) := by
  refine repeats_manyFrom hstep _ n hn ?_
  change source.length < n + ((source.drop n).length + 1)
  rw [List.length_drop]
  omega

/-- The parts of a file, by turns without a bound. -/
inductive FileRead (g : Nested) : Cursor → List Tree → Prop
  | last {start stop : Cursor} (h : start.nextTemplate = (false, stop)) :
    FileRead g start
      (if start.pos < stop.pos then [Tree.leaf .hostText (stop.spanFrom start.pos)] else [])
  | turn {start root : Cursor} {items : List Tree} (h : start.nextTemplate = (true, root))
    (rest : FileRead g (rootOrError g root).2 items) :
    FileRead g start
      ((if start.pos < root.pos then [Tree.leaf .hostText (root.spanFrom start.pos)] else []) ++
        (rootOrError g root).1 :: items)

theorem fileRead_fileItems {g : Nested} (hg : SitedNested source g) (turns : Nat) :
    ∀ n, Boundary source n → source.length < n + turns →
      FileRead g (cursorAt source n) (fileItems g turns (cursorAt source n)) := by
  induction turns with
  | zero => exact fun n hn hlt => absurd hn.le (by omega)
  | succ turns ih =>
    intro n hn hlt
    obtain ⟨m, hnm, hm, hnext⟩ := nextTemplate_at hn
    unfold fileItems
    rcases hfound : (cursorAt source n).nextTemplate with ⟨found, c⟩
    rw [hfound] at hnext
    obtain rfl : c = cursorAt source m := hnext
    cases found with
    | false => exact .last hfound
    | true =>
      obtain ⟨l, hbehind, hl, hroot⟩ := rootOrError_whole hg hm (atTemplate_of_nextTemplate hfound)
      have hml := hroot.lt
      have hrest := ih l hl (by omega)
      rw [← hbehind] at hrest
      exact .turn hfound hrest

/-! ## Where reading comes -/

theorem goes_opensBody (flow : FlowKind) (hn : Boundary source n) :
    Goes source n (opensBody flow) fun _ _ => True := by
  have hlook : ∀ m, Boundary source m → Goes source m (do
      let c ← get
      return c.atTemplate || c.peek = some (ascii '\x7b')) fun _ _ => True :=
    fun m hm => .get (.pure hm trivial)
  have hloop : ∀ m, Boundary source m → Goes source m (do
      if flow = .whileLoop then
        if ← eat ":" then
          skipBlanks
          parens .continueExpr
          skipBlanks
      let c ← get
      return c.atTemplate || c.peek = some (ascii '\x7b')) fun _ _ => True := by
    intro m hm
    refine Goes.ite (fun _ => ?_) fun _ => hlook m hm
    refine (goes_eat hm Surface.utf8_colon (by decide)).bind fun _ a ha _ => ?_
    refine Goes.ite (fun _ => ?_) fun _ => hlook a ha
    refine (goes_skipBlanks ha).bind fun _ b hb _ => (goes_parens hb).bind fun _ c hc _ => ?_
    exact (goes_skipBlanks hc).bind fun _ d hd _ => hlook d hd
  refine (goes_capture hn).bind fun _ a ha _ => Goes.ite (fun _ => ?_) fun _ => hloop a ha
  exact (goes_skipBlanks ha).bind fun _ b hb _ => hloop b hb

theorem goes_opensMarkup {flow : FlowKind} (hn : Boundary source n)
    (hword : (cursorAt source n).atKeyword flow.keyword = true) :
    Goes source n (opensMarkup flow) fun _ _ => True := by
  have hascii : (utf8 flow.keyword).all isAscii = true := by cases flow <;> decide
  refine Goes.modify (cursorAt_skip source n _) ?_
  refine (goes_skipBlanks (hn.keyword hword hascii)).bind fun _ a ha _ => ?_
  refine (goes_parens ha).bind fun _ b hb _ => (goes_skipBlanks hb).bind fun _ c hc _ => ?_
  refine Goes.ite (fun _ => ?_) fun _ => goes_opensBody flow hc
  refine (goes_eat hc Surface.utf8_openBrace (by decide)).bind fun _ d hd _ => ?_
  refine Goes.ite (fun _ => ?_) fun _ => .pure hd trivial
  refine (goes_skipBlanks hd).bind fun _ e he _ => Goes.get ?_
  refine Goes.ite (fun _ => .pure he trivial) fun _ => ?_
  refine (goes_untilArrow he).bind fun _ f hf harrow => ?_
  refine Goes.modify (cursorAt_skip source f 2) ?_
  exact (goes_skipBlanks harrow.2).bind fun _ _ hl _ => goes_opensBody flow hl

/-- What is read at a cursor: the steps of the scanner, and the productions where they are tried.
Spans are those of openings, to which a failure may point. -/
inductive Called (source : Bytes) (g : Nested) : {α : Type} → Cursor → ScanM α → Prop
  | bump {c b} (h : c.peek = some b) (hb : isAscii b = true) :
    Called source g c (modify Cursor.bump)
  | keyword {c} (word : String) (h : c.atKeyword word = true)
    (hword : (utf8 word).all isAscii = true) :
    Called source g c (modify fun c => c.skip (utf8 word).length)
  | skipBlanks {c} : Called source g c skipBlanks
  | eat {c} (text : String) (h : (utf8 text).all isAscii = true) : Called source g c (eat text)
  | ident {c} : Called source g c ident
  | name {c} : Called source g c name
  | capture {c} : Called source g c capture
  | parens {c} (what : Wanted) : Called source g c (parens what)
  | group {c b} (h : c.peek = some b) (hb : (closerOf? b).isSome = true) : Called source g c group
  | untilArrow {c} : Called source g c (untilTopLevel "=>")
  | comment {c} (h : c.startsWith "<!--" = true) : Called source g c comment
  | endTag {c} : Called source g c endTag
  | strayEndTag {c} : Called source g c (strayEndTag : ScanM Tree)
  | text {c b} (h : c.peek = some b) (hb : isTextByte b = true) : Called source g c text
  | templatePiece {c} (start : Nat) (h : Span.Cuts source ⟨start, start + 1⟩) :
    Called source g c (templatePiece (cursorAt source start))
  | templateString {c} (h : c.peek = some (ascii '\x60')) : Called source g c templateString
  | attributeValue {c} : Called source g c (attributeValue g)
  | attributeValue? {c} : Called source g c (attributeValue? g)
  | bracedAttribute {c} (h : c.peek = some (ascii '\x7b')) : Called source g c bracedAttribute
  | attr {c} : Called source g c (attr g)
  | attrOrError {c} (h : c.atEnd = false) : Called source g c (attrOrError g)
  | attr? {c} (opening : Span) (tagName : String) (h : opening.Cuts source) :
    Called source g c (attr? g opening tagName)
  | header {c} (withContinue : Bool) : Called source g c (header withContinue)
  | opensMarkup {c} (flow : FlowKind) (h : c.atKeyword flow.keyword = true) :
    Called source g c (opensMarkup flow)
  | capturedBody {c} : Called source g c (capturedBody (body g))
  | elseIf? {c} : Called source g c (elseIf? (body g))
  | else? {c} : Called source g c (else? (body g))
  | prong? {c} (start : Nat) (h : Span.Cuts source ⟨start, start + 6⟩) :
    Called source g c (prong? (body g) (cursorAt source start))
  | controlFlow {c} (flow : FlowKind) (h : c.atKeyword flow.keyword = true) :
    Called source g c (controlFlow (body g) flow)
  | child? {c} (terminator : Terminator) (opening : Span) (opener : String)
    (h : opening.Cuts source) : Called source g c (child? g terminator opening opener)
  | children {c} (terminator : Terminator) (opening : Span) (opener : String)
    (h : opening.Cuts source) : Called source g c (children g terminator opening opener)
  | rootItem? {c} (start : Nat) (h : Span.Cuts source ⟨start, start + 1⟩) :
    Called source g c (rootItem? g (cursorAt source start))
  | templateRoot {c} : Called source g c (templateRoot g)
  | body {c} : Called source g c (body g)
  | tag {c} (h : c.peek = some (ascii '<')) : Called source g c (tag g)
  | bracesOf {c} (kind : Kind) (hkind : kind = .expressionBlock ∨ kind = .exprValue)
    (h : c.peek = some (ascii '\x7b')) : Called source g c (bracesOf g kind)
  | braces {c} (kind : Kind) (hkind : kind = .expressionBlock ∨ kind = .exprValue)
    (h : c.peek = some (ascii '\x7b')) : Called source g c (braces g kind)

/-- All places that reading a file comes to: behind what was read, behind what could not be
read, and where a reader stopped that failed. -/
inductive Reached (source : Bytes) (g : Nested) : Cursor → Prop
  | start : Reached source g (Cursor.ofBytes source)
  | host {c next : Cursor} {found : Bool} (h : Reached source g c)
    (hnext : c.nextTemplate = (found, next)) : Reached source g next
  | root {c : Cursor} (h : Reached source g c) (hroot : c.atTemplate = true) :
    Reached source g (rootOrError g c).2
  | read {α : Type} {p : ScanM α} {c next : Cursor} {a : α} (h : Reached source g c)
    (hcall : Called source g c p) (hread : p c = .ok a next) : Reached source g next
  | failed {α : Type} {p : ScanM α} {c next : Cursor} {e : ScanError} (h : Reached source g c)
    (hcall : Called source g c p) (hread : p c = .error e next) : Reached source g next

/-- A cursor of the source that stands between two characters. -/
def Inside (source : Bytes) (c : Cursor) : Prop := ∃ n, c = cursorAt source n ∧ Boundary source n

/-- What is read in the source ends there. -/
theorem goes_of_called {g : Nested} (hg : SitedNested source g) {p : ScanM α}
    (h : Called source g (cursorAt source n) p) (hn : Boundary source n) :
    Goes source n p fun _ _ => True := by
  have hbody : ∀ m, Boundary source m → Goes source m (body g) (Tree.Whole source m) :=
    fun _ hm => goes_body hg hm
  cases h with
  | bump h hb =>
    obtain ⟨rest, hdrop⟩ := exists_drop_of_peek h
    rw [← bind_pure (modify Cursor.bump)]
    exact Goes.modify (cursorAt_bump hdrop) (.pure (hn.next hdrop hb) trivial)
  | keyword word h hword =>
    rw [← bind_pure (modify _)]
    exact Goes.modify (cursorAt_skip source n _) (.pure (hn.keyword h hword) trivial)
  | skipBlanks => exact (goes_skipBlanks hn).forget
  | eat text h => exact (goes_eat hn rfl h).forget
  | ident => exact (goes_ident hn).forget
  | name => exact (goes_name hn).forget
  | capture => exact (goes_capture hn).forget
  | parens what => exact (goes_parens hn).forget
  | group h hb =>
    obtain ⟨rest, hdrop⟩ := exists_drop_of_peek h
    rw [← bind_pure group]
    exact Goes.group hn hdrop hb fun m hm _ => .pure hm trivial
  | untilArrow => exact (goes_untilArrow hn).forget
  | comment h =>
    obtain ⟨rest, hdrop⟩ := exists_drop_of_startsWith h
    exact (goes_comment hn hdrop).forget
  | endTag => exact (goes_endTag hn).forget
  | strayEndTag => exact goes_strayEndTag hn
  | text h hb =>
    obtain ⟨rest, hdrop⟩ := exists_drop_of_peek h
    exact (goes_text hn hdrop hb).forget
  | templatePiece start h => exact (goes_templatePiece h hn).forget
  | templateString h =>
    obtain ⟨rest, hdrop⟩ := exists_drop_of_peek h
    exact (goes_templateString hn hdrop).forget
  | attributeValue => exact (goes_attributeValue hg hn).forget
  | attributeValue? => exact (goes_attributeValue? hg hn).forget
  | bracedAttribute h =>
    obtain ⟨rest, hdrop⟩ := exists_drop_of_peek h
    exact (goes_bracedAttribute hn hdrop).forget
  | attr => exact (goes_attr hg hn).forget
  | attrOrError h =>
    obtain ⟨b, rest, hdrop⟩ := exists_drop_of_atEnd h
    exact (goes_attrOrError hg hn hdrop).forget
  | attr? opening tagName h => exact (goes_attr? hg tagName h hn).forget
  | header withContinue => exact (goes_header withContinue hn).forget
  | opensMarkup flow h => exact goes_opensMarkup hn h
  | capturedBody => exact (goes_capturedBody hbody hn).forget
  | elseIf? => exact (goes_elseIf? hbody hn).forget
  | else? => exact (goes_else? hbody hn).forget
  | prong? start h => exact (goes_prong? hbody h hn).forget
  | controlFlow flow h => exact (goes_controlFlow hbody hn h).forget
  | child? terminator opening opener h => exact (goes_child? hg terminator opener h hn).forget
  | children terminator opening opener h => exact (goes_children hg terminator opener h hn).forget
  | rootItem? start h => exact (goes_rootItem? hg h hn).forget
  | templateRoot => exact (goes_templateRoot hg hn).forget
  | body => exact (hbody n hn).forget
  | tag h =>
    obtain ⟨rest, hdrop⟩ := exists_drop_of_peek h
    exact (goes_tag hg hn hdrop).forget
  | bracesOf kind hkind h =>
    obtain ⟨rest, hdrop⟩ := exists_drop_of_peek h
    exact (goes_bracesOf hg hkind hn hdrop).forget
  | braces kind hkind h =>
    obtain ⟨rest, hdrop⟩ := exists_drop_of_peek h
    exact (goes_braces hg hkind hn hdrop).forget

/-- No cursor leaves the source. -/
theorem Reached.inside {g : Nested} (hg : SitedNested source g) (htext : IsText source)
    {c : Cursor} (h : Reached source g c) : Inside source c := by
  induction h with
  | start => exact ⟨0, rfl, .zero htext⟩
  | host _ hnext ih =>
    obtain ⟨n, rfl, hn⟩ := ih
    obtain ⟨m, _, hm, hmoved⟩ := nextTemplate_at hn
    rw [hnext] at hmoved
    exact ⟨m, hmoved, hm⟩
  | root _ hroot ih =>
    obtain ⟨n, rfl, hn⟩ := ih
    obtain ⟨m, hmoved, hm, _⟩ := rootOrError_whole hg hn hroot
    exact ⟨m, hmoved, hm⟩
  | read _ hcall hread ih =>
    obtain ⟨n, rfl, hn⟩ := ih
    have hgoes := goes_of_called hg hcall hn
    rw [Goes, hread] at hgoes
    obtain ⟨m, hmoved, hm, _⟩ := hgoes
    exact ⟨m, hmoved, hm⟩
  | failed _ hcall hread ih =>
    obtain ⟨n, rfl, hn⟩ := ih
    have hgoes := goes_of_called hg hcall hn
    rw [Goes, hread] at hgoes
    obtain ⟨_, m, hmoved, hm⟩ := hgoes
    exact ⟨m, hmoved, hm⟩

/-- A template root, an attribute and a pair of braces leave the cursor strictly behind the place
where they begin, whether they can be read or not. -/
structure Advances (g : Nested) (c : Cursor) : Prop where
  root : c.atTemplate = true → c.pos < (rootOrError g c).2.pos
  attr : c.atEnd = false → ∃ t next, attrOrError g c = .ok t next ∧ c.pos < next.pos
  block : ∀ kind, kind = .expressionBlock ∨ kind = .exprValue → c.peek = some (ascii '\x7b') →
    ∃ t next, braces g kind c = .ok t next ∧ c.pos < next.pos

theorem exists_attrOrError (g : Nested) (c : Cursor) :
    ∃ t next, attrOrError g c = .ok t next := by
  unfold attrOrError
  split
  · exact ⟨_, _, rfl⟩
  · exact ⟨_, _, rfl⟩

theorem exists_braces (g : Nested) (kind : Kind) (c : Cursor) :
    ∃ t next, braces g kind c = .ok t next := by
  unfold braces
  split
  · exact ⟨_, _, rfl⟩
  · exact ⟨_, _, rfl⟩

theorem lt_of_goes {p : ScanM Tree} (h : Goes source n p (Tree.Whole source n))
    (hok : ∃ t next, p (cursorAt source n) = .ok t next) :
    ∃ t next, p (cursorAt source n) = .ok t next ∧ (cursorAt source n).pos < next.pos := by
  obtain ⟨t, next, hok⟩ := hok
  rw [Goes, hok] at h
  obtain ⟨m, rfl, _, hwhole⟩ := h
  exact ⟨t, cursorAt source m, hok, hwhole.lt⟩

theorem advances_of_sited {g : Nested} (hg : SitedNested source g) (hn : Boundary source n) :
    Advances g (cursorAt source n) where
  root htemplate := by
    obtain ⟨m, hmoved, _, hwhole⟩ := rootOrError_whole hg hn htemplate
    rw [hmoved]
    exact hwhole.lt
  attr hmore := by
    obtain ⟨b, rest, hdrop⟩ := exists_drop_of_atEnd hmore
    exact lt_of_goes (goes_attrOrError hg hn hdrop) (exists_attrOrError g _)
  block kind hkind hpeek := by
    obtain ⟨rest, hdrop⟩ := exists_drop_of_peek hpeek
    exact lt_of_goes (goes_braces hg hkind hn hdrop) (exists_braces g kind _)

/-- Every loop of the parser ends by itself. -/
structure LoopsEnd (source : Bytes) (g : Nested) (c : Cursor) : Prop where
  children : ∀ terminator opening opener, opening.Cuts source →
    Repeats (child? g terminator opening opener) c (children g terminator opening opener c)
  rootItems : ∀ start, Span.Cuts source ⟨start, start + 1⟩ →
    Repeats (rootItem? g (cursorAt source start)) c (many (rootItem? g (cursorAt source start)) c)
  attributes : ∀ opening name, opening.Cuts source →
    Repeats (attr? g opening name) c (many (attr? g opening name) c)
  pieces : ∀ start, Span.Cuts source ⟨start, start + 1⟩ →
    Repeats (templatePiece (cursorAt source start)) c
      (many (templatePiece (cursorAt source start)) c)
  elseIfs : Repeats (elseIf? (body g)) c (many (elseIf? (body g)) c)
  prongs : ∀ start, Span.Cuts source ⟨start, start + 6⟩ →
    Repeats (prong? (body g) (cursorAt source start)) c
      (many (prong? (body g) (cursorAt source start)) c)

theorem loopsEnd_of_sited {g : Nested} (hg : SitedNested source g) (hn : Boundary source n) :
    LoopsEnd source g (cursorAt source n) where
  children terminator _ opener hopening :=
    repeats_many (fun _ hm => goes_child? hg terminator opener hopening hm) hn
  rootItems _ hopening := repeats_many (fun _ hm => goes_rootItem? hg hopening hm) hn
  attributes _ name hopening := repeats_many (fun _ hm => goes_attr? hg name hopening hm) hn
  pieces _ hopening := repeats_many (fun _ hm => goes_templatePiece hopening hm) hn
  elseIfs := repeats_many (fun _ hm => goes_elseIf? (fun _ hl => goes_body hg hl) hm) hn
  prongs _ hopening :=
    repeats_many (fun _ hm => goes_prong? (fun _ hl => goes_body hg hl) hopening hm) hn

/-- Parsing needs no bound. The equations of the nested productions have one solution on a source,
which is found at any depth beyond the bytes ahead, and the file is read with it. Wherever reading
comes, it is still in the source, it gets past what it cannot read, and its loops end. -/
theorem parse_unbounded (text : String) : ∃ g : Nested,
    Agree (utf8 text) 0 g (enclose g) ∧
    (∀ h, Agree (utf8 text) 0 h (enclose h) → Agree (utf8 text) 0 h g) ∧
    (∀ bottom depth k, (utf8 text).length < k + depth →
      Agree (utf8 text) k (levels bottom depth) g) ∧
    FileRead g (Cursor.ofBytes (utf8 text)) (parse (utf8 text)).children ∧
    ∀ c, Reached (utf8 text) g c →
      c.pos ≤ (utf8 text).length ∧ c.rest = (utf8 text).drop c.pos ∧ Advances g c ∧
        LoopsEnd (utf8 text) g c := by
  have htext : IsText (utf8 text) := ⟨text, rfl⟩
  have hg := nested_sited (utf8 text) ((utf8 text).length + 1)
  refine ⟨nested ((utf8 text).length + 1), agree_enclose_nested _, fun h hh => ?_,
    fun bottom depth k hk => ?_, ?_, fun c hc => ?_⟩
  · exact (agree_of_enclose hh _ 0 (by omega)).symm
  · exact (agree_levels (utf8 text) bottom _ depth k (by omega) hk).symm
  · exact fileRead_fileItems hg _ 0 (.zero htext) (by omega)
  · obtain ⟨n, rfl, hn⟩ := hc.inside hg htext
    exact ⟨hn.le, rfl, advances_of_sited hg hn, loopsEnd_of_sited hg hn⟩

end Parser

end ZigMarkup
