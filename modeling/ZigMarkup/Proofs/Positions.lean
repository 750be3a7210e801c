import ZigMarkup.Proofs.Surface.Reading

/-!
Where reading takes place. A cursor on a source has the rest of that source ahead of it, and
every step of the reader moves it further on the same source. `Follows` is the rule for steps
put together: it carries this along with what the steps give.
-/
namespace ZigMarkup

/-- A cursor that has the rest of a source ahead of it. -/
structure Cursor.On (source : Bytes) (c : Cursor) : Prop where
  le : c.pos ≤ source.length
  rest : c.rest = source.drop c.pos

/-- A cursor on a source at or behind an offset. -/
structure Cursor.From (source : Bytes) (start : Nat) (c : Cursor) : Prop extends c.On source where
  start_le : start ≤ c.pos

variable {source : Bytes} {start : Nat} {c : Cursor}

namespace Cursor

theorem On.length (h : c.On source) : c.pos + c.rest.length = source.length := by
  have hle := h.le
  rw [h.rest, List.length_drop]
  omega

theorem On.from (h : c.On source) : c.From source c.pos := ⟨h, Nat.le_refl _⟩

theorem From.weaken (h : c.From source start) {earlier : Nat} (hle : earlier ≤ start) :
    c.From source earlier := ⟨h.toOn, Nat.le_trans hle h.start_le⟩

theorem From.skip (h : c.From source start) {count : Nat} (hcount : count ≤ c.rest.length) :
    (c.skip count).From source start := by
  have hlength := h.length
  refine ⟨⟨?_, ?_⟩, Nat.le_trans h.start_le (Nat.le_add_right _ _)⟩
  · change c.pos + count ≤ source.length
    omega
  · change c.rest.drop count = source.drop (c.pos + count)
    rw [h.rest, List.drop_drop]

theorem From.advance (h : c.From source start) (count : Nat) : (c.advance count).From source start :=
  h.skip (Nat.min_le_right _ _)

theorem bump_of_peek {b : UInt8} (h : c.peek = some b) : c.bump = c.skip 1 := by
  obtain ⟨rest, hrest⟩ := List.head?_eq_some_iff.mp h
  unfold Cursor.bump Cursor.advance
  rw [hrest, List.length_cons, Nat.min_eq_left (by omega)]

theorem From.bump (h : c.From source start) : c.bump.From source start := h.advance 1

theorem From.skipWhile (h : c.From source start) (p : UInt8 → Bool) :
    (c.skipWhile p).From source start := h.skip (List.takeWhile_sublist p).length_le

theorem From.skipBlanks (h : c.From source start) : c.skipBlanks.From source start :=
  h.skipWhile isAsciiBlank

/-- Nothing but bytes that lie ahead is passed over where a text begins with them. -/
theorem From.skip_text (h : c.From source start) {text : String} (hstart : c.startsWith text) :
    (c.skip (utf8 text).length).From source start :=
  h.skip (List.IsPrefix.length_le (List.isPrefixOf_iff_prefix.mp hstart))

theorem From.skip_keyword (h : c.From source start) {word : String} (hword : c.atKeyword word) :
    (c.skip (utf8 word).length).From source start := by
  unfold Cursor.atKeyword at hword
  simp only [Bool.and_eq_true] at hword
  exact h.skip_text hword.1

/-- The bytes from a cursor on a source up to an offset. -/
theorem On.slice (h : c.On source) (stop : Nat) :
    Span.slice ⟨c.pos, stop⟩ source = c.rest.take (stop - c.pos) := by
  rw [Span.slice, Span.length, h.rest]

theorem On.skip_eq (h : c.On source) (count : Nat) :
    c.skip count = ⟨c.pos + count, source.drop (c.pos + count)⟩ := by
  rw [Cursor.skip, h.rest, List.drop_drop]

/-- A slice of the source begins with the byte at the cursor. -/
theorem On.head?_slice (h : c.On source) {stop : Nat} (hlt : c.pos < stop) :
    (Span.slice ⟨c.pos, stop⟩ source).head? = c.peek := by
  rw [h.slice, List.head?_take, if_neg (by omega), Cursor.peek]

end Cursor

/-! ## How far a walk goes -/

section Walk

variable {σ α : Type} {visit : σ → Nat → UInt8 → Bytes → Move σ α} {finish : σ → Nat → α}

/-- What holds wherever a walk through `whole` may stop, and at the end, holds of its result. -/
theorem walk_induction {P : α → Prop} {whole : Bytes}
    (hstop : ∀ state offset b rest result, whole.drop offset = b :: rest →
      visit state offset b rest = .stop result → P result)
    (hfinish : ∀ state, P (finish state whole.length)) (state : σ) :
    P (walk visit finish state whole) := by
  -- The walk is always at a place of `whole`, with what follows that place ahead of it.
  suffices h : ∀ (text : Bytes) (skip : Nat) (state : σ) (offset : Nat),
      offset + text.length = whole.length → whole.drop offset = text →
        P (walkFrom visit finish skip state offset text) from
    h whole 0 state 0 (Nat.zero_add _) rfl
  intro text
  induction text with
  | nil =>
    intro skip state offset hoffset _
    have hend : offset = whole.length := hoffset
    rw [hend]
    cases skip <;> exact hfinish state
  | cons b rest ih =>
    intro skip state offset hoffset htext
    have hlater : offset + 1 + rest.length = whole.length := by
      rw [List.length_cons] at hoffset
      omega
    have hrest : whole.drop (offset + 1) = rest := by
      rw [← List.drop_drop, htext]
      rfl
    cases skip with
    | succ skip => exact ih skip state (offset + 1) hlater hrest
    | zero =>
      unfold walkFrom
      split
      · next result hvisit => exact hstop state offset b rest result htext hvisit
      · exact ih _ _ (offset + 1) hlater hrest

theorem lt_of_drop_eq_cons {whole rest : Bytes} {offset : Nat} {b : UInt8}
    (h : whole.drop offset = b :: rest) : offset < whole.length := by
  have hlength := congrArg List.length h
  simp only [List.length_drop, List.length_cons] at hlength
  omega

end Walk

/-- A measured length that does not reach past the end of its text. -/
def Within (total : Nat) : Except Failure Nat → Prop
  | .ok length => length ≤ total
  | .error _ => True

/-- A group ends behind one of the bytes of its text. -/
theorem groupLength_bounds {text : Bytes} {length : Nat} (h : groupLength text = .ok length) :
    0 < length ∧ length ≤ text.length := by
  revert h
  refine walk_induction (P := fun r => r = Except.ok length → 0 < length ∧ length ≤ text.length)
    (fun state offset b rest result hrest hvisit => ?_) (fun _ h => by cases h) []
  rintro rfl
  have hlt := lt_of_drop_eq_cons hrest
  unfold groupVisit at hvisit
  split at hvisit
  · cases hvisit
  · cases hvisit
  · split at hvisit
    · cases hvisit
    · split at hvisit
      · split at hvisit
        · cases hvisit
        · split at hvisit
          · split at hvisit
            · cases hvisit
              omega
            · cases hvisit
          · cases hvisit
      · cases hvisit

theorem groupLength_within (text : Bytes) : Within text.length (groupLength text) := by
  cases h : groupLength text with
  | ok length => exact (groupLength_bounds h).2
  | error _ => trivial

/-- What was looked for lies at the measured distance. -/
theorem lengthUntil_finds {needle : Bytes} (hne : needle ≠ []) {text : Bytes} {length : Nat}
    (h : lengthUntil needle text = .ok length) :
    length ≤ text.length ∧ needle.isPrefixOf (text.drop length) := by
  have hempty : needle.isEmpty = false := by simpa using hne
  revert h
  refine walk_induction (P := fun r => r = Except.ok length → length ≤ text.length ∧
    needle.isPrefixOf (text.drop length)) (fun state offset b rest result hrest hvisit => ?_)
    (fun _ => ?_) ()
  · unfold untilVisit at hvisit
    split at hvisit
    · next hprefix =>
      rintro rfl
      cases hvisit
      rw [hrest]
      exact ⟨Nat.le_of_lt (lt_of_drop_eq_cons hrest), hprefix⟩
    · rintro rfl
      split at hvisit
      · cases hvisit
      · cases hvisit
      · split at hvisit
        · split at hvisit <;> cases hvisit
        · split at hvisit <;> cases hvisit
  · rw [hempty]
    intro h
    cases h

theorem quotedTail_within (quote : UInt8) (text : Bytes) :
    (quotedTail quote text).length ≤ text.length := by
  fun_induction quotedTail quote text with
  | case1 => simp
  | case2 => simp
  | case3 => simp_all; omega
  | case4 => simp
  | case5 => simp
  | case6 => simp_all; omega

theorem stringLength_within (text : Bytes) : Within text.length (stringLength text) := by
  unfold stringLength
  dsimp only
  split
  · change (quotedToken (ascii '"') text).length ≤ text.length
    cases text with
    | nil => simp [quotedToken]
    | cons b rest => simpa [quotedToken] using quotedTail_within (ascii '"') rest
  · trivial

theorem captureLength_le {text : Bytes} {length : Nat}
    (h : captureLength text = .ok (some length)) : length ≤ text.length := by
  unfold captureLength at h
  split at h
  · cases h
  · next b rest =>
    split at h
    · dsimp only at h
      split at h
      · next hbar =>
        cases h
        have hlt := (List.getElem?_eq_some_iff.mp hbar).1
        rw [List.length_cons]
        omega
      · cases h
    · cases h

theorem attributeRest_le (text : Bytes) : Parser.attributeRest text ≤ text.length := by
  refine walk_induction (P := (· ≤ text.length))
    (fun state offset b rest result hrest hvisit => ?_) (fun _ => Nat.le_refl _) ()
  have hlt := lt_of_drop_eq_cons hrest
  unfold Parser.attributeRestVisit at hvisit
  split at hvisit
  · cases hvisit
    omega
  · split at hvisit
    · split at hvisit <;> cases hvisit
    · cases hvisit

namespace ScanM

variable {α β : Type} {P : α → Prop}

/-- Begun at a cursor on the source at or behind `start`, reading ends in such a cursor and
gives what `P` says. -/
def Follows (source : Bytes) (start : Nat) (p : ScanM α) (P : α → Prop) : Prop :=
  ∀ c a next, c.From source start → p c = .ok a next → next.From source start ∧ P a

theorem Follows.pure {a : α} (h : P a) : Follows source start (pure a) P := by
  intro c a' next hc ha
  cases ha
  exact ⟨hc, h⟩

theorem Follows.bind {x : ScanM α} {f : α → ScanM β} {Q : α → Prop} {P : β → Prop}
    (hx : Follows source start x Q) (hf : ∀ a, Q a → Follows source start (f a) P) :
    Follows source start (x >>= f) P := by
  intro c b next hc h
  obtain ⟨a, mid, ha, hb⟩ := ok_of_bind h
  obtain ⟨hmid, hQ⟩ := hx c a mid hc ha
  exact hf a hQ mid b next hmid hb

theorem Follows.mono {p : ScanM α} {Q : α → Prop} (h : Follows source start p P)
    (hPQ : ∀ a, P a → Q a) : Follows source start p Q := by
  intro c a next hc ha
  obtain ⟨hnext, hP⟩ := h c a next hc ha
  exact ⟨hnext, hPQ a hP⟩

theorem Follows.ite {p : Prop} [Decidable p] {x y : ScanM α}
    (hx : p → Follows source start x P) (hy : ¬ p → Follows source start y P) :
    Follows source start (if p then x else y) P := by
  split
  · next h => exact hx h
  · next h => exact hy h

/-- The cursor that a step looks at is on the source. -/
theorem Follows.get {f : Cursor → ScanM α}
    (hf : ∀ c, c.From source start → Follows source start (f c) P) :
    Follows source start (get >>= f) P :=
  fun c a next hc h => hf c hc c a next hc h

theorem follows_get : Follows source start get fun c => c.From source start := by
  intro c a next hc h
  cases h
  exact ⟨hc, hc⟩

theorem Follows.set {f : PUnit → ScanM α} {c : Cursor} (hc : c.From source start)
    (hf : Follows source start (f ⟨⟩) P) : Follows source start (set c >>= f) P :=
  fun _ a next _ h => hf c a next hc h

theorem Follows.modify {f : PUnit → ScanM α} {move : Cursor → Cursor}
    (hmove : ∀ c, c.From source start → (move c).From source start)
    (hf : Follows source start (f ⟨⟩) P) : Follows source start (modify move >>= f) P :=
  fun c a next hc h => hf (move c) a next (hmove c hc) h

theorem Follows.skipBlanks {f : Unit → ScanM α} (hf : Follows source start (f ()) P) :
    Follows source start (skipBlanks >>= f) P :=
  .modify (fun _ hc => hc.skipBlanks) hf

theorem follows_fail (span : Span) (fault : Fault) : Follows source start (fail span fault) P := by
  intro c a next _ h
  cases h

theorem follows_expected (what : Wanted) : Follows source start (expected what) P :=
  .get fun _ _ => follows_fail _ _

theorem follows_read {measure : Bytes → Except Failure Nat}
    (hmeasure : ∀ text, Within text.length (measure text)) :
    Follows source start (read measure) fun _ => True := by
  intro c a next hc h
  have hwithin := hmeasure c.rest
  unfold ScanM.read at h
  split at h
  · next length hlength =>
    cases h
    rw [hlength] at hwithin
    exact ⟨hc.skip hwithin, trivial⟩
  · cases h

theorem follows_string : Follows source start string fun _ => True := follows_read stringLength_within

theorem follows_group : Follows source start group fun _ => True := follows_read groupLength_within

theorem group_ok {u : Unit} {next : Cursor} (hc : c.On source) (h : group c = .ok u next) :
    next.From source (c.pos + 1) := by
  have hnext := (follows_group c u next hc.from h).1
  refine ⟨hnext.toOn, ?_⟩
  unfold group read at h
  split at h
  · next length hlength =>
    cases h
    exact Nat.add_le_add_left (groupLength_bounds hlength).1 c.pos
  · cases h

theorem untilTopLevel_ok {needle : String} (hne : utf8 needle ≠ []) {u : Unit} {next : Cursor}
    (hc : c.From source start) (h : untilTopLevel needle c = .ok u next) :
    next.From source start ∧ next.startsWith needle := by
  unfold untilTopLevel ScanM.read at h
  split at h
  · next length hlength =>
    cases h
    obtain ⟨hle, hprefix⟩ := lengthUntil_finds hne hlength
    exact ⟨hc.skip hle, hprefix⟩
  · cases h

theorem follows_eat (text : String) : Follows source start (eat text) fun _ => True := by
  intro c found next hc h
  rw [eat_eq] at h
  cases h
  split
  · next hstart => exact ⟨hc.skip_text hstart, trivial⟩
  · exact ⟨hc, trivial⟩

theorem follows_expect (text : String) (what : Wanted) :
    Follows source start (expect text what) fun _ => True := by
  intro c u next hc h
  obtain ⟨hstart, rfl⟩ := expect_ok h
  exact ⟨hc.skip_text hstart, trivial⟩

theorem follows_capture : Follows source start capture fun _ => True := by
  intro c o next hc h
  unfold capture at h
  split at h
  · cases h
    exact ⟨hc, trivial⟩
  · next length hlength =>
    cases h
    exact ⟨hc.skip (captureLength_le hlength), trivial⟩
  · cases h

/-- A word, read from the source. -/
structure WordAt (source : Bytes) (p : UInt8 → Bool) (span : Span) : Prop where
  head : (span.slice source).head?.any isIdentStart
  bytes : (span.slice source).all p

theorem follows_word {p : UInt8 → Bool} (hp : ∀ b, isIdentStart b = true → p b = true) :
    Follows source start (word p) fun o => ∀ span ∈ o, WordAt source p span := by
  refine Follows.get fun c hc => ?_
  refine Follows.ite (fun hpeek => ?_) fun _ => .pure (by simp)
  refine Follows.set (hc.skipWhile p) (.pure ?_)
  rintro span ⟨rfl⟩
  have hslice : Span.slice ((c.skipWhile p).spanFrom c.pos) source = c.rest.takeWhile p := by
    have hcount : (c.skipWhile p).pos - c.pos = (c.rest.takeWhile p).length := by
      change c.pos + (c.rest.takeWhile p).length - c.pos = _
      omega
    rw [Cursor.spanFrom, hc.slice, hcount]
    exact (List.prefix_iff_eq_take.mp (List.takeWhile_prefix p)).symm
  constructor
  · rw [hslice]
    cases hrest : c.rest with
    | nil => rw [Cursor.peek, hrest] at hpeek; cases hpeek
    | cons b rest =>
      have hb : isIdentStart b = true := by simpa [Cursor.peek, hrest] using hpeek
      rw [List.takeWhile_cons, if_pos (hp b hb)]
      exact hb
  · rw [hslice]
    exact List.all_takeWhile

theorem follows_name :
    Follows source start name fun o => ∀ span ∈ o, WordAt source isNameByte span :=
  follows_word fun b hb => by simp [isNameByte, isIdentByte, hb]

theorem follows_ident :
    Follows source start ident fun o => ∀ span ∈ o, WordAt source isIdentByte span :=
  follows_word fun b hb => by simp [isIdentByte, hb]

theorem follows_manyFrom {step : ScanM (Option α)}
    (h : Follows source start step fun o => ∀ a ∈ o, P a) (n : Nat) :
    Follows source start (manyFrom step n) fun as => ∀ a ∈ as, P a := by
  induction n with
  | zero => exact .get fun _ _ => follows_fail _ _
  | succ n ih =>
    refine Follows.bind h fun o ho => ?_
    cases o with
    | none => exact .pure (by simp)
    | some a =>
      refine ih.bind fun as has => .pure ?_
      intro b hb
      rcases List.mem_cons.mp hb with rfl | hb
      · exact ho b rfl
      · exact has b hb

theorem follows_many {step : ScanM (Option α)}
    (h : Follows source start step fun o => ∀ a ∈ o, P a) :
    Follows source start (many step) fun as => ∀ a ∈ as, P a :=
  .get fun _ _ => follows_manyFrom h _

/-- A repetition ends with a step that finds nothing more. -/
theorem exists_last_of_manyFrom {step : ScanM (Option α)} {n : Nat} {c next : Cursor} {as : List α}
    (hstep : Follows source start step fun _ => True) (hc : c.From source start)
    (h : manyFrom step n c = .ok as next) :
    ∃ last, last.From source start ∧ step last = .ok none next := by
  induction n generalizing c as with
  | zero => cases h
  | succ n ih =>
    obtain ⟨o, mid, ho, h⟩ := ok_of_bind h
    cases o with
    | none =>
      cases h
      exact ⟨c, hc, ho⟩
    | some a =>
      obtain ⟨rest, _, hrest, h⟩ := ok_of_bind h
      cases h
      exact ih (hstep c _ mid hc ho).1 hrest

end ScanM

end ZigMarkup
