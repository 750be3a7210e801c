import ZigMarkup.Proofs.Spelling
import ZigMarkup.Proofs.Tokens

/-!
Boundaries between the characters of a text. Bytes may be cut next to any byte below 128, and what
the scanner measures always ends at such a byte or at the end of the text, so every offset it
gives is a boundary, also the offsets in its failures.
-/
namespace ZigMarkup

/-- Bytes that are the form of a text. -/
def IsText (bytes : Bytes) : Prop := ∃ s : String, bytes = utf8 s

theorem isContinuation_iff {b : UInt8} :
    isContinuation b = true ↔ 128 ≤ b.toNat ∧ b.toNat < 192 := by
  simp only [isContinuation, Bool.and_eq_true, decide_eq_true_eq, UInt8.le_iff_toNat_le,
    UInt8.lt_iff_toNat_lt]
  rfl

theorem sequenceLength_eq (b : UInt8) : sequenceLength b =
    if b.toNat < 128 then 1 else if b.toNat < 224 then 2 else if b.toNat < 240 then 3 else 4 := by
  simp only [sequenceLength, UInt8.lt_iff_toNat_lt]
  rfl

/-- A character is one byte that tells its length, and bytes that continue it. -/
structure CharForm (lead : UInt8) (more : Bytes) : Prop where
  begins : isContinuation lead = false
  continues : ∀ b ∈ more, isContinuation b = true
  length : sequenceLength lead = more.length + 1

theorem utf8EncodeChar_form (c : Char) :
    ∃ lead more, String.utf8EncodeChar c = lead :: more ∧ CharForm lead more := by
  have hmax : c.val.toNat < 0x110000 := by
    have hvalid := c.valid
    unfold UInt32.isValidChar Nat.isValidChar at hvalid
    omega
  unfold String.utf8EncodeChar
  dsimp only
  split
  · next h =>
    refine ⟨_, _, rfl, ?_, by simp, ?_⟩
    · rw [Bool.eq_false_iff, ne_eq, isContinuation_iff, UInt8.toNat_ofNat']
      omega
    · rw [sequenceLength_eq, UInt8.toNat_ofNat', if_pos (by omega)]
      rfl
  split
  · next h =>
    refine ⟨_, _, rfl, ?_, ?_, ?_⟩
    · rw [Bool.eq_false_iff, ne_eq, isContinuation_iff, UInt8.toNat_ofNat']
      omega
    · simp only [List.mem_cons, List.not_mem_nil, or_false, forall_eq, isContinuation_iff,
        UInt8.toNat_ofNat']
      omega
    · rw [sequenceLength_eq, UInt8.toNat_ofNat', if_neg (by omega), if_pos (by omega)]
      rfl
  split
  · next h =>
    refine ⟨_, _, rfl, ?_, ?_, ?_⟩
    · rw [Bool.eq_false_iff, ne_eq, isContinuation_iff, UInt8.toNat_ofNat']
      omega
    · simp only [List.mem_cons, List.not_mem_nil, or_false, forall_eq_or_imp, forall_eq,
        isContinuation_iff, UInt8.toNat_ofNat']
      omega
    · rw [sequenceLength_eq, UInt8.toNat_ofNat', if_neg (by omega), if_neg (by omega),
        if_pos (by omega)]
      rfl
  · refine ⟨_, _, rfl, ?_, ?_, ?_⟩
    · rw [Bool.eq_false_iff, ne_eq, isContinuation_iff, UInt8.toNat_ofNat']
      omega
    · simp only [List.mem_cons, List.not_mem_nil, or_false, forall_eq_or_imp, forall_eq,
        isContinuation_iff, UInt8.toNat_ofNat']
      omega
    · rw [sequenceLength_eq, UInt8.toNat_ofNat', if_neg (by omega), if_neg (by omega),
        if_neg (by omega)]
      rfl

namespace IsText

theorem nil : IsText [] := ⟨"", rfl⟩

theorem chars (cs : List Char) : IsText (cs.flatMap String.utf8EncodeChar) :=
  ⟨String.ofList cs, (utf8_ofList cs).symm⟩

theorem append {a b : Bytes} (ha : IsText a) (hb : IsText b) : IsText (a ++ b) := by
  obtain ⟨s, rfl⟩ := ha
  obtain ⟨t, rfl⟩ := hb
  exact ⟨s ++ t, (utf8_append s t).symm⟩

/-- A text is cut before and behind a byte that is a whole character. -/
theorem cut {a b : Bytes} {x : UInt8} (h : IsText (a ++ x :: b)) (hx : isAscii x) :
    IsText (x :: b) ∧ IsText b := by
  obtain ⟨s, hs⟩ := h
  obtain ⟨left, right, _, _, hx', hright⟩ := exists_cut hx hs.symm
  refine ⟨⟨asciiText x ++ right, ?_⟩, right, hright.symm⟩
  rw [utf8_append, hx', hright]
  rfl

/-- The first character of a text that has one. -/
theorem head {b : UInt8} {rest : Bytes} (h : IsText (b :: rest)) :
    ∃ (c : Char) (more after : Bytes), rest = more ++ after ∧
      String.utf8EncodeChar c = b :: more ∧ CharForm b more ∧ IsText after := by
  obtain ⟨s, hs⟩ := h
  unfold utf8 at hs
  cases hlist : s.toList with
  | nil =>
    rw [hlist] at hs
    cases hs
  | cons c cs =>
    obtain ⟨lead, more, hform, hchar⟩ := utf8EncodeChar_form c
    rw [hlist, List.flatMap_cons, hform, List.cons_append] at hs
    obtain ⟨rfl, rfl⟩ := List.cons.inj hs
    exact ⟨c, more, _, rfl, hform, hchar, chars cs⟩

theorem head_begins {b : UInt8} {rest : Bytes} (h : IsText (b :: rest)) :
    isContinuation b = false := by
  obtain ⟨_, _, _, _, _, hchar, _⟩ := h.head
  exact hchar.begins

private theorem before_chars (cs : List Char) : ∀ {a b : Bytes},
    cs.flatMap String.utf8EncodeChar = a ++ b → (∀ x ∈ b.head?, isContinuation x = false) →
      ∃ left : List Char, a = left.flatMap String.utf8EncodeChar := by
  induction cs with
  | nil =>
    intro a b h _
    obtain ⟨rfl, _⟩ := List.append_eq_nil_iff.mp h.symm
    exact ⟨[], rfl⟩
  | cons c cs ih =>
    intro a b h hb
    rw [List.flatMap_cons] at h
    rcases List.append_eq_append_iff.mp h with ⟨rest, rfl, hrest⟩ | ⟨rest, hc, rfl⟩
    · obtain ⟨left, rfl⟩ := ih hrest hb
      exact ⟨c :: left, rfl⟩
    · obtain ⟨lead, more, hform, hchar⟩ := utf8EncodeChar_form c
      rw [hform] at hc
      cases a with
      | nil => exact ⟨[], rfl⟩
      | cons x a =>
        obtain ⟨rfl, rfl⟩ := List.cons.inj hc
        cases rest with
        | nil => exact ⟨[c], by simp [hform]⟩
        | cons y rest =>
          -- The rest would begin inside a character.
          have hbegins := hb y rfl
          rw [hchar.continues y (by simp)] at hbegins
          cases hbegins

/-- What stands in a text before the beginning of a character is a text. -/
theorem before_char {a b : Bytes} (h : IsText (a ++ b))
    (hb : ∀ x ∈ b.head?, isContinuation x = false) : IsText a := by
  obtain ⟨s, hs⟩ := h
  obtain ⟨left, rfl⟩ := before_chars s.toList hs.symm hb
  exact chars left

/-- What stands in a text before another one is a text. -/
theorem before {a b : Bytes} (h : IsText (a ++ b)) (hb : IsText b) : IsText a := by
  refine h.before_char fun x hx => ?_
  cases b with
  | nil => cases hx
  | cons y b =>
    obtain rfl := Option.some.inj hx
    exact hb.head_begins

theorem utf8_decode {bytes : Bytes} (h : IsText bytes) : utf8 (decode bytes) = bytes := by
  obtain ⟨s, rfl⟩ := h
  rw [decode_utf8]

end IsText

/-- An offset of a text at which a character begins, or its end. -/
structure Boundary (source : Bytes) (n : Nat) : Prop where
  le : n ≤ source.length
  text : IsText (source.drop n)

/-- A span between two boundaries. -/
structure Span.Cuts (source : Bytes) (span : Span) : Prop where
  le : span.start ≤ span.stop
  start : Boundary source span.start
  stop : Boundary source span.stop

namespace Boundary

variable {source : Bytes} {n m : Nat}

theorem zero (h : IsText source) : Boundary source 0 := ⟨Nat.zero_le _, h⟩

theorem length (source : Bytes) : Boundary source source.length :=
  ⟨Nat.le_refl _, by rw [List.drop_length]; exact .nil⟩

theorem point (h : Boundary source n) : (Span.point n).Cuts source := ⟨Nat.le_refl _, h, h⟩

theorem max (hn : Boundary source n) (hm : Boundary source m) : Boundary source (max n m) := by
  rcases Nat.le_total n m with h | h
  · rwa [Nat.max_eq_right h]
  · rwa [Nat.max_eq_left h]

theorem isBoundary (h : Boundary source n) : isBoundary source n = true := by
  unfold ZigMarkup.isBoundary
  cases hdrop : source.drop n with
  | nil =>
    have hle := h.le
    have hlength := List.drop_eq_nil_iff.mp hdrop
    exact beq_iff_eq.mpr (by omega)
  | cons b rest =>
    have hbegins := (hdrop ▸ h.text : IsText (b :: rest)).head_begins
    simp [hbegins]

/-- Boundaries are found in what lies ahead of another one. -/
theorem shift (hn : Boundary source n) {k : Nat} (hk : Boundary (source.drop n) k) :
    Boundary source (n + k) := by
  have hle := hn.le
  have hk' := hk.le
  rw [List.length_drop] at hk'
  refine ⟨by omega, ?_⟩
  rw [← List.drop_drop]
  exact hk.text

/-- Next to a byte that is a whole character there are two boundaries. -/
theorem of_ascii (h : IsText source) {b : UInt8} {rest : Bytes} (hdrop : source.drop n = b :: rest)
    (hb : isAscii b) : Boundary source n ∧ Boundary source (n + 1) := by
  have hlt := lt_of_drop_eq_cons hdrop
  have hsplit : source = source.take n ++ b :: rest := by rw [← hdrop, List.take_append_drop]
  obtain ⟨hhere, hnext⟩ := (hsplit ▸ h : IsText (source.take n ++ b :: rest)).cut hb
  refine ⟨⟨by omega, by rwa [hdrop]⟩, by omega, ?_⟩
  rw [← List.drop_drop, hdrop]
  exact hnext

theorem of_getElem? (h : IsText source) {b : UInt8} (hget : source[n]? = some b)
    (hb : isAscii b) : Boundary source n ∧ Boundary source (n + 1) := by
  obtain ⟨hlt, hget⟩ := List.getElem?_eq_some_iff.mp hget
  have hdrop : source.drop n = b :: source.drop (n + 1) := by
    rw [← hget]
    exact List.drop_eq_getElem_cons hlt
  exact of_ascii h hdrop hb

end Boundary

theorem Span.Cuts.shift {source : Bytes} {span : Span} {n : Nat} (hn : Boundary source n)
    (h : span.Cuts (source.drop n)) : Span.Cuts source ⟨n + span.start, n + span.stop⟩ :=
  ⟨Nat.add_le_add_left h.le n, hn.shift h.start, hn.shift h.stop⟩

theorem Span.drop_start (span : Span) (source : Bytes) (h : span.start ≤ span.stop) :
    source.drop span.start = span.slice source ++ source.drop span.stop := by
  have hsplit := List.take_append_drop (span.stop - span.start) (source.drop span.start)
  rw [List.drop_drop, show span.start + (span.stop - span.start) = span.stop by omega] at hsplit
  exact hsplit.symm

theorem Span.slice_append (source : Bytes) {n k m : Nat} (hnk : n ≤ k) (hkm : k ≤ m) :
    Span.slice ⟨n, m⟩ source = Span.slice ⟨n, k⟩ source ++ Span.slice ⟨k, m⟩ source := by
  simp only [Span.slice, Span.length]
  rw [show m - n = (k - n) + (m - k) by omega, List.take_add, List.drop_drop,
    show n + (k - n) = k by omega]

theorem Span.length_slice {source : Bytes} {n m : Nat} (hnm : n ≤ m) (hm : m ≤ source.length) :
    (Span.slice ⟨n, m⟩ source).length = m - n := by
  simp only [Span.slice, Span.length, List.length_take, List.length_drop]
  omega

theorem Span.mem_slice {source : Bytes} {a b i : Nat} {x : UInt8} (hai : a ≤ i) (hib : i < b)
    (hx : source[i]? = some x) : x ∈ Span.slice ⟨a, b⟩ source := by
  refine List.mem_of_getElem? (i := i - a) ?_
  rw [Span.slice, Span.length, List.getElem?_take_of_lt (show i - a < b - a by omega),
    List.getElem?_drop, Nat.add_sub_cancel' hai]
  exact hx

theorem Span.Cuts.isText_slice {source : Bytes} {span : Span} (h : span.Cuts source) :
    IsText (span.slice source) := by
  have htext := h.start.text
  rw [span.drop_start source h.le] at htext
  exact htext.before h.stop.text

/-! ## Bytes that are whole characters -/

theorem isAscii_of_blank {b : UInt8} (h : isAsciiBlank b = true) : isAscii b = true := by
  rcases Surface.blank_cases h with rfl | rfl | rfl | rfl | rfl <;> decide

theorem isAscii_of_closer {b : UInt8} (h : isCloser b = true) : isAscii b = true := by
  simp only [isCloser, Bool.or_eq_true, decide_eq_true_eq] at h
  rcases h with (rfl | rfl) | rfl <;> decide

theorem isAscii_of_nameByte {b : UInt8} (h : isNameByte b = true) : isAscii b = true := by
  simp only [isNameByte, isIdentByte, isIdentStart, Bool.or_eq_true, Bool.and_eq_true,
    decide_eq_true_eq, beq_iff_eq, UInt8.le_iff_toNat_le] at h
  have hz : (ascii 'z').toNat = 122 := rfl
  have hZ : (ascii 'Z').toNat = 90 := rfl
  have h9 : (ascii '9').toNat = 57 := rfl
  rw [isAscii, decide_eq_true_eq]
  rcases h with ((((((h | h) | rfl) | h) | rfl) | rfl) | rfl)
  all_goals first
    | omega
    | decide

/-- Behind whole characters of one byte there is a boundary. -/
theorem boundary_of_ascii_run {run rest : Bytes} (h : IsText (run ++ rest))
    (hrun : ∀ b ∈ run, isAscii b = true) : Boundary (run ++ rest) run.length := by
  refine ⟨by simp, ?_⟩
  rw [List.drop_left]
  induction run with
  | nil => exact h
  | cons b run ih =>
    have hnext := (h.cut (a := []) (hrun b List.mem_cons_self)).2
    exact ih hnext fun x hx => hrun x (List.mem_cons_of_mem _ hx)

theorem boundary_takeWhile {p : UInt8 → Bool} (hp : ∀ b, p b = true → isAscii b = true)
    {text : Bytes} (h : IsText text) : Boundary text (text.takeWhile p).length := by
  have hsplit : text.takeWhile p ++ text.dropWhile p = text := List.takeWhile_append_dropWhile
  have hrun := boundary_of_ascii_run (hsplit.symm ▸ h) fun b hb =>
    hp b (List.all_eq_true.mp List.all_takeWhile b hb)
  rwa [hsplit] at hrun

/-- A search that stops only at whole characters of one byte stops at a boundary. -/
theorem boundary_before {p : UInt8 → Bool} (hp : ∀ b, p b = false → isAscii b = true)
    {text : Bytes} (h : IsText text) : Boundary text (text.takeWhile p).length := by
  have hsplit : text.takeWhile p ++ text.dropWhile p = text := List.takeWhile_append_dropWhile
  have hdrop : text.drop (text.takeWhile p).length = text.dropWhile p :=
    Cursor.skipWhile_rest p ⟨0, text⟩
  cases hrest : text.dropWhile p with
  | nil =>
    rw [hrest, List.append_nil] at hsplit
    rw [hsplit]
    exact .length text
  | cons b rest =>
    exact (Boundary.of_ascii h (hdrop.trans hrest) (hp b (eq_false_of_dropWhile hrest))).1

theorem headChar?_append (c : Char) (after : Bytes) :
    headChar? (String.utf8EncodeChar c ++ after) = some c := by
  obtain ⟨lead, more, hform, hchar⟩ := utf8EncodeChar_form c
  have hbytes : lead :: more = utf8 (String.ofList [c]) := by
    rw [utf8_ofList]
    simp [hform]
  rw [hform]
  change (decode (lead :: (more ++ after).take (sequenceLength lead - 1))).toList.head? = some c
  rw [hchar.length, Nat.add_sub_cancel, List.take_left, hbytes, decode_utf8, String.toList_ofList]
  rfl

/-- The character that a text begins with is as long as its form. -/
theorem boundary_headChar {b : UInt8} {rest : Bytes} (h : IsText (b :: rest)) :
    ∃ c, headChar? (b :: rest) = some c ∧ 0 < c.utf8Size ∧ Boundary (b :: rest) c.utf8Size := by
  obtain ⟨c, more, after, rfl, hform, hchar, hafter⟩ := h.head
  have hsize : c.utf8Size = (b :: more).length := by
    rw [← String.length_utf8EncodeChar, hform]
  refine ⟨c, ?_, c.utf8Size_pos, ?_, ?_⟩
  · rw [← List.cons_append, ← hform]
    exact headChar?_append c after
  · rw [hsize]
    simp
  · rw [hsize, ← List.cons_append, List.drop_left]
    exact hafter

/-! ## Measures -/

/-- What a measure finds in a text, or how it fails there, keeps to boundaries. -/
def Bounded (text : Bytes) : Except Failure Nat → Prop
  | .ok length => Boundary text length
  | .error failure => failure.span.Cuts text ∧ Boundary text failure.reached

theorem quotedTail_open {quote : UInt8} {text : Bytes}
    (h : (quotedTail quote text).closed = false) :
    (quotedTail quote text).length = text.length ∨
      text[(quotedTail quote text).length]? = some (ascii '\n') := by
  fun_induction quotedTail quote text with
  | case1 => exact .inl rfl
  | case2 => exact .inl rfl
  | case3 taken rest tail ih => simpa using ih h
  | case4 => cases h
  | case5 => exact .inr rfl
  | case6 b rest _ _ _ tail ih => simpa using ih h

/-- A quoted token ends behind its quote, or where its line does. -/
theorem boundary_quoted {quote : UInt8} {rest : Bytes} (hquote : isAscii quote = true)
    (h : IsText (quote :: rest)) :
    Boundary (quote :: rest) ((quotedTail quote rest).length + 1) := by
  cases hclosed : (quotedTail quote rest).closed with
  | true =>
    obtain ⟨hpos, hlast⟩ := quotedTail_closed hclosed
    have hget : (quote :: rest)[(quotedTail quote rest).length]? = some quote := by
      rw [← hlast, show (quotedTail quote rest).length = (quotedTail quote rest).length - 1 + 1 by omega]
      rfl
    exact (Boundary.of_getElem? h hget hquote).2
  | false =>
    rcases quotedTail_open hclosed with hend | hline
    · rw [hend]
      exact .length (quote :: rest)
    · have hget : (quote :: rest)[(quotedTail quote rest).length + 1]? = some (ascii '\n') := hline
      exact (Boundary.of_getElem? h hget (by decide)).1

theorem broken_cases {b : UInt8} {rest : Bytes} {length : Nat} (h : lexeme b rest = .broken length) :
    b = ascii '"' ∧ length = (quotedTail b rest).length + 1 := by
  unfold lexeme at h
  split at h
  · cases h
  split at h
  · next hquote =>
    dsimp only at h
    split at h
    · cases h
    · cases h
      exact ⟨hquote, rfl⟩
  split at h <;> cases h

theorem stringLength_bounded {text : Bytes} (h : IsText text)
    (hquote : text.head? = some (ascii '"')) : Bounded text (stringLength text) := by
  obtain ⟨rest, rfl⟩ := List.head?_eq_some_iff.mp hquote
  have hend := boundary_quoted (by decide) h
  unfold stringLength
  dsimp only
  split
  · exact hend
  · exact ⟨⟨Nat.zero_le _, .zero h, hend⟩, hend⟩

/-- A string that its line breaks off, met at an offset. -/
theorem broken_bounded {text rest : Bytes} {b : UInt8} {offset length : Nat} (h : IsText text)
    (hdrop : text.drop offset = b :: rest) (hbroken : lexeme b rest = .broken length) :
    Bounded text (.error ⟨⟨offset, offset + length⟩, .unterminatedString, offset + length⟩) := by
  obtain ⟨rfl, rfl⟩ := broken_cases hbroken
  have hstart := (Boundary.of_ascii h hdrop (by decide)).1
  have hstop := hstart.shift (hdrop ▸ boundary_quoted (by decide) (hdrop ▸ hstart.text))
  exact ⟨⟨Nat.le_add_right _ _, hstart, hstop⟩, hstop⟩

theorem groupLength_bounded {text rest : Bytes} {opener : UInt8} (h : IsText text)
    (htext : text = opener :: rest) (hopener : isAscii opener = true) :
    Bounded text (groupLength text) := by
  have hone := Boundary.of_ascii (n := 0) h htext hopener
  refine walk_induction (fun state offset b rest result hdrop hvisit => ?_)
    (fun _ => ⟨⟨Nat.zero_le _, hone.1, hone.2⟩, .length text⟩) []
  have hclosed : ∀ closer, isCloser b = true →
      Bounded text (.error ⟨⟨offset, offset + 1⟩, closer, offset⟩) := by
    intro closer hb
    obtain ⟨hhere, hnext⟩ := Boundary.of_ascii h hdrop (isAscii_of_closer hb)
    exact ⟨⟨Nat.le_succ _, hhere, hnext⟩, hhere⟩
  unfold groupVisit at hvisit
  split at hvisit
  · cases hvisit
  · next hbroken =>
    cases hvisit
    exact broken_bounded h hdrop hbroken
  split at hvisit
  · cases hvisit
  split at hvisit
  · next hb =>
    split at hvisit
    · cases hvisit
      exact hclosed _ hb
    split at hvisit
    · split at hvisit
      · cases hvisit
        exact (Boundary.of_ascii h hdrop (isAscii_of_closer hb)).2
      · cases hvisit
    · cases hvisit
      exact hclosed _ hb
  · cases hvisit

theorem Bounded.shift {text : Bytes} {offset : Nat} {failure : Failure} (hn : Boundary text offset)
    (h : Bounded (text.drop offset) (.error failure)) : Bounded text (.error (failure.shift offset)) :=
  ⟨h.1.shift hn, hn.shift h.2⟩

theorem isAscii_of_opener {b : UInt8} (h : (closerOf? b).isSome = true) : isAscii b = true := by
  unfold closerOf? at h
  split at h
  · next hb => rw [hb]; decide
  split at h
  · next hb => rw [hb]; decide
  split at h
  · next hb => rw [hb]; decide
  · cases h

theorem lengthUntil_bounded {needle text : Bytes} (h : IsText text)
    (hneedle : needle.head?.any isAscii = true) : Bounded text (lengthUntil needle text) := by
  have hne : needle.isEmpty = false := by
    cases needle with
    | nil => cases hneedle
    | cons => rfl
  have hend : Bounded text (untilVisit.missing needle text.length) :=
    ⟨(Boundary.length text).point, .length text⟩
  refine walk_induction (fun state offset b rest result hdrop hvisit => ?_)
    (fun _ => by rw [hne]; exact hend) ()
  unfold untilVisit at hvisit
  split at hvisit
  · next hfound =>
    cases hvisit
    have hb : isAscii b = true := by
      cases needle with
      | nil => cases hneedle
      | cons x needle =>
        rw [List.isPrefixOf_cons_cons, Bool.and_eq_true, beq_iff_eq] at hfound
        rw [← hfound.1]
        simpa using hneedle
    exact (Boundary.of_ascii h hdrop hb).1
  split at hvisit
  · cases hvisit
  · next hbroken =>
    cases hvisit
    exact broken_bounded h hdrop hbroken
  split at hvisit
  · next hopener =>
    split at hvisit
    · cases hvisit
    · next failure hgroup =>
      cases hvisit
      have hhere := (Boundary.of_ascii h hdrop (isAscii_of_opener hopener)).1
      refine Bounded.shift hhere ?_
      rw [hdrop, ← hgroup]
      exact groupLength_bounded (hdrop ▸ hhere.text) rfl (isAscii_of_opener hopener)
  split at hvisit
  · next hb =>
    cases hvisit
    have hhere := (Boundary.of_ascii h hdrop (isAscii_of_closer hb)).1
    exact ⟨hhere.point, hhere⟩
  · cases hvisit

theorem attributeRest_bounded {text : Bytes} (h : IsText text) :
    Boundary text (Parser.attributeRest text) := by
  refine walk_induction (P := Boundary text) (fun state offset b rest result hdrop hvisit => ?_)
    (fun _ => .length text) ()
  unfold Parser.attributeRestVisit at hvisit
  split at hvisit
  · next hstop =>
    cases hvisit
    refine (Boundary.of_ascii h hdrop ?_).1
    simp only [Bool.or_eq_true, Bool.and_eq_true, decide_eq_true_eq] at hstop
    rcases hstop with (hb | rfl) | ⟨rfl, _⟩
    · exact isAscii_of_blank hb
    · decide
    · decide
  split at hvisit
  · split at hvisit <;> cases hvisit
  · cases hvisit

theorem nextTemplate?_bounded {text : Bytes} {offset : Nat} (h : IsText text)
    (hfound : nextTemplate? text = some offset) : Boundary text offset := by
  obtain ⟨n, hn, hbegin⟩ := Parser.beginsTemplate_of_walk hfound
  obtain rfl : offset = n := by omega
  unfold beginsTemplate at hbegin
  split at hbegin
  · cases hbegin
  · next b rest hdrop =>
    simp only [Bool.and_eq_true, beq_iff_eq] at hbegin
    exact (Boundary.of_ascii h hdrop (by rw [hbegin.1]; decide)).1

theorem indexOf?_isPrefixOf {needle text : Bytes} {found : Nat} (hne : needle ≠ [])
    (h : indexOf? needle text = some found) : needle.isPrefixOf (text.drop found) = true := by
  fun_induction indexOf? needle text generalizing found with
  | case1 hempty => exact absurd (List.isEmpty_iff.mp hempty) hne
  | case2 => cases h
  | case3 b rest hfound =>
    cases h
    exact hfound
  | case4 b rest _ ih =>
    obtain ⟨found, hfound, rfl⟩ := Option.map_eq_some_iff.mp h
    exact ih hfound

/-- A capture between two bars on one line. -/
def IsCapture (bytes : Bytes) : Prop :=
  ∃ inner, bytes = ascii '|' :: inner ++ [ascii '|'] ∧ ascii '|' ∉ inner ∧ ascii '\n' ∉ inner

theorem captureLength_isCapture {text : Bytes} {length : Nat}
    (h : captureLength text = .ok (some length)) : IsCapture (text.take length) := by
  unfold captureLength at h
  split at h
  · cases h
  · next b rest =>
    split at h
    · next hbar =>
      dsimp only at h
      split at h
      · next hlast =>
        cases h
        have hall := List.all_eq_true.mp (List.all_takeWhile
          (p := fun x => x != ascii '|' && x != ascii '\n') (l := rest))
        have htake := (List.prefix_iff_eq_take.mp (List.takeWhile_prefix
          (fun x => x != ascii '|' && x != ascii '\n') (l := rest))).symm
        generalize rest.takeWhile (fun x => x != ascii '|' && x != ascii '\n') = inner at *
        refine ⟨inner, ?_, fun hmem => ?_, fun hmem => ?_⟩
        · rw [hbar, show inner.length + 2 = inner.length + 1 + 1 by rfl, List.take_succ_cons,
            List.take_add_one, hlast, htake]
          rfl
        · exact absurd (hall _ hmem) (by decide)
        · exact absurd (hall _ hmem) (by decide)
      · cases h
    · cases h

/-- A capture ends behind its bar, and one without a second bar where its line does. -/
theorem captureLength_bounded {text : Bytes} (h : IsText text) : ∀ o, captureLength text = o →
    Bounded text (o.map fun length? => length?.getD 0) := by
  rintro o rfl
  unfold captureLength
  split
  · exact .zero h
  · next b rest =>
    split
    · next hbar =>
      subst hbar
      have hone := Boundary.of_ascii (n := 0) h rfl (by decide)
      dsimp only
      split
      · next hlast =>
        exact (Boundary.of_getElem? h (b := ascii '|') (n := _ + 1) hlast (by decide)).2
      · have hrest : IsText rest := (h.cut (a := []) (by decide)).2
        have hstop := boundary_before (p := fun x => x != ascii '|' && x != ascii '\n')
          (fun b hb => ?_) hrest
        · refine ⟨⟨Nat.zero_le _, hone.1, hone.2⟩, ?_⟩
          have hnext := hone.2.shift hstop
          rwa [Nat.add_comm] at hnext
        · rw [Bool.and_eq_false_iff, bne_eq_false_iff_eq, bne_eq_false_iff_eq] at hb
          rcases hb with rfl | rfl <;> decide
    · exact .zero h

/-! ## Blanks at both ends -/

/-- A byte in the form of a blank. -/
def isBlankByte (b : UInt8) : Bool :=
  !isAscii b || (9 ≤ b.toNat && b.toNat ≤ 13) || b.toNat = 32

theorem isBlankByte_of_mem {c : Char} {b : UInt8} (hc : isBlank c = true)
    (hb : b ∈ String.utf8EncodeChar c) : isBlankByte b = true := by
  unfold isBlankByte
  cases hascii : isAscii b with
  | false => rfl
  | true =>
    have hnat := (utf8EncodeChar_of_mem hb hascii).2
    have hlt : b.toNat < 128 := by simpa [isAscii] using hascii
    simp only [isBlank, Bool.or_eq_true, Bool.and_eq_true, decide_eq_true_eq, beq_iff_eq] at hc
    simp only [Bool.not_true, Bool.false_or, Bool.or_eq_true, Bool.and_eq_true, decide_eq_true_eq]
    omega

theorem opensToken_of_isBlankByte {b : UInt8} (h : isBlankByte b = true) : opensToken b = false := by
  have hne : ∀ x : UInt8, isBlankByte x = false → b ≠ x := by
    rintro x hx rfl
    rw [h] at hx
    cases hx
  simp [opensToken, hne (ascii '/') (by decide), hne (ascii '\\') (by decide),
    hne (ascii '"') (by decide), hne (ascii '\'') (by decide)]

/-- A span without the blanks at both ends of what lies between two offsets. -/
structure Trims (source : Bytes) (a b : Nat) (span : Span) : Prop where
  cuts : span.Cuts source
  start_le : a ≤ span.start
  le_stop : span.stop ≤ b
  front : ∀ x ∈ Span.slice ⟨a, span.start⟩ source, isBlankByte x = true
  back : ∀ x ∈ Span.slice ⟨span.stop, b⟩ source, isBlankByte x = true
  first : ∀ x rest, source.drop span.start = x :: rest → span.start < span.stop →
    isAsciiBlank x = false

/-- Characters with something else than blanks among them, and what is left of them without the
blanks at both ends. -/
theorem trim_parts {cs : List Char} (h : cs.all isBlank = false) :
    cs = cs.takeWhile isBlank ++ trimEnd (trimStart cs) ++ (cs.reverse.takeWhile isBlank).reverse ∧
      (trimEnd (trimStart cs)).head?.any (!isBlank ·) = true := by
  have hsplit : cs.takeWhile isBlank ++ cs.dropWhile isBlank = cs :=
    List.takeWhile_append_dropWhile
  obtain ⟨inside, hinside⟩ : ∃ inside, inside = cs.dropWhile isBlank := ⟨_, rfl⟩
  rw [← hinside] at hsplit
  cases hlist : inside with
  | nil =>
    rw [hlist, List.append_nil] at hsplit
    rw [← hsplit, List.all_takeWhile] at h
    cases h
  | cons c rest =>
    have hc : isBlank c = false := eq_false_of_dropWhile (hinside.symm.trans hlist)
    -- The blanks at the end are those of the inside, which does not consist of blanks.
    have hback : cs.reverse.takeWhile isBlank = inside.reverse.takeWhile isBlank := by
      have hshort : (inside.reverse.takeWhile isBlank).length ≠ inside.reverse.length := by
        intro hall
        have hsame := (List.takeWhile_prefix isBlank (l := inside.reverse)).eq_of_length hall
        have hmem : c ∈ inside.reverse := by simp [hlist]
        rw [← hsame] at hmem
        have hblank := List.all_eq_true.mp List.all_takeWhile c hmem
        rw [hc] at hblank
        cases hblank
      conv => lhs; rw [← hsplit]
      rw [List.reverse_append, List.takeWhile_append, if_neg hshort]
    have hcore : trimEnd (trimStart cs) = (inside.reverse.dropWhile isBlank).reverse := by
      rw [hinside]
      rfl
    rw [hcore]
    constructor
    · rw [hback, List.append_assoc, ← List.reverse_append, List.takeWhile_append_dropWhile,
        List.reverse_reverse, hsplit]
    · have hlast : inside.reverse.dropWhile isBlank =
          rest.reverse.dropWhile isBlank ++ [c] := by
        rw [hlist, List.reverse_cons, List.dropWhile_append]
        split
        · next hempty => simp [List.isEmpty_iff.mp hempty, hc]
        · rfl
      rw [hlast]
      simp [hc]

/-- The cursor at an offset of a source. -/
def cursorAt (source : Bytes) (n : Nat) : Cursor := ⟨n, source.drop n⟩

theorem Span.slice_of_drop {source run rest : Bytes} {a : Nat} (h : source.drop a = run ++ rest) :
    Span.slice ⟨a, a + run.length⟩ source = run := by
  rw [Span.slice, Span.length, h]
  simp

theorem isBlankByte_of_chars {cs : List Char} (h : ∀ c ∈ cs, isBlank c = true) :
    ∀ x ∈ cs.flatMap String.utf8EncodeChar, isBlankByte x = true := by
  intro x hx
  obtain ⟨c, hc, hx⟩ := List.mem_flatMap.mp hx
  exact isBlankByte_of_mem (h c hc) hx

/-- A character that is no blank does not begin with the byte of one. -/
theorem isAsciiBlank_lead {c : Char} {lead : UInt8} {more : Bytes} (hc : isBlank c = false)
    (hform : String.utf8EncodeChar c = lead :: more) : isAsciiBlank lead = false := by
  cases hblank : isAsciiBlank lead with
  | false => rfl
  | true =>
    have hmem : lead ∈ String.utf8EncodeChar c := by simp [hform]
    have hnat := (utf8EncodeChar_of_mem hmem (isAscii_of_blank hblank)).2
    have hyes : isBlank c = true := by
      unfold isBlank
      rw [hnat]
      rcases Surface.blank_cases hblank with rfl | rfl | rfl | rfl | rfl <;> decide
    rw [hc] at hyes
    cases hyes

theorem utf8Length_reverse (cs : List Char) :
    Parser.utf8Length cs.reverse = Parser.utf8Length cs := by
  simp only [Parser.utf8Length, List.length_flatMap, List.map_reverse, List.sum_reverse]

/-- Leaving out blanks at both ends, by the texts that stand there. -/
theorem trims_of_parts {source rest : Bytes} {front core back : List Char} {a : Nat}
    (ha : Boundary source a) (hrest : IsText rest)
    (hdrop : source.drop a = front.flatMap String.utf8EncodeChar ++
      (core.flatMap String.utf8EncodeChar ++ (back.flatMap String.utf8EncodeChar ++ rest)))
    (hfront : ∀ c ∈ front, isBlank c = true) (hback : ∀ c ∈ back, isBlank c = true)
    (hcore : core.head?.any (!isBlank ·) = true ∨ core = []) :
    Trims source a
      (a + Parser.utf8Length front + Parser.utf8Length core + Parser.utf8Length back)
      ⟨a + Parser.utf8Length front, a + Parser.utf8Length front + Parser.utf8Length core⟩ := by
  have hlength := congrArg List.length hdrop
  simp only [List.length_drop, List.length_append] at hlength
  have hle := ha.le
  have hstart : source.drop (a + Parser.utf8Length front) =
      core.flatMap String.utf8EncodeChar ++ (back.flatMap String.utf8EncodeChar ++ rest) := by
    rw [← List.drop_drop, hdrop]
    exact List.drop_left
  have hstop : source.drop (a + Parser.utf8Length front + Parser.utf8Length core) =
      back.flatMap String.utf8EncodeChar ++ rest := by
    rw [← List.drop_drop, hstart]
    exact List.drop_left
  unfold Parser.utf8Length at *
  constructor
  · refine ⟨Nat.le_add_right _ _, ⟨?_, ?_⟩, ?_, ?_⟩
    · dsimp only
      omega
    · rw [hstart]
      exact (IsText.chars core).append ((IsText.chars back).append hrest)
    · dsimp only
      omega
    · rw [hstop]
      exact (IsText.chars back).append hrest
  · exact Nat.le_add_right _ _
  · exact Nat.le_add_right _ _
  · rw [Span.slice_of_drop hdrop]
    exact isBlankByte_of_chars hfront
  · rw [Span.slice_of_drop hstop]
    exact isBlankByte_of_chars hback
  · intro x tail hx hlt
    rw [hstart] at hx
    rcases hcore with hcore | rfl
    · cases core with
      | nil => cases hcore
      | cons c core =>
        have hc : isBlank c = false := by simpa using hcore
        obtain ⟨lead, more, hform, _⟩ := utf8EncodeChar_form c
        rw [List.flatMap_cons, hform] at hx
        obtain ⟨rfl, _⟩ := List.cons.inj hx
        exact isAsciiBlank_lead hc hform
    · change a + _ < a + _ + 0 at hlt
      omega

theorem trims_trimmed {source : Bytes} {a b : Nat} (ha : Boundary source a) (hb : Boundary source b)
    (hle : a ≤ b) : Trims source a b (Parser.trimmed (cursorAt source a) b) := by
  have hcuts : Span.Cuts source ⟨a, b⟩ := ⟨hle, ha, hb⟩
  obtain ⟨s, hs⟩ := hcuts.isText_slice
  have hdecoded : decode ((cursorAt source a).rest.take (b - (cursorAt source a).pos)) = s := by
    change decode (Span.slice ⟨a, b⟩ source) = s
    rw [hs, decode_utf8]
  have hdrop : source.drop a = s.toList.flatMap String.utf8EncodeChar ++ source.drop b := by
    rw [Span.drop_start ⟨a, b⟩ source hcuts.le, hs]
    rfl
  have hwidth : b = a + Parser.utf8Length s.toList := by
    have hlength := congrArg List.length hdrop
    have hle' := hb.le
    rw [List.length_append, List.length_drop, List.length_drop] at hlength
    unfold Parser.utf8Length
    omega
  unfold Parser.trimmed
  simp only [hdecoded]
  split
  · next hall =>
    have htrims := @trims_of_parts source (source.drop b) [] [] s.toList a ha hb.text hdrop (by simp)
      (List.all_eq_true.mp hall) (.inr rfl)
    rw [hwidth]
    exact htrims
  · next hall =>
    obtain ⟨hcs, hcore⟩ := trim_parts (Bool.eq_false_iff.mpr hall)
    generalize trimEnd (trimStart s.toList) = core at hcs hcore
    generalize hfront : s.toList.takeWhile isBlank = front at *
    generalize hback : s.toList.reverse.takeWhile isBlank = back at *
    have hblank : ∀ c ∈ back.reverse, isBlank c = true := by
      intro c hc
      rw [List.mem_reverse, ← hback] at hc
      exact List.all_eq_true.mp List.all_takeWhile c hc
    have hreverse := utf8Length_reverse back
    rw [hcs] at hdrop hwidth
    simp only [List.flatMap_append, List.append_assoc] at hdrop
    have hparts : b = a + Parser.utf8Length front + Parser.utf8Length core +
        Parser.utf8Length back.reverse := by
      rw [hwidth]
      simp only [Parser.utf8Length, List.flatMap_append, List.length_append]
      omega
    have htrims := trims_of_parts ha hb.text hdrop
      (fun c hc => List.all_eq_true.mp List.all_takeWhile c (hfront ▸ hc)) hblank (.inl hcore)
    rw [← hparts] at htrims
    rw [hreverse] at hparts
    have hstop : b - Parser.utf8Length back =
        a + Parser.utf8Length front + Parser.utf8Length core := by omega
    rw [hstop]
    exact htrims

/-- Reading goes on behind bytes that begin no token. -/
theorem Reaches.behind {source : Bytes} {a b c : Nat} (hab : a ≤ b) (hbc : b ≤ c)
    (hc : c ≤ source.length) (hrun : ∀ x ∈ Span.slice ⟨a, b⟩ source, opensToken x = false)
    (h : Reaches (source.drop a) (c - a)) : Reaches (source.drop b) (c - b) := by
  have hlength := Span.length_slice hab (Nat.le_trans hbc hc)
  rw [Span.drop_start ⟨a, b⟩ source hab,
    show c - a = (Span.slice ⟨a, b⟩ source).length + (c - b) by omega] at h
  exact h.of_plain_append hrun

namespace Trims

variable {source : Bytes} {a b : Nat} {span : Span}

/-- What more blanks follow may be left out, too. -/
theorem extend (h : Trims source a b span) {stop : Nat} (hle : b ≤ stop)
    (hblank : ∀ x ∈ Span.slice ⟨b, stop⟩ source, isBlankByte x = true) :
    Trims source a stop span := by
  have hb := h.le_stop
  refine ⟨h.cuts, h.start_le, Nat.le_trans hb hle, h.front, ?_, h.first⟩
  intro x hx
  rw [Span.slice_append source hb hle] at hx
  rcases List.mem_append.mp hx with hx | hx
  · exact h.back x hx
  · exact hblank x hx

/-- Where reading passes all that lies between two offsets, what is left without the blanks is
shut, or ends in a line. -/
theorem held (h : Trims source a b span) (hb : b ≤ source.length)
    (hreach : Reaches (source.drop a) (b - a)) :
    Shut (span.slice source) ∨ EndsInLine (span.slice source) := by
  have hstart := h.start_le
  have hstop := h.le_stop
  have hle := h.cuts.le
  have hpiece : (span.slice source).length = span.stop - span.start :=
    Span.length_slice hle (show span.stop ≤ source.length by omega)
  have hback := Span.length_slice hstop hb
  have hinside := hreach.behind hstart (Nat.le_trans hle hstop) hb
    fun x hx => opensToken_of_isBlankByte (h.front x hx)
  rw [span.drop_start source hle, Span.drop_start ⟨span.stop, b⟩ source hstop,
    show b - span.start = (span.slice source).length +
      (Span.slice ⟨span.stop, b⟩ source).length by omega] at hinside
  rcases hinside.cut fun x hx => opensToken_of_isBlankByte (h.back x hx) with hshut | ⟨hends, _⟩
  · exact .inl hshut
  · exact .inr hends

end Trims

end ZigMarkup
