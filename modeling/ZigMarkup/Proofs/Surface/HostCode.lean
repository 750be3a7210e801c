import ZigMarkup.Proofs.Surface.Reading

/-!
How the scanner reads host code. A group ends with its own closer, an arrow is found behind the
pattern that it follows, and the span of an expression leaves out the blanks at both its ends.
-/
namespace ZigMarkup.Surface

open ScanM Parser

/-! ## Blanks at both ends -/

/-- Text that begins and ends with something else than a blank. -/
structure Tight (text : String) : Prop where
  first : text.toList.head?.any (!isBlank ·)
  last : text.toList.getLast?.any (!isBlank ·)

theorem any_head_of_takeWhile {cs : List Char} (hne : cs ≠ []) (h : cs.takeWhile isBlank = []) :
    cs.head?.any (!isBlank ·) := by
  cases cs with
  | nil => exact absurd rfl hne
  | cons c cs =>
    cases hc : isBlank c with
    | true => simp [hc] at h
    | false => simp [hc]

theorem takeWhile_of_any_head {cs : List Char} (h : cs.head?.any (!isBlank ·)) (ds : List Char) :
    (cs ++ ds).takeWhile isBlank = [] := by
  cases cs with
  | nil => cases h
  | cons c cs =>
    have hc : isBlank c = false := by simpa using h
    simp [hc]

theorem tight_of_trim {text : String} (hne : text ≠ "") (h : trim text = text) : Tight text := by
  have hcs : text.toList ≠ [] := by
    intro hnil
    refine hne ?_
    rw [← String.ofList_toList (s := text), hnil]
  have hlist : trimEnd (trimStart text.toList) = text.toList := by
    have htext := congrArg String.toList h
    rwa [trim, String.toList_ofList] at htext
  have hstart : (text.toList.takeWhile isBlank).length + (trimStart text.toList).length =
      text.toList.length := by
    rw [← List.length_append, trimStart, List.takeWhile_append_dropWhile]
  have hend : ((trimStart text.toList).reverse.takeWhile isBlank).length +
      (trimEnd (trimStart text.toList)).length = (trimStart text.toList).length := by
    rw [trimEnd, List.length_reverse, ← List.length_append, List.takeWhile_append_dropWhile,
      List.length_reverse]
  -- Both ends together lose no character, so neither loses one.
  rw [hlist] at hend
  have hnone : text.toList.takeWhile isBlank = [] := List.length_eq_zero_iff.mp (by omega)
  have hkept : trimStart text.toList = text.toList := by
    have hsplit := List.takeWhile_append_dropWhile (p := isBlank) (l := text.toList)
    rwa [hnone] at hsplit
  rw [hkept] at hend
  have hlast := any_head_of_takeWhile (by simpa using hcs)
    (List.length_eq_zero_iff.mp (by omega : (text.toList.reverse.takeWhile isBlank).length = 0))
  exact ⟨any_head_of_takeWhile hcs hnone, by rwa [List.head?_reverse] at hlast⟩

theorem trim_of_tight {text : String} (h : Tight text) : trim text = text := by
  have hstart : trimStart text.toList = text.toList := by
    have hnone := takeWhile_of_any_head h.first []
    rw [List.append_nil] at hnone
    have hsplit := List.takeWhile_append_dropWhile (p := isBlank) (l := text.toList)
    rwa [hnone] at hsplit
  have hend : trimEnd text.toList = text.toList := by
    have hlast : text.toList.reverse.head?.any (!isBlank ·) := by
      rw [List.head?_reverse]
      exact h.last
    have hnone := takeWhile_of_any_head hlast []
    rw [List.append_nil] at hnone
    have hsplit := List.takeWhile_append_dropWhile (p := isBlank) (l := text.toList.reverse)
    rw [hnone, List.nil_append] at hsplit
    rw [trimEnd, hsplit, List.reverse_reverse]
  rw [trim, hstart, hend, String.ofList_toList]

theorem Tight.append {s t : String} (hs : Tight s) (between : String) (ht : Tight t) :
    Tight (s ++ between ++ t) := by
  constructor
  · have h := hs.first
    cases hlist : s.toList with
    | nil => rw [hlist] at h; cases h
    | cons c cs => simpa [String.toList_append, hlist] using h
  · have h := ht.last
    cases hlast : t.toList.getLast? with
    | none => rw [hlast] at h; cases h
    | some c => simpa [String.toList_append, List.getLast?_append, hlast] using h

theorem Gap.isBlank (gap : Gap) : ∀ c ∈ gap.text.toList, isBlank c = true := by
  have hall : ∀ c ∈ [' ', '\t', '\n', '\r', '\x0c'], ZigMarkup.isBlank c = true :=
    List.all_eq_true.mp (by decide)
  exact fun c hc => hall c (gap.blank c hc)

theorem utf8Length_toList (text : String) : utf8Length text.toList = width text := rfl

/-- The span of what stands between blanks. -/
theorem trimmed_blanks {before text after : String}
    (hbefore : ∀ c ∈ before.toList, isBlank c = true)
    (hafter : ∀ c ∈ after.toList, isBlank c = true) (h : Tight text) (pos : Nat) (rest : Bytes) :
    trimmed ⟨pos, utf8 before ++ (utf8 text ++ (utf8 after ++ rest))⟩
        (pos + width before + width text + width after) =
      spanAt (pos + width before) text := by
  have hdecoded : decode ((utf8 before ++ (utf8 text ++ (utf8 after ++ rest))).take
      (pos + width before + width text + width after - pos)) = before ++ text ++ after := by
    have hsplit : utf8 before ++ (utf8 text ++ (utf8 after ++ rest)) =
        utf8 (before ++ text ++ after) ++ rest := by
      simp only [utf8_append, List.append_assoc]
    have hlength : pos + width before + width text + width after - pos =
        (utf8 (before ++ text ++ after)).length := by
      change _ = width (before ++ text ++ after)
      simp only [width_append]
      omega
    rw [hsplit, hlength, List.take_left, decode_utf8]
  have hstart : (before ++ text ++ after).toList.takeWhile isBlank = before.toList := by
    rw [String.toList_append, String.toList_append, List.append_assoc,
      List.takeWhile_append_of_pos hbefore, takeWhile_of_any_head h.first, List.append_nil]
  have hlast : text.toList.reverse.head?.any (!isBlank ·) := by
    rw [List.head?_reverse]
    exact h.last
  have hend : (before ++ text ++ after).toList.reverse.takeWhile isBlank =
      after.toList.reverse := by
    rw [String.toList_append, String.toList_append, List.reverse_append, List.reverse_append,
      List.takeWhile_append_of_pos fun c hc => hafter c (List.mem_reverse.mp hc),
      takeWhile_of_any_head hlast, List.append_nil]
  have hall : (before ++ text ++ after).toList.all isBlank = false := by
    have hfirst := h.first
    cases hlist : text.toList with
    | nil => rw [hlist] at hfirst; cases hfirst
    | cons c cs =>
      have hc : isBlank c = false := by simpa [hlist] using hfirst
      simp [String.toList_append, hlist, hc]
  have hwidth : utf8Length after.toList.reverse = width after := by
    rw [← utf8Length_toList, utf8Length, utf8Length, List.length_flatMap, List.length_flatMap,
      List.map_reverse, List.sum_reverse]
  unfold trimmed
  simp only [hdecoded, hall, hstart, hend, hwidth, utf8Length_toList, Bool.false_eq_true, if_false]
  simp only [spanAt, Span.mk.injEq, true_and]
  omega

def Gap.none : Gap := ⟨"", by simp⟩

theorem trimmed_before_gap (gap : Gap) {text : String} (h : Tight text) (pos : Nat) (rest : Bytes) :
    trimmed ⟨pos, utf8 text ++ (utf8 gap.text ++ rest)⟩ (pos + width text + width gap.text) =
      spanAt pos text :=
  @trimmed_blanks "" text gap.text (by simp) gap.isBlank h pos rest

/-- An ASCII byte begins no other character than itself. -/
theorem toNat_of_head_utf8EncodeChar {c : Char} {b : UInt8}
    (h : (String.utf8EncodeChar c).head? = some b) (hb : b.toNat < 128) : c.toNat = b.toNat := by
  have hc : c.toNat = c.val.toNat := rfl
  unfold String.utf8EncodeChar at h
  dsimp only at h
  split at h
  · obtain rfl := Option.some.inj h
    rw [UInt8.toNat_ofNat']
    omega
  · split at h
    · obtain rfl := Option.some.inj h
      rw [UInt8.toNat_ofNat'] at hb
      omega
    · split at h
      · obtain rfl := Option.some.inj h
        rw [UInt8.toNat_ofNat'] at hb
        omega
      · obtain rfl := Option.some.inj h
        rw [UInt8.toNat_ofNat'] at hb
        omega

/-- Such text begins with a byte that is no blank. -/
theorem Tight.head {text : String} (h : Tight text) :
    (utf8 text).head?.any fun b => !isAsciiBlank b := by
  have hfirst := h.first
  unfold utf8
  cases hlist : text.toList with
  | nil => rw [hlist] at hfirst; cases hfirst
  | cons c cs =>
    have hc : isBlank c = false := by simpa [hlist] using hfirst
    cases hbytes : String.utf8EncodeChar c with
    | nil => exact absurd hbytes String.utf8EncodeChar_ne_nil
    | cons b bytes =>
      cases hb : isAsciiBlank b with
      | false => simp [hbytes, hb]
      | true =>
        have hsmall : b.toNat < 128 := by
          rcases blank_cases hb with rfl | rfl | rfl | rfl | rfl <;> decide
        have hnat := toNat_of_head_utf8EncodeChar (c := c) (b := b) (by simp [hbytes]) hsmall
        have hblank : isBlank c = true := by
          unfold isBlank
          rw [hnat]
          rcases blank_cases hb with rfl | rfl | rfl | rfl | rfl <;> decide
        rw [hc] at hblank
        cases hblank

theorem Tight.stops_blank {text : String} (h : Tight text) (rest : Bytes) :
    Stops isAsciiBlank (utf8 text ++ rest) :=
  stops_of_head h.head (fun _ hb => by simpa using hb) rest

theorem Tight.width_pos {text : String} (h : Tight text) : 0 < width text := by
  have hhead := h.head
  unfold width
  cases hbytes : utf8 text with
  | nil => rw [hbytes] at hhead; cases hhead
  | cons => simp

theorem Tight.isEmpty_spanAt {text : String} (h : Tight text) (pos : Nat) :
    (spanAt pos text).isEmpty = false := by
  have hpos := h.width_pos
  refine decide_eq_false ?_
  change ¬ (pos + width text ≤ pos)
  omega

theorem Code.tight (code : Code) : Tight code.text := tight_of_trim code.nonempty code.trimmed

theorem Pattern.tight (pattern : Pattern) : Tight pattern.text :=
  tight_of_trim pattern.nonempty pattern.trimmed

/-! ## Groups -/

/-- A byte that neither opens nor closes anything and begins no token that could hide brackets. -/
def isPlainByte (b : UInt8) : Bool :=
  b != ascii '/' && b != ascii '\\' && b != ascii '"' && b != ascii '\'' &&
    (closerOf? b).isNone && !isCloser b

theorem lexeme_plain {b : UInt8} (h : isPlainByte b = true) (rest : Bytes) :
    lexeme b rest = .plain := by
  simp only [isPlainByte, Bool.and_eq_true, bne_iff_ne, ne_eq] at h
  obtain ⟨⟨⟨⟨⟨hslash, hback⟩, hquote⟩, hchar⟩, _⟩, _⟩ := h
  simp [lexeme, hslash, hback, hquote, hchar]

theorem isPlainByte_of_blank {b : UInt8} (h : isAsciiBlank b = true) : isPlainByte b = true := by
  rcases blank_cases h with rfl | rfl | rfl | rfl | rfl <;> decide

theorem SelfContained.append {code more : Bytes} (h : SelfContained code)
    (hmore : SelfContained more) : SelfContained (code ++ more) := by
  intro finish closer outer offset after
  rw [List.append_assoc, h, hmore, List.length_append, Nat.add_assoc]

theorem selfContained_of_plain {code : Bytes} (h : ∀ b ∈ code, isPlainByte b = true) :
    SelfContained code := by
  induction code with
  | nil => intro finish closer outer offset after; rfl
  | cons b code ih =>
    intro finish closer outer offset after
    have hb := h b List.mem_cons_self
    have hrest := ih (fun x hx => h x (List.mem_cons_of_mem b hx)) finish closer outer (offset + 1)
      after
    have hcloser : closerOf? b = none ∧ isCloser b = false := by
      simp only [isPlainByte, Bool.and_eq_true, Option.isNone_iff_eq_none, Bool.not_eq_true'] at hb
      exact ⟨hb.1.2, hb.2⟩
    rw [List.cons_append, walkFrom, groupVisit, lexeme_plain hb]
    simp only [hcloser.1, hcloser.2]
    rw [List.length_cons, Nat.add_comm code.length 1, ← Nat.add_assoc]
    exact hrest

theorem Gap.selfContained (gap : Gap) : SelfContained (utf8 gap.text) :=
  selfContained_of_plain fun b hb => isPlainByte_of_blank (gap.bytes_blank b hb)

/-- Self-contained code does not begin with a brace that closes what stands around it. -/
theorem SelfContained.stops_brace {code : Bytes} (h : SelfContained code) (hne : code ≠ [])
    (rest : Bytes) : Stops (· == ascii '\x7d') (code ++ rest) := by
  have hwalk := h (fun _ _ => .error ⟨⟨0, 0⟩, .unterminatedString, 0⟩) (ascii '\x7d') [] 0 []
  cases code with
  | nil => exact absurd rfl hne
  | cons b code =>
    refine stops_cons.mpr (beq_eq_false_iff_ne.mpr ?_)
    rintro rfl
    rw [List.append_nil] at hwalk
    cases hwalk

theorem groupLength_braces {inner : Bytes} (h : SelfContained inner) (rest : Bytes) :
    groupLength (utf8 "\x7b" ++ (inner ++ (utf8 "\x7d" ++ rest))) = .ok (inner.length + 2) := by
  unfold groupLength walk
  simp only [utf8_openBrace, utf8_closeBrace, List.singleton_append]
  have hopen : ∀ text, lexeme (ascii '\x7b') text = .plain := fun text => rfl
  have hcloser : closerOf? (ascii '\x7b') = some (ascii '\x7d') := by decide
  rw [walkFrom, groupVisit, hopen]
  simp only [hcloser]
  rw [h]
  change Except.ok (0 + 1 + inner.length + 1) = _
  congr 1
  omega

theorem read_of_ok {measure : Bytes → Except Failure Nat} {run rest : Bytes}
    (h : measure (run ++ rest) = .ok run.length) (pos : Nat) :
    ScanM.read measure ⟨pos, run ++ rest⟩ = .ok () ⟨pos + run.length, rest⟩ := by
  unfold ScanM.read
  simp only [h, skip_append]

theorem group_braces {inner : String} (h : SelfContained (utf8 inner)) (pos : Nat) (rest : Bytes) :
    group ⟨pos, utf8 "\x7b" ++ (utf8 inner ++ (utf8 "\x7d" ++ rest))⟩ =
      .ok () ⟨pos + 1 + width inner + 1, rest⟩ := by
  have hrun : groupLength ((utf8 "\x7b" ++ (utf8 inner ++ utf8 "\x7d")) ++ rest) =
      .ok (utf8 "\x7b" ++ (utf8 inner ++ utf8 "\x7d")).length := by
    simp only [List.append_assoc, groupLength_braces h]
    congr 1
    simp
  have hread := read_of_ok hrun pos
  simp only [List.append_assoc] at hread
  rw [group, hread]
  congr 2
  simp [width]
  omega

/-- What stands in braces, with gaps at both ends, is read as one group. -/
theorem group_between (before after : Gap) {text : String} (h : SelfContained (utf8 text))
    (pos : Nat) (rest : Bytes) :
    group ⟨pos, utf8 ("\x7b" ++ before.text ++ text ++ after.text ++ "\x7d") ++ rest⟩ =
      .ok () ⟨pos + width ("\x7b" ++ before.text ++ text ++ after.text ++ "\x7d"), rest⟩ := by
  have hinner : SelfContained (utf8 (before.text ++ text ++ after.text)) := by
    rw [utf8_append, utf8_append]
    exact (before.selfContained.append h).append after.selfContained
  have hgroup := group_braces hinner pos rest
  simp only [utf8_append, List.append_assoc, width_append] at hgroup ⊢
  rw [hgroup]
  simp only [Nat.add_assoc]
  rfl

theorem trimmed_between {before text after : String}
    (hbefore : ∀ c ∈ before.toList, isBlank c = true)
    (hafter : ∀ c ∈ after.toList, isBlank c = true) (h : Tight text) (pos : Nat) (rest : Bytes) :
    trimmed (Cursor.skip ⟨pos, utf8 ("\x7b" ++ before ++ text ++ after ++ "\x7d") ++ rest⟩ 1)
        (pos + width ("\x7b" ++ before ++ text ++ after ++ "\x7d") - 1) =
      spanAt (pos + width ("\x7b" ++ before)) text := by
  have hone : width "\x7b" = 1 ∧ width "\x7d" = 1 := ⟨rfl, rfl⟩
  have hblanks := trimmed_blanks hbefore hafter h (pos + 1) (utf8 "\x7d" ++ rest)
  have hstop : pos + width ("\x7b" ++ before ++ text ++ after ++ "\x7d") - 1 =
      pos + 1 + width before + width text + width after := by
    simp only [width_append, hone.1, hone.2]
    omega
  rw [hstop]
  simp only [width_append, hone.1, ← Nat.add_assoc, utf8_append, List.append_assoc]
  exact hblanks

theorem parens_group (what : Wanted) (g : Group) (pos : Nat) (rest : Bytes) :
    parens what ⟨pos, utf8 g.text ++ rest⟩ = .ok () ⟨pos + width g.text, rest⟩ := by
  have hpeek : Cursor.peek ⟨pos, utf8 g.text ++ rest⟩ = some (ascii '(') := by
    rw [Cursor.peek, List.head?_append, g.opened]
    rfl
  unfold parens
  rw [bind_get, if_pos hpeek, group]
  exact read_of_ok (g.whole rest) pos

theorem Group.stops_blank (g : Group) (rest : Bytes) :
    Stops isAsciiBlank (utf8 g.text ++ rest) :=
  stops_of_head (p := (· == ascii '(')) (by simp [g.opened])
    (fun b hb => by obtain rfl := beq_iff_eq.mp hb; decide) rest

/-! ## Strings, captures and patterns -/

theorem string_append (q : Quoted) (pos : Nat) (rest : Bytes) :
    string ⟨pos, utf8 q.text ++ rest⟩ = .ok () ⟨pos + width q.text, rest⟩ := by
  have htext : utf8 q.text = ascii '"' :: (utf8 q.inner ++ [ascii '"']) := by
    simp [Quoted.text, utf8_append]
  have hlength : stringLength (utf8 q.text ++ rest) = .ok (utf8 q.text).length := by
    have htoken : quotedToken (ascii '"') (utf8 q.text ++ rest) = ⟨width q.inner + 1 + 1, true⟩ := by
      rw [htext, List.cons_append, List.append_assoc, quotedToken, List.singleton_append, q.closed]
    rw [stringLength, htoken, htext]
    simp [width]
  exact read_of_ok hlength pos

theorem capture_append (k : Capture) (pos : Nat) (rest : Bytes) :
    capture ⟨pos, utf8 k.text ++ rest⟩ =
      .ok (some (spanAt pos k.text)) ⟨pos + width k.text, rest⟩ := by
  have htext : utf8 k.text = ascii '|' :: (utf8 k.inner ++ [ascii '|']) := by
    simp [Capture.text, utf8_append]
  have htake : (utf8 k.inner ++ (ascii '|' :: rest)).takeWhile
      (fun x => x != ascii '|' && x != ascii '\n') = utf8 k.inner :=
    takeWhile_append_of_stops (List.all_eq_true.mp k.bytes) (stops_cons.mpr (by decide))
  have hlength : captureLength (utf8 k.text ++ rest) = .ok (some (utf8 k.text).length) := by
    rw [htext, List.cons_append, List.append_assoc, List.singleton_append]
    simp only [captureLength, if_true]
    rw [htake]
    simp
  unfold capture
  simp only [hlength, skip_append]
  rfl

/-- No capture is read where no bar is ahead. -/
theorem capture_of_stops {text : Bytes} (h : Stops (· == ascii '|') text) (pos : Nat) :
    capture ⟨pos, text⟩ = .ok none ⟨pos, text⟩ := by
  unfold capture
  cases text with
  | nil => rfl
  | cons b text =>
    have hb : b ≠ ascii '|' := by simpa using stops_cons.mp h
    simp [captureLength, hb]

theorem Capture.stops (k : Capture) {p : UInt8 → Bool} (hp : p (ascii '|') = false)
    (rest : Bytes) : Stops p (utf8 k.text ++ rest) := by
  simp [Capture.text, utf8_append, hp]

theorem untilVisit_plain {b : UInt8} (h : isPlainByte b = true) (hb : b ≠ ascii '=') (offset : Nat)
    (rest : Bytes) : untilVisit (utf8 "=>") () offset b rest = .go 1 () := by
  have hcloser : closerOf? b = none ∧ isCloser b = false := by
    simp only [isPlainByte, Bool.and_eq_true, Option.isNone_iff_eq_none, Bool.not_eq_true'] at h
    exact ⟨h.1.2, h.2⟩
  have hneedle : (utf8 "=>").isPrefixOf (b :: rest) = false := by
    simp [List.isPrefixOf, Ne.symm hb]
  rw [untilVisit, hneedle, lexeme_plain h]
  simp [hcloser.1, hcloser.2]

theorem walkFrom_untilVisit_blank {bytes : Bytes} (h : ∀ b ∈ bytes, isAsciiBlank b = true)
    (finish : Unit → Nat → Except Failure Nat) (offset : Nat) (rest : Bytes) :
    walkFrom (untilVisit (utf8 "=>")) finish 0 () offset (bytes ++ rest) =
      walkFrom (untilVisit (utf8 "=>")) finish 0 () (offset + bytes.length) rest := by
  induction bytes generalizing offset with
  | nil => rfl
  | cons b bytes ih =>
    have hb := h b List.mem_cons_self
    have hne : b ≠ ascii '=' := by
      rcases blank_cases hb with rfl | rfl | rfl | rfl | rfl <;> decide
    rw [List.cons_append, walkFrom, untilVisit_plain (isPlainByte_of_blank hb) hne]
    rw [List.length_cons, Nat.add_comm bytes.length 1, ← Nat.add_assoc]
    exact ih (fun x hx => h x (List.mem_cons_of_mem b hx)) (offset + 1)

theorem untilTopLevel_arrow (pattern : Pattern) (gap : Gap) (pos : Nat) (rest : Bytes) :
    untilTopLevel "=>" ⟨pos, utf8 pattern.text ++ (utf8 gap.text ++ (utf8 "=>" ++ rest))⟩ =
      .ok () ⟨pos + width pattern.text + width gap.text, utf8 "=>" ++ rest⟩ := by
  have hlength : lengthUntil (utf8 "=>")
      ((utf8 pattern.text ++ utf8 gap.text) ++ (utf8 "=>" ++ rest)) =
        .ok (utf8 pattern.text ++ utf8 gap.text).length := by
    unfold lengthUntil walk
    rw [List.append_assoc, pattern.passed, walkFrom_untilVisit_blank gap.bytes_blank]
    have hfound : ∀ offset, untilVisit (utf8 "=>") () offset (ascii '=') (ascii '>' :: rest) =
        .stop (.ok offset) := by
      intro offset
      simp [untilVisit, List.isPrefixOf]
    have harrow : utf8 "=>" ++ rest = ascii '=' :: ascii '>' :: rest := by simp
    rw [harrow, walkFrom, hfound]
    simp [width]
  have hread := read_of_ok hlength pos
  rw [List.append_assoc] at hread
  rw [untilTopLevel, hread]
  simp [width, Nat.add_assoc]

/-- A pattern does not begin with the brace that closes its switch. -/
theorem Pattern.stops_brace (pattern : Pattern) (rest : Bytes) :
    Stops (· == ascii '\x7d') (utf8 pattern.text ++ rest) := by
  have hwalk := pattern.passed (fun _ _ => .ok 0) 0 []
  cases htext : utf8 pattern.text with
  | nil => exact absurd htext (utf8_ne_nil pattern.nonempty)
  | cons b bytes =>
    refine stops_cons.mpr (beq_eq_false_iff_ne.mpr ?_)
    rintro rfl
    rw [htext, List.append_nil] at hwalk
    cases hwalk

end ZigMarkup.Surface
