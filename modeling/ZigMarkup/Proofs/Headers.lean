import ZigMarkup.Hydration.Island
import ZigMarkup.Proofs.Cuts
import ZigMarkup.Proofs.JsonSpelling

/-!
The inside of an opening marker: an identity, a name and props. Nothing in it ends the comment,
it does not end in what could begin a closing marker, and it reads back as the marker.
-/
namespace ZigMarkup

/-! ## Bytes and characters -/

theorem mem_of_ascii_mem {s : String} {c : Char} (hc : IsAsciiChar c) (h : ascii c ∈ utf8 s) :
    c ∈ s.toList := by
  obtain ⟨d, hd, hmem⟩ := List.mem_flatMap.mp h
  exact hc.eq_of_mem hmem ▸ hd

/-- ASCII text at the beginning of the bytes of a text is at its beginning. -/
theorem prefix_of_utf8 {cs : List Char} (hcs : ∀ c ∈ cs, IsAsciiChar c) {s : String} {rest : Bytes}
    (h : utf8 s = utf8 (String.ofList cs) ++ rest) : cs <+: s.toList := by
  induction cs generalizing s with
  | nil => exact List.nil_prefix
  | cons c cs ih =>
    have hc := hcs c (by simp)
    rw [utf8_ofList, List.flatMap_cons, hc.1, ← utf8_ofList] at h
    obtain ⟨left, right, rfl, hleft, _, hright⟩ := exists_cut (a := []) hc.2 h
    obtain rfl : left = "" := utf8_inj hleft
    have hrest := ih (fun c hc => hcs c (by simp [hc])) hright
    simpa [asciiText, hc.ofNat_ascii] using hrest

theorem infix_of_utf8 {cs : List Char} (hcs : ∀ c ∈ cs, IsAsciiChar c) {s : String}
    (h : utf8 (String.ofList cs) <:+: utf8 s) : cs <:+: s.toList := by
  cases cs with
  | nil => exact List.nil_infix
  | cons c cs =>
    obtain ⟨before, after, h⟩ := h
    have hc := hcs c (by simp)
    have hcut : utf8 s = before ++ ascii c :: (utf8 (String.ofList cs) ++ after) := by
      rw [← h, utf8_ofList, List.flatMap_cons, hc.1, ← utf8_ofList]
      simp
    obtain ⟨left, right, rfl, _, _, hright⟩ := exists_cut hc.2 hcut
    obtain ⟨tail, htail⟩ := prefix_of_utf8 (fun c hc => hcs c (by simp [hc])) hright
    refine ⟨left.toList, tail, ?_⟩
    simp [asciiText, hc.ofNat_ascii, ← htail]

/-! ## Written JSON -/

/-- Characters of numbers and of the words `null`, `true` and `false`. -/
def isBareChar (c : Char) : Bool := c.isAlphanum || c == '-' || c == '+' || c == '.'

/-- JSON text is one bare word, or it stands in quotes or brackets. -/
inductive JsonShape : List Char → Prop
  | bare {cs : List Char} (hne : cs ≠ []) (h : ∀ c ∈ cs, isBareChar c) : JsonShape cs
  | enclosed {opener closer : Char} (inner : List Char) (hopen : opener ∈ ['"', '[', '\x7b'])
      (hclose : closer ∈ ['"', ']', '\x7d']) : JsonShape (opener :: (inner ++ [closer]))

theorem isBareChar_of_toDigits {n : Nat} {c : Char} (h : c ∈ Nat.toDigits 10 n) : isBareChar c := by
  have hdigit := Nat.isDigit_of_mem_toDigits (by decide) (by decide) h
  simp [isBareChar, Char.isAlphanum, hdigit]

theorem Decimal.isBareChar_of_mem_ofScaled {d : Nat} {i : Int} {c : Char}
    (h : c ∈ (ofScaled d i).digits) : isBareChar c := by
  have hmem := (List.dropWhile_sublist _).subset (List.mem_reverse.mp h)
  exact isBareChar_of_toDigits (List.mem_reverse.mp hmem)

theorem Decimal.isBareChar_of_mem_shortest {x : Binary} {c : Char}
    (h : c ∈ (shortest x).digits) : isBareChar c := by
  obtain ⟨d, i, heq⟩ : ∃ d i, shortest x = ofScaled d i := by
    unfold shortest
    dsimp only
    cases hfound : (List.range 17).findSome? _ with
    | none =>
      unfold exact
      split
      · exact ⟨_, _, rfl⟩
      · exact ⟨_, _, rfl⟩
    | some digits =>
      obtain ⟨n, _, hn⟩ := List.exists_of_findSome?_eq_some hfound
      obtain ⟨d, _, rfl⟩ := Option.map_eq_some_iff.mp hn
      exact ⟨d, _, rfl⟩
  rw [heq] at h
  exact isBareChar_of_mem_ofScaled h

namespace JsonNumber

theorem isBareChar_of_mem_replicate {n : Nat} {c : Char} (h : c ∈ List.replicate n '0') :
    isBareChar c := by
  rw [List.eq_of_mem_replicate h]
  decide

theorem layoutDigits_bare {d : Decimal.Digits} (hd : ∀ c ∈ d.digits, isBareChar c) :
    ∀ c ∈ layoutDigits d, isBareChar c := by
  have htake (n : Nat) : ∀ c ∈ d.digits.take n, isBareChar c :=
    fun c hc => hd c (List.mem_of_mem_take hc)
  have hdrop (n : Nat) : ∀ c ∈ d.digits.drop n, isBareChar c :=
    fun c hc => hd c (List.mem_of_mem_drop hc)
  have hzeros (n : Nat) : ∀ c ∈ List.replicate n '0', isBareChar c :=
    fun _ => isBareChar_of_mem_replicate
  unfold layoutDigits
  dsimp only
  split
  · simp only [List.forall_mem_append]
    exact ⟨⟨List.all_eq_true.mp (by decide), hzeros _⟩, hd⟩
  · split
    · simp only [List.forall_mem_append]
      refine ⟨⟨⟨htake _, hzeros _⟩, List.all_eq_true.mp (by decide)⟩, ?_⟩
      split
      · exact List.all_eq_true.mp (by decide)
      · exact hdrop _
    · simp only [List.forall_mem_append]
      refine ⟨⟨⟨⟨htake _, ?_⟩, List.all_eq_true.mp (by decide)⟩, ?_⟩,
        fun _ => isBareChar_of_toDigits⟩
      · split
        · simp
        · exact List.forall_mem_cons.mpr ⟨by decide, hdrop _⟩
      · split <;> exact List.all_eq_true.mp (by decide)

theorem layoutDigits_ne_nil (d : Decimal.Digits) : layoutDigits d ≠ [] := by
  unfold layoutDigits
  dsimp only
  split
  · simp
  · split <;> simp

theorem text_shape (n : JsonNumber) : JsonShape n.text.toList := by
  cases n with
  | int n =>
    rw [text, Int.toString_eq_repr]
    cases n with
    | ofNat n =>
      have htext : (Int.ofNat n).repr.toList = Nat.toDigits 10 n := by simp [Int.repr, Nat.repr]
      rw [htext]
      exact .bare Nat.toDigits_ne_nil fun _ => isBareChar_of_toDigits
    | negSucc n =>
      have htext : (Int.negSucc n).repr.toList = '-' :: Nat.toDigits 10 (n + 1) := by
        simp [Int.repr, Nat.repr]
      rw [htext]
      exact .bare (by simp)
        (List.forall_mem_cons.mpr ⟨by decide, fun _ => isBareChar_of_toDigits⟩)
  | double x =>
    unfold text doubleText
    dsimp only
    have hsign (b : Prop) [Decidable b] : ∀ c ∈ (if b then "-" else "").toList, isBareChar c := by
      split <;> exact List.all_eq_true.mp (by decide)
    split
    · refine .bare (by simp) ?_
      rw [String.toList_append, List.forall_mem_append]
      exact ⟨hsign _, List.all_eq_true.mp (by decide)⟩
    · rw [String.toList_append, String.toList_ofList]
      refine .bare (by simp [layoutDigits_ne_nil]) ?_
      rw [List.forall_mem_append]
      exact ⟨hsign _, layoutDigits_bare fun _ => Decimal.isBareChar_of_mem_shortest⟩

end JsonNumber

theorem JsonValue.quote_shape (s : String) : JsonShape (quote s).toList := by
  rw [quote, String.toList_ofList]
  exact .enclosed _ (by decide) (by decide)

theorem JsonValue.render_shape (v : JsonValue) : JsonShape v.render.toList := by
  cases v with
  | null => exact .bare (by decide) (List.all_eq_true.mp (by decide))
  | bool b => cases b <;> exact .bare (by decide) (List.all_eq_true.mp (by decide))
  | number n => exact n.text_shape
  | string s => exact quote_shape s
  | array items =>
    rw [render, String.toList_append, String.toList_append]
    exact .enclosed _ (by decide) (by decide)
  | object fields =>
    rw [render, String.toList_append, String.toList_append]
    exact .enclosed _ (by decide) (by decide)

/-! ## Text that is safe in a comment -/

theorem commentSafe_of_not_mem {cs : List Char} (h : '>' ∉ cs) : commentSafe cs = cs := by
  fun_induction commentSafe cs with
  | case1 rest => simp at h
  | case2 c rest _ ih => rw [ih (List.not_mem_of_not_mem_cons h)]
  | case3 => rfl

theorem commentSafe_end (rest : List Char) :
    commentSafe ('-' :: '-' :: '>' :: rest) = "--\\u003e".toList ++ commentSafe rest := by
  rw [commentSafe.eq_def]
  split
  · next tail heq =>
    cases heq
    rfl
  · next d tail hother heq =>
    obtain ⟨rfl, rfl⟩ := List.cons.inj heq
    exact (hother rest rfl rfl).elim
  · next heq => cases heq

theorem commentSafe_keep {c : Char} {rest : List Char}
    (h : ∀ tail, c = '-' → rest ≠ '-' :: '>' :: tail) :
    commentSafe (c :: rest) = c :: commentSafe rest := by
  rw [commentSafe.eq_def]
  split
  · next tail heq =>
    obtain ⟨hc, hrest⟩ := List.cons.inj heq
    exact absurd hrest (h tail hc)
  · next d tail _ heq =>
    obtain ⟨rfl, rfl⟩ := List.cons.inj heq
    rfl
  · next heq => cases heq

theorem commentSafe_concat (cs : List Char) {c : Char} (hc : c ≠ '>') :
    commentSafe (cs ++ [c]) = commentSafe cs ++ [c] := by
  fun_induction commentSafe cs with
  | case1 rest ih =>
    rw [List.append_assoc, ← ih]
    exact commentSafe_end _
  | case2 d rest hd ih =>
    rw [List.cons_append, commentSafe_keep, ih, List.cons_append]
    · -- The new character ends no `-->`.
      rintro tail rfl htail
      rcases List.append_eq_cons_iff.mp htail with ⟨_, h⟩ | ⟨rest', rfl, h⟩
      · cases h
      · rcases List.append_eq_cons_iff.mp h.symm with ⟨_, h⟩ | ⟨tail', rfl, _⟩
        · exact hc (List.cons.inj h).1
        · exact hd tail' rfl rfl
  | case3 => exact commentSafe_keep (by simp)

theorem JsonShape.safe {cs : List Char} (h : JsonShape cs) : JsonShape (commentSafe cs) := by
  cases h with
  | bare hne h =>
    rw [commentSafe_of_not_mem fun hmem => absurd (h _ hmem) (by decide)]
    exact .bare hne h
  | @enclosed opener closer inner hopen hclose =>
    have hopener : opener ≠ '-' := fun heq => absurd (heq ▸ hopen) (by decide)
    have hcloser : closer ≠ '>' := fun heq => absurd (heq ▸ hclose) (by decide)
    rw [commentSafe_keep fun _ heq => absurd heq hopener, commentSafe_concat inner hcloser]
    exact .enclosed _ hopen hclose

theorem not_infix_commentSafe (cs : List Char) : ¬ ['-', '-', '>'] <:+: commentSafe cs := by
  fun_induction commentSafe cs with
  | case1 rest ih =>
    have hescaped : "--\\u003e".toList = ['-', '-', '\\', 'u', '0', '0', '3', 'e'] := by decide
    simp [hescaped, List.infix_cons_iff, ih]
  | case2 c rest hend ih =>
    intro hfound
    rcases List.infix_cons_iff.mp hfound with hbegins | hlater
    · obtain ⟨rfl, tail, htail⟩ := List.cons_prefix_cons.mp hbegins
      -- The rest begins as its safe form does, so the end of the comment would begin here.
      have hrest := respelled_commentSafe rest
      rw [← htail] at hrest
      cases hrest with
      | keep _ hrest =>
        cases hrest with
        | keep _ hrest => exact hend _ rfl rfl
    · exact ih hlater
  | case3 => simp

/-! ## Trimming -/

theorem isBlank_of_isBareChar {c : Char} (h : isBareChar c) : isBlank c = false := by
  have hrange : 0x2B ≤ c.toNat ∧ c.toNat ≤ 0x7A := by
    unfold isBareChar at h
    delta Char.isAlphanum Char.isAlpha Char.isUpper Char.isLower Char.isDigit at h
    simp only [Bool.or_eq_true, Bool.and_eq_true, decide_eq_true_eq, beq_iff_eq] at h
    rcases h with (((((h | h) | h) | rfl) | rfl) | rfl)
    · exact ⟨Nat.le_trans (by decide) h.1, Nat.le_trans h.2 (by decide)⟩
    · exact ⟨Nat.le_trans (by decide) h.1, Nat.le_trans h.2 (by decide)⟩
    · exact ⟨Nat.le_trans (by decide) h.1, Nat.le_trans h.2 (by decide)⟩
    all_goals decide
  simp only [isBlank, Bool.or_eq_false_iff, Bool.and_eq_false_iff, decide_eq_false_iff_not,
    beq_eq_false_iff_ne]
  omega

theorem JsonShape.tight {cs : List Char} (h : JsonShape cs) : Surface.Tight (String.ofList cs) := by
  cases h with
  | bare hne h =>
    have hfirst := isBlank_of_isBareChar (h _ (List.head_mem hne))
    have hlast := isBlank_of_isBareChar (h _ (List.getLast_mem hne))
    constructor
    · simp [List.head?_eq_some_head hne, hfirst]
    · simp [List.getLast?_eq_some_getLast hne, hlast]
  | @enclosed opener closer inner hopen hclose =>
    have hopeners : ['"', '[', '\x7b'].all (!isBlank ·) = true := by decide
    have hclosers : ['"', ']', '\x7d'].all (!isBlank ·) = true := by decide
    constructor
    · simpa using List.all_eq_true.mp hopeners opener hopen
    · rw [String.toList_ofList, ← List.cons_append, List.getLast?_concat]
      exact List.all_eq_true.mp hclosers closer hclose

/-! ## Needles without a byte of the text -/

theorem prefix_of_divided {needle a b : Bytes} {x : UInt8} (hx : x ∉ needle)
    (h : needle <+: a ++ x :: b) : needle <+: a := by
  induction a generalizing needle with
  | nil =>
    rcases List.prefix_cons_iff.mp h with rfl | ⟨tail, rfl, _⟩
    · exact List.nil_prefix
    · exact absurd List.mem_cons_self hx
  | cons y a ih =>
    rcases List.prefix_cons_iff.mp h with rfl | ⟨tail, rfl, htail⟩
    · exact List.nil_prefix
    · exact List.cons_prefix_cons.mpr ⟨rfl, ih (List.not_mem_of_not_mem_cons hx) htail⟩

theorem suffix_of_divided {needle a b : Bytes} {x : UInt8} (hx : x ∉ needle)
    (h : needle <:+ a ++ x :: b) : needle <:+ b := by
  rw [← List.reverse_prefix] at h ⊢
  rw [List.reverse_append, List.reverse_cons, List.append_assoc] at h
  exact prefix_of_divided (by simpa using hx) h

theorem infix_of_divided {needle a b : Bytes} {x : UInt8} (hx : x ∉ needle)
    (h : needle <:+: a ++ x :: b) : needle <:+: a ∨ needle <:+: b := by
  induction a with
  | nil =>
    rcases List.infix_cons_iff.mp h with hbegins | hfound
    · exact .inl (prefix_of_divided (a := []) hx hbegins).isInfix
    · exact .inr hfound
  | cons y a ih =>
    rcases List.infix_cons_iff.mp h with hbegins | hfound
    · exact .inl (prefix_of_divided (a := y :: a) hx hbegins).isInfix
    · exact (ih hfound).imp_left List.infix_cons

/-! ## Headers -/

/-- Letters, digits and some punctuation. -/
def isWordChar (c : Char) : Bool :=
  c.isAlphanum || c == '_' || c == '-' || c == '.' || c == ':' || 0x80 ≤ c.toNat

structure IsWord (s : String) : Prop where
  nonempty : s ≠ ""
  chars : ∀ c ∈ s.toList, isWordChar c

theorem IsWord.not_mem {s : String} (h : IsWord s) {c : Char} (hc : IsAsciiChar c)
    (hno : isWordChar c = false) : ascii c ∉ utf8 s := by
  intro hmem
  have hyes := h.chars c (mem_of_ascii_mem hc hmem)
  rw [hno] at hyes
  cases hyes

namespace Marker

variable {m : Marker}

/-- What stands between the beginning and the end of an opening marker. -/
def header (m : Marker) : Bytes :=
  utf8 m.id ++ ascii ' ' :: (utf8 m.name ++ ascii ' ' :: utf8 m.propsText)

theorem utf8_openText (m : Marker) :
    utf8 m.openText = utf8 openBegin ++ (m.header ++ utf8 commentEnd) := by
  have hspace : utf8 " " = [ascii ' '] := by decide
  simp only [openText, header, utf8_append, hspace, List.append_assoc, List.cons_append,
    List.nil_append]

theorem splitSpace?_word {word : Bytes} (h : ascii ' ' ∉ word) (rest : Bytes) :
    Island.splitSpace? (word ++ ascii ' ' :: rest) = some (word, rest) := by
  have hword : ∀ b ∈ word, (b != ascii ' ') = true := by
    rintro b hb
    exact bne_iff_ne.mpr (ne_of_mem_of_not_mem hb h)
  unfold Island.splitSpace?
  rw [List.dropWhile_append_of_pos hword, List.takeWhile_append_of_pos hword]
  simp

/-- A marker is read back from its header. -/
theorem markerOf?_header (hid : IsWord m.id) (hname : IsWord m.name)
    (hread : JsonValue.ofText? m.props.render = some m.props) :
    Island.markerOf? m.header = some m := by
  have hprops : JsonValue.ofText? m.propsText = some m.props := by
    refine JsonValue.ofText?_respelled ?_ hread
    rw [propsText, String.toList_ofList]
    exact respelled_commentSafe _
  have hspace : IsAsciiChar ' ' := by decide
  have htrim : trim m.propsText = m.propsText :=
    Surface.trim_of_tight m.props.render_shape.safe.tight
  simp [Island.markerOf?, header, splitSpace?_word (hid.not_mem hspace (by decide)),
    splitSpace?_word (hname.not_mem hspace (by decide)), utf8_ne_nil hid.nonempty,
    utf8_ne_nil hname.nonempty, decode_utf8, htrim, hprops]

theorem IsWord.not_infix {s : String} (h : IsWord s) : ¬ utf8 commentEnd <:+: utf8 s := by
  intro hfound
  have hend : ascii '>' ∈ utf8 commentEnd := by decide
  exact h.not_mem (c := '>') (by decide) (by decide) (hfound.subset hend)

theorem not_infix_header (hid : IsWord m.id) (hname : IsWord m.name) :
    ¬ utf8 commentEnd <:+: m.header := by
  have hspace : ascii ' ' ∉ utf8 commentEnd := by decide
  have hascii : ['-', '-', '>'].all (fun c => decide (IsAsciiChar c)) = true := by decide
  intro hfound
  rcases infix_of_divided hspace hfound with h | h
  · exact IsWord.not_infix hid h
  rcases infix_of_divided hspace h with h | h
  · exact IsWord.not_infix hname h
  have hchars := infix_of_utf8 (fun c hc => of_decide_eq_true (List.all_eq_true.mp hascii c hc)) h
  rw [propsText, String.toList_ofList] at hchars
  exact not_infix_commentSafe _ hchars

/-- Written JSON does not end in the beginning of a closing marker. -/
theorem not_suffix_of_shape {cs : List Char} (h : JsonShape cs) {id : String} (hid : IsWord id) :
    ¬ utf8 closeBegin ++ utf8 id <:+ utf8 (String.ofList cs) := by
  intro hsuffix
  cases h with
  | bare _ h =>
    have hopen : ascii '<' ∈ utf8 closeBegin ++ utf8 id := by
      rw [List.mem_append]
      exact .inl (by decide)
    have hmem := mem_of_ascii_mem (c := '<') (by decide) (hsuffix.subset hopen)
    rw [String.toList_ofList] at hmem
    exact absurd (h _ hmem) (by decide)
  | @enclosed opener closer inner _ hclose =>
    have hclosers : ['"', ']', '\x7d'].all
        (fun c => decide (IsAsciiChar c) && !isWordChar c) = true := by decide
    have hcloser := List.all_eq_true.mp hclosers closer hclose
    simp only [Bool.and_eq_true, decide_eq_true_eq, Bool.not_eq_true'] at hcloser
    obtain hnil | ⟨front, last, hlast⟩ := (utf8 id).eq_nil_or_concat
    · exact utf8_ne_nil hid.nonempty hnil
    rw [List.concat_eq_append] at hlast
    -- The last byte of the word would be the closing quote or bracket.
    obtain ⟨before, heq⟩ := hsuffix
    rw [hlast, utf8_ofList, ← List.cons_append, List.flatMap_append, List.flatMap_singleton,
      hcloser.1.1, ← List.append_assoc, ← List.append_assoc] at heq
    obtain ⟨_, heq⟩ := List.append_inj' heq rfl
    refine hid.not_mem hcloser.1 hcloser.2 ?_
    rw [hlast, ← List.singleton_inj.mp heq]
    simp

theorem not_suffix_header (m : Marker) {id : String} (hid : IsWord id) :
    ¬ utf8 closeBegin ++ utf8 id <:+ m.header := by
  intro hsuffix
  have hspace : ascii ' ' ∉ utf8 closeBegin ++ utf8 id := by
    rw [List.mem_append, not_or]
    exact ⟨by decide, hid.not_mem (by decide) (by decide)⟩
  exact not_suffix_of_shape m.props.render_shape.safe hid
    (suffix_of_divided hspace (suffix_of_divided hspace hsuffix))

end Marker

end ZigMarkup
