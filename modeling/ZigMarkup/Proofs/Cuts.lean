import ZigMarkup.Proofs.Surface.HostCode

/-!
Cutting texts at bytes. A byte below 128 is a character of its own, so a text whose bytes are
cut next to such a byte falls apart into texts. With this, what is known of bytes between
quotes or parentheses is known of texts.
-/
namespace ZigMarkup

/-- A byte that is a whole character. -/
def isAscii (b : UInt8) : Bool := b.toNat < 128

/-- The only character that has an ASCII byte in its form is that byte. -/
theorem utf8EncodeChar_of_mem {c : Char} {b : UInt8} (hmem : b ∈ String.utf8EncodeChar c)
    (hb : isAscii b) : String.utf8EncodeChar c = [b] ∧ c.toNat = b.toNat := by
  have hc : c.toNat = c.val.toNat := rfl
  have hlt : b.toNat < 128 := by simpa [isAscii] using hb
  unfold String.utf8EncodeChar at hmem ⊢
  dsimp only at hmem ⊢
  split at hmem
  · next hsmall =>
    have heq := List.mem_singleton.mp hmem
    rw [if_pos hsmall, heq, UInt8.toNat_ofNat']
    exact ⟨rfl, by omega⟩
  · -- All bytes of a longer form are at least 128.
    exfalso
    revert hlt
    split at hmem
    · simp only [List.mem_cons, List.not_mem_nil, or_false] at hmem
      rcases hmem with rfl | rfl <;> rw [UInt8.toNat_ofNat'] <;> omega
    · split at hmem
      · simp only [List.mem_cons, List.not_mem_nil, or_false] at hmem
        rcases hmem with rfl | rfl | rfl <;> rw [UInt8.toNat_ofNat'] <;> omega
      · simp only [List.mem_cons, List.not_mem_nil, or_false] at hmem
        rcases hmem with rfl | rfl | rfl | rfl <;> rw [UInt8.toNat_ofNat'] <;> omega

theorem utf8_ofList (cs : List Char) :
    utf8 (String.ofList cs) = cs.flatMap String.utf8EncodeChar := by
  rw [utf8, String.toList_ofList]

/-- The text of one ASCII byte. -/
def asciiText (b : UInt8) : String := String.ofList [Char.ofNat b.toNat]

theorem char_of_utf8EncodeChar {c : Char} {b : UInt8} (h : String.utf8EncodeChar c = [b])
    (hb : isAscii b) : Char.ofNat b.toNat = c := by
  rw [← (utf8EncodeChar_of_mem (c := c) (by rw [h]; exact List.mem_singleton_self b) hb).2]
  exact Char.ofNat_toNat c

/-- A character of one byte. -/
def IsAsciiChar (c : Char) : Prop := String.utf8EncodeChar c = [ascii c] ∧ isAscii (ascii c)

instance (c : Char) : Decidable (IsAsciiChar c) := inferInstanceAs (Decidable (_ ∧ _))

theorem IsAsciiChar.ofNat_ascii {c : Char} (hc : IsAsciiChar c) : Char.ofNat (ascii c).toNat = c :=
  char_of_utf8EncodeChar hc.1 hc.2

/-- The byte of such a character stands in no other one. -/
theorem IsAsciiChar.eq_of_mem {c d : Char} (hc : IsAsciiChar c)
    (h : ascii c ∈ String.utf8EncodeChar d) : d = c := by
  have hd := char_of_utf8EncodeChar (utf8EncodeChar_of_mem h hc.2).1 hc.2
  exact hd.symm.trans hc.ofNat_ascii

theorem IsAsciiChar.ne_of_mem {c d : Char} {b : UInt8} (hc : IsAsciiChar c) (hne : d ≠ c)
    (h : b ∈ String.utf8EncodeChar d) : b ≠ ascii c := by
  rintro rfl
  exact hne (hc.eq_of_mem h)

private theorem exists_cut_chars {x : UInt8} (hx : isAscii x) (cs : List Char) :
    ∀ {a b : Bytes}, cs.flatMap String.utf8EncodeChar = a ++ x :: b →
      ∃ left right, cs = left ++ Char.ofNat x.toNat :: right ∧
        left.flatMap String.utf8EncodeChar = a ∧
        String.utf8EncodeChar (Char.ofNat x.toNat) = [x] ∧
        right.flatMap String.utf8EncodeChar = b := by
  induction cs with
  | nil => intro a b h; simp at h
  | cons c cs ih =>
    intro a b h
    rw [List.flatMap_cons] at h
    by_cases hmem : x ∈ String.utf8EncodeChar c ∧ a.length < (String.utf8EncodeChar c).length
    · -- The byte lies in the first character, which is then this byte alone.
      obtain ⟨hsingle, _⟩ := utf8EncodeChar_of_mem hmem.1 hx
      have hchar := char_of_utf8EncodeChar hsingle hx
      have ha : a = [] := by
        have hlength := hmem.2
        rw [hsingle] at hlength
        exact List.length_eq_zero_iff.mp (by simpa using hlength)
      subst ha
      rw [hsingle] at h
      refine ⟨[], cs, by simp [hchar], rfl, by rw [hchar]; exact hsingle, ?_⟩
      simpa using h
    · rcases List.append_eq_append_iff.mp h with ⟨rest, ha, hrest⟩ | ⟨rest, hc, hrest⟩
      · obtain ⟨left, right, rfl, hleft, hchar, hright⟩ := ih hrest
        exact ⟨c :: left, right, rfl, by rw [List.flatMap_cons, hleft, ha], hchar, hright⟩
      · cases rest with
        | nil =>
          obtain ⟨left, right, rfl, hleft, hchar, hright⟩ := ih (a := []) (by simpa using hrest.symm)
          exact ⟨c :: left, right, rfl, by simp [List.flatMap_cons, hleft, hc], hchar, hright⟩
        | cons y rest =>
          obtain ⟨rfl, _⟩ := List.cons.inj hrest
          exact absurd ⟨by rw [hc]; simp, by rw [hc]; simp⟩ hmem

/-- A text whose form holds an ASCII byte falls apart around it. -/
theorem exists_cut {s : String} {a b : Bytes} {x : UInt8} (hx : isAscii x)
    (h : utf8 s = a ++ x :: b) :
    ∃ left right, s = left ++ asciiText x ++ right ∧ utf8 left = a ∧ utf8 (asciiText x) = [x] ∧
      utf8 right = b := by
  obtain ⟨left, right, hs, hleft, hchar, hright⟩ := exists_cut_chars hx s.toList h
  refine ⟨String.ofList left, String.ofList right, ?_, ?_, ?_, ?_⟩
  · rw [← String.toList_inj]
    simp [asciiText, hs]
  · rw [utf8_ofList, hleft]
  · rw [asciiText, utf8_ofList]
    simpa using hchar
  · rw [utf8_ofList, hright]

theorem utf8_inj {s t : String} (h : utf8 s = utf8 t) : s = t := by
  rw [← decode_utf8 s, h, decode_utf8]

end ZigMarkup
