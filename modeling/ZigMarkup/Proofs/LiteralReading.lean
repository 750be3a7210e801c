import ZigMarkup.Proofs.QuietText

/-!
How Zig reads the literals that are written for it. A literal stands for bytes: its escapes stand
for one byte each, and every other byte stands for itself. Main statement: what is quoted is read
back as it was, whatever follows it, by Zig and by the scanner of host code alike; and an
identifier, bare or quoted, is read back as the name that it was made from.
-/
namespace ZigMarkup

namespace Zig

/-- The value of a hexadecimal digit. -/
def hexValue? (b : UInt8) : Option UInt8 :=
  if ascii '0' ≤ b && b ≤ ascii '9' then some (b - ascii '0')
  else if ascii 'a' ≤ b && b ≤ ascii 'f' then some (b - ascii 'a' + 10)
  else if ascii 'A' ≤ b && b ≤ ascii 'F' then some (b - ascii 'A' + 10)
  else none

/-- What a byte right behind a backslash stands for; `x` announces two digits and is left out. -/
def escapeValue? (b : UInt8) : Option UInt8 :=
  if b = ascii '\\' || b = ascii '"' then some b
  else if b = ascii 'n' then some (ascii '\n')
  else if b = ascii 'r' then some (ascii '\r')
  else if b = ascii 't' then some (ascii '\t')
  else none

/-- A byte that may stand in a literal as it is. Control characters may not. -/
def isLiteralByte (b : UInt8) : Bool := 0x20 ≤ b && b != 0x7F

/-- What a string literal stands for, from behind its opening quote, and what follows its closing
one. Nothing if the text is no literal. -/
def literalTail? : Bytes → Option (Bytes × Bytes)
  | [] => none
  | b :: rest =>
    if b = ascii '"' then some ([], rest)
    else if b = ascii '\\' then
      match rest with
      | [] => none
      | e :: rest =>
        if e = ascii 'x' then
          match rest with
          | high :: low :: rest => do
            let high ← hexValue? high
            let low ← hexValue? low
            let (value, after) ← literalTail? rest
            return ((high * 16 + low) :: value, after)
          | _ => none
        else do
          let byte ← escapeValue? e
          let (value, after) ← literalTail? rest
          return (byte :: value, after)
    else if isLiteralByte b then do
      let (value, after) ← literalTail? rest
      return (b :: value, after)
    else none

/-- What the string literal that begins a text stands for, and what follows it. -/
def literal? : Bytes → Option (Bytes × Bytes)
  | [] => none
  | b :: rest => if b = ascii '"' then literalTail? rest else none

/-- The name that an identifier stands for: a bare word that is not reserved, or what is quoted
behind an at sign. -/
def identifierName? : Bytes → Option Bytes
  | [] => none
  | b :: rest =>
    if b = ascii '@' then
      match literal? rest with
      | some (name, []) => some name
      | _ => none
    else if isIdentStart b && rest.all isIdentByte && !(zigKeywords.map utf8).contains (b :: rest) then
      some (b :: rest)
    else none

/-! ## Text between quotes -/

/-- Text that stands for a value between the quotes of a literal, whatever follows it there. -/
def Denotes (body value : Bytes) : Prop :=
  ∀ rest, literalTail? (body ++ rest) = (literalTail? rest).map fun r => (value ++ r.1, r.2)

namespace Denotes

variable {body value more : Bytes}

theorem nil : Denotes [] [] := fun rest => by simp

theorem append {moreValue : Bytes} (h : Denotes body value) (hmore : Denotes more moreValue) :
    Denotes (body ++ more) (value ++ moreValue) := by
  intro rest
  rw [List.append_assoc, h, hmore, Option.map_map]
  simp [Function.comp_def]

theorem byte {b : UInt8} (h : isLiteralByte b = true) (hquote : b ≠ ascii '"')
    (hback : b ≠ ascii '\\') : Denotes [b] [b] := by
  intro rest
  rw [List.singleton_append, literalTail?.eq_def]
  simp only [hquote, hback, h, if_false, if_true]
  cases literalTail? rest <;> rfl

theorem escape {b v : UInt8} (h : escapeValue? b = some v) : Denotes [ascii '\\', b] [v] := by
  intro rest
  have hx : b ≠ ascii 'x' := by
    rintro rfl
    cases h
  change literalTail? (ascii '\\' :: b :: rest) = _
  rw [literalTail?.eq_def]
  simp only [hx, h, if_false, if_true, show ascii '\\' ≠ ascii '"' by decide]
  cases literalTail? rest <;> rfl

theorem hex {high low h l : UInt8} (hhigh : hexValue? high = some h) (hlow : hexValue? low = some l) :
    Denotes [ascii '\\', ascii 'x', high, low] [h * 16 + l] := by
  intro rest
  change literalTail? (ascii '\\' :: ascii 'x' :: high :: low :: rest) = _
  rw [literalTail?.eq_def]
  simp only [hhigh, hlow, if_false, if_true, show ascii '\\' ≠ ascii '"' by decide]
  cases literalTail? rest <;> rfl

theorem of_plain
    (h : ∀ b ∈ body, isLiteralByte b = true ∧ b ≠ ascii '"' ∧ b ≠ ascii '\\') : Denotes body body := by
  induction body with
  | nil => exact nil
  | cons b body ih =>
    obtain ⟨⟨hb, hquote, hback⟩, hbody⟩ := List.forall_mem_cons.mp h
    exact (byte hb hquote hback).append (ih hbody)

theorem chars {f : Char → List Char} {g : Char → Bytes}
    (h : ∀ c, Denotes (utf8 (String.ofList (f c))) (g c)) (cs : List Char) :
    Denotes (utf8 (String.ofList (cs.flatMap f))) (cs.flatMap g) := by
  induction cs with
  | nil => exact nil
  | cons c cs ih =>
    rw [List.flatMap_cons, String.ofList_append, utf8_append]
    exact (h c).append ih

/-- Text between two quotes is a literal, and reading ends at the second one. -/
theorem literal? (h : Denotes body value) (rest : Bytes) :
    literal? (ascii '"' :: body ++ ascii '"' :: rest) = some (value, rest) := by
  have hend : literalTail? (ascii '"' :: rest) = some ([], rest) := by
    rw [literalTail?.eq_def]
    exact if_pos rfl
  change literalTail? (body ++ ascii '"' :: rest) = _
  rw [h, hend]
  simp

end Denotes

theorem hexValue?_hexDigit : ∀ n < 16, utf8 (String.ofList [Literal.hexDigit n]) =
    [ascii (Literal.hexDigit n)] ∧ hexValue? (ascii (Literal.hexDigit n)) = some (UInt8.ofNat n) := by
  decide +kernel

/-- A character of one byte. -/
theorem utf8EncodeChar_small {c : Char} (h : c.toNat < 128) :
    String.utf8EncodeChar c = [UInt8.ofNat c.toNat] := by
  have hsmall : c.val.toNat ≤ 0x7F := Nat.le_of_lt_succ h
  unfold String.utf8EncodeChar
  exact if_pos hsmall

/-- A byte of a character that is kept is no quote, no backslash and no control character. -/
theorem denotes_kept {c : Char} (hback : c ≠ '\\') (hquote : c ≠ '"') (hlow : 0x20 ≤ c.toNat)
    (hhigh : c.toNat ≠ 0x7F) :
    Denotes (String.utf8EncodeChar c) (String.utf8EncodeChar c) := by
  refine .of_plain fun b hb => ?_
  have hliteral : 0x20 ≤ b.toNat ∧ b.toNat ≠ 0x7F := by
    by_cases hascii : isAscii b
    · rw [(utf8EncodeChar_of_mem hb hascii).2] at hlow hhigh
      exact ⟨hlow, hhigh⟩
    · have hlarge : 128 ≤ b.toNat := by simpa [isAscii] using hascii
      omega
  refine ⟨?_, IsAsciiChar.ne_of_mem (by decide) hquote hb, IsAsciiChar.ne_of_mem (by decide) hback hb⟩
  simp only [isLiteralByte, Bool.and_eq_true, decide_eq_true_eq, bne_iff_ne, ne_eq,
    UInt8.le_iff_toNat_le, ← UInt8.toNat_inj]
  exact hliteral

theorem denotes_escapeChar (c : Char) :
    Denotes (utf8 (String.ofList (Literal.escapeChar c))) (String.utf8EncodeChar c) := by
  have hform := Literal.escapeForm c
  generalize Literal.escapeChar c = written at hform ⊢
  cases hform with
  | short h =>
    have hall : ∀ p ∈ Literal.shortEscapes,
        utf8 (String.ofList ['\\', p.2]) = [ascii '\\', ascii p.2] ∧
          String.utf8EncodeChar p.1 = [ascii p.1] ∧ escapeValue? (ascii p.2) = some (ascii p.1) := by
      decide +kernel
    obtain ⟨hbytes, hchar, hvalue⟩ := hall _ h
    rw [hbytes, hchar]
    exact .escape hvalue
  | control hcontrol =>
    have hsmall : c.toNat < 128 := by omega
    obtain ⟨hhigh, hhighValue⟩ := hexValue?_hexDigit (c.toNat / 16) (by omega)
    obtain ⟨hlow, hlowValue⟩ := hexValue?_hexDigit (c.toNat % 16) (by omega)
    have hescape : utf8 (String.ofList ['\\', 'x']) = [ascii '\\', ascii 'x'] := by decide
    have hvalue : UInt8.ofNat (c.toNat / 16) * 16 + UInt8.ofNat (c.toNat % 16) =
        UInt8.ofNat c.toNat := by
      rw [← UInt8.toNat_inj]
      simp only [UInt8.toNat_add, UInt8.toNat_mul, UInt8.toNat_ofNat']
      change (c.toNat / 16 % 256 * 16 % 256 + c.toNat % 16 % 256) % 256 = c.toNat % 256
      omega
    rw [String.ofList_append, String.ofList_append, utf8_append, utf8_append, hescape, hhigh, hlow,
      utf8EncodeChar_small hsmall, ← hvalue]
    exact .hex hhighValue hlowValue
  | kept hback hquote hlow hhigh =>
    rw [utf8_ofList, List.flatMap_singleton]
    exact denotes_kept hback hquote hlow hhigh

theorem denotes_escape (s : String) : Denotes (utf8 (Literal.escape s)) (utf8 s) :=
  .chars denotes_escapeChar s.toList

theorem utf8_quoted (s : String) :
    utf8 (Literal.quoted s) = ascii '"' :: utf8 (Literal.escape s) ++ [ascii '"'] := by
  have hquote : utf8 "\"" = [ascii '"'] := by decide
  rw [Literal.quoted, utf8_append, utf8_append, hquote, List.singleton_append]

/-- What is quoted is read back, and reading ends where the literal does. -/
theorem literal?_quoted (s : String) (rest : Bytes) :
    literal? (utf8 (Literal.quoted s) ++ rest) = some (utf8 s, rest) := by
  rw [utf8_quoted, List.append_assoc]
  exact (denotes_escape s).literal? rest

/-! ## Identifiers -/

theorem identifierName?_identifier (name : String) :
    identifierName? (utf8 (Literal.identifier name)) = some (utf8 name) := by
  unfold Literal.identifier
  split
  · next hplain =>
    unfold isPlainIdentifier at hplain
    cases hbytes : utf8 name with
    | nil =>
      rw [hbytes] at hplain
      cases hplain
    | cons b rest =>
      rw [hbytes] at hplain
      simp only [Bool.and_eq_true, Bool.not_eq_true'] at hplain
      have hat : b ≠ ascii '@' := by
        rintro rfl
        exact absurd hplain.1.1 (by decide)
      have hword : (zigKeywords.map utf8).contains (b :: rest) = false := by
        rw [List.contains_eq_mem, decide_eq_false_iff_not, List.mem_map]
        rintro ⟨word, hword, heq⟩
        rw [utf8_inj (heq.trans hbytes.symm)] at hword
        have hfree := hplain.2
        rw [List.contains_eq_mem, decide_eq_false_iff_not] at hfree
        exact hfree hword
      simp only [identifierName?, hat, if_false, hplain.1.1, hplain.1.2, hword, Bool.not_false,
        Bool.and_self, if_true]
  · have hliteral := literal?_quoted name []
    rw [List.append_nil] at hliteral
    have hat : utf8 "@" = [ascii '@'] := by decide
    rw [utf8_append, hat, List.singleton_append, identifierName?, if_pos rfl, hliteral]

theorem identifier_injective : Function.Injective Literal.identifier := by
  intro name other heq
  have hname := identifierName?_identifier name
  rw [heq, identifierName?_identifier] at hname
  exact (utf8_inj (Option.some.inj hname)).symm

/-- Neither form of an identifier is a reserved word. -/
theorem identifier_not_keyword (name : String) : Literal.identifier name ∉ zigKeywords := by
  have hread := identifierName?_identifier name
  have hfree : ∀ word ∈ zigKeywords, identifierName? (utf8 word) = none := by decide +kernel
  intro hmem
  rw [hfree _ hmem] at hread
  cases hread

end Zig

/-- No control character stands in what is written for a character. -/
theorem escapeChar_visible {c d : Char} (h : d ∈ Literal.escapeChar c) :
    0x20 ≤ d.toNat ∧ d.toNat ≠ 0x7F := by
  have hform := Literal.escapeForm c
  generalize Literal.escapeChar c = written at hform h
  cases hform with
  | short hshort =>
    have hall : ∀ p ∈ Literal.shortEscapes, 0x20 ≤ p.2.toNat ∧ p.2.toNat ≠ 0x7F := by decide
    simp only [List.mem_cons, List.not_mem_nil, or_false] at h
    rcases h with rfl | rfl
    · decide
    · exact hall _ hshort
  | control hcontrol =>
    have hdigit : ∀ n < 16, 0x20 ≤ (Literal.hexDigit n).toNat ∧ (Literal.hexDigit n).toNat ≠ 0x7F := by
      decide +kernel
    simp only [List.cons_append, List.nil_append, List.mem_cons, List.not_mem_nil, or_false] at h
    rcases h with rfl | rfl | rfl | rfl
    · decide
    · decide
    · exact hdigit _ (by omega)
    · exact hdigit _ (by omega)
  | kept _ _ hlow hhigh =>
    rw [List.mem_singleton.mp h]
    exact ⟨hlow, hhigh⟩

theorem quoted_visible {s : String} {c : Char} (h : c ∈ (Literal.quoted s).toList) :
    0x20 ≤ c.toNat ∧ c.toNat ≠ 0x7F := by
  rw [Literal.quoted, Literal.escape, String.toList_append, String.toList_append] at h
  rcases List.mem_append.mp h with h | h
  · rcases List.mem_append.mp h with h | h
    · obtain rfl : c = '"' := by simpa using h
      decide
    · rw [String.toList_ofList] at h
      obtain ⟨_, _, h⟩ := List.mem_flatMap.mp h
      exact escapeChar_visible h
  · obtain rfl : c = '"' := by simpa using h
    decide

/-- The scanner of host code reads what is quoted as one string and stops right behind it. -/
theorem string_quoted (s : String) (pos : Nat) (rest : Bytes) :
    ScanM.string ⟨pos, utf8 (Literal.quoted s) ++ rest⟩ =
      .ok () ⟨pos + (utf8 (Literal.quoted s)).length, rest⟩ := by
  have hescaped : Escaped (utf8 (Literal.escape s)) := .chars escaped_escapeChar s.toList
  have hend : quotedTail (ascii '"') (ascii '"' :: rest) = ⟨1, true⟩ := by
    rw [quotedTail_step _ (by decide), if_pos rfl]
  have htoken : quotedToken (ascii '"') (utf8 (Literal.quoted s) ++ rest) =
      ⟨(utf8 (Literal.quoted s)).length, true⟩ := by
    rw [Zig.utf8_quoted, List.append_assoc]
    change QuotedToken.mk ((quotedTail _ (utf8 (Literal.escape s) ++ ascii '"' :: rest)).length + 1)
      (quotedTail _ (utf8 (Literal.escape s) ++ ascii '"' :: rest)).closed = _
    rw [hescaped.read, hend]
    simp only [List.length_append, List.length_cons, List.length_nil, QuotedToken.mk.injEq, and_true]
    omega
  have hlength : stringLength (utf8 (Literal.quoted s) ++ rest) =
      .ok (utf8 (Literal.quoted s)).length := by
    simp only [stringLength, htoken, if_true]
  unfold ScanM.string ScanM.read
  simp only [hlength, Cursor.skip, List.drop_left]

/-- Literals are faithful. A quoted text is read back by Zig, and both Zig and the scanner stop at
what follows it; no control character stands in it. Identifiers are told apart, are read back as
their names, and are never reserved words. -/
theorem literals_faithful (s : String) (pos : Nat) (rest : Bytes) :
    Zig.literal? (utf8 (Literal.quoted s) ++ rest) = some (utf8 s, rest) ∧
      ScanM.string ⟨pos, utf8 (Literal.quoted s) ++ rest⟩ =
        .ok () ⟨pos + (utf8 (Literal.quoted s)).length, rest⟩ ∧
      (∀ c ∈ (Literal.quoted s).toList, 0x20 ≤ c.toNat ∧ c.toNat ≠ 0x7F) ∧
      Function.Injective Literal.identifier ∧
      Zig.identifierName? (utf8 (Literal.identifier s)) = some (utf8 s) ∧
      Literal.identifier s ∉ zigKeywords :=
  ⟨Zig.literal?_quoted s rest, string_quoted s pos rest, fun _ => quoted_visible,
    Zig.identifier_injective, Zig.identifierName?_identifier s, Zig.identifier_not_keyword s⟩

end ZigMarkup
