import ZigMarkup.Proofs.Wording

/-!
What a text does to the brackets that are open where it stands. The search for the end of a
group passes a text and leaves other closers to come; a text that leaves the same ones is
sealed. Names, literals, verbatim lines and margins are sealed, and punctuation does to the
closers what its own brackets say.
-/
namespace ZigMarkup

open Surface (SelfContained isPlainByte)

/-- Host code or other text that a search for the end of a group passes as a whole. -/
def Sealed (code : String) : Prop := SelfContained (utf8 code)

/-- The search for the end of a group passes a text; it has the closers `before` to meet first
where the text begins and `after` where it ends. -/
def Moves (before after : List UInt8) (text : Bytes) : Prop :=
  ∀ finish closer outer offset rest,
    walkFrom groupVisit finish 0 (before ++ closer :: outer) offset (text ++ rest) =
      walkFrom groupVisit finish 0 (after ++ closer :: outer) (offset + text.length) rest

theorem moves_iff_selfContained {text : Bytes} : Moves [] [] text ↔ SelfContained text := .rfl

namespace Moves

variable {a b c : List UInt8} {text more : Bytes}

theorem nil : Moves a a [] := fun _ _ _ _ _ => rfl

theorem append (h : Moves a b text) (hmore : Moves b c more) : Moves a c (text ++ more) := by
  intro finish closer outer offset rest
  rw [List.append_assoc, h, hmore, List.length_append, Nat.add_assoc]

/-- Brackets further out do not matter. -/
theorem frame (h : Moves a b text) (s : List UInt8) : Moves (a ++ s) (b ++ s) text := by
  intro finish closer outer offset rest
  cases s with
  | nil => simpa using h finish closer outer offset rest
  | cons x s => simpa using h finish x (s ++ closer :: outer) offset rest

theorem of_selfContained (h : SelfContained text) : Moves a a text :=
  (moves_iff_selfContained.mpr h).frame a

theorem concat {s t : String} (hs : Moves a b (utf8 s)) (ht : Moves b c (utf8 t)) :
    Moves a c (utf8 (s ++ t)) := by
  rw [utf8_append]
  exact hs.append ht

end Moves

/-! ## Punctuation -/

/-- The closers still to come behind punctuation, if its own brackets match them. -/
def closersAfter : List UInt8 → Bytes → Option (List UInt8)
  | stack, [] => some stack
  | stack, b :: text =>
    if isGlue b then
      match closerOf? b with
      | some closer => closersAfter (closer :: stack) text
      | none =>
        if isCloser b then
          match stack with
          | [] => none
          | closer :: outer => if closer = b then closersAfter outer text else none
        else closersAfter stack text
    else none

theorem moves_of_closersAfter (text : Bytes) : ∀ {a b : List UInt8},
    closersAfter a text = some b → Moves a b text := by
  induction text with
  | nil =>
    intro a b h
    cases h
    exact .nil
  | cons x text ih =>
    intro a b h finish closer outer offset rest
    unfold closersAfter at h
    split at h
    case isFalse => cases h
    case isTrue hglue =>
      -- One byte is passed, then the rest of the text with what it leaves.
      suffices hstep : ∃ mid, closersAfter mid text = some b ∧
          groupVisit (a ++ closer :: outer) offset x (text ++ rest) =
            .go 1 (mid ++ closer :: outer) by
        obtain ⟨mid, hmid, hvisit⟩ := hstep
        rw [List.cons_append, walkFrom, hvisit]
        simp only [Nat.sub_self]
        rw [ih hmid, List.length_cons, Nat.add_assoc, Nat.add_comm 1]
      unfold groupVisit
      rw [lexeme_of_isGlue hglue]
      cases hopen : closerOf? x with
      | some own =>
        rw [hopen] at h
        exact ⟨own :: a, h, rfl⟩
      | none =>
        rw [hopen] at h
        dsimp only at h ⊢
        split at h
        · next hclose =>
          rw [if_pos hclose]
          cases a with
          | nil => cases h
          | cons own a =>
            dsimp only at h
            split at h
            · next heq => exact ⟨a, h, by simp [heq]⟩
            · cases h
        · next hclose =>
          rw [if_neg hclose]
          exact ⟨a, h, rfl⟩

theorem Moves.glue {a b : List UInt8} {s : String} (h : closersAfter a (utf8 s) = some b) :
    Moves a b (utf8 s) := moves_of_closersAfter _ h

/-! ## Sealed texts -/

theorem walkFrom_skip {σ α : Type} (visit : σ → Nat → UInt8 → Bytes → Move σ α)
    (finish : σ → Nat → α) (state : σ) (text rest : Bytes) : ∀ offset,
    walkFrom visit finish text.length state offset (text ++ rest) =
      walkFrom visit finish 0 state (offset + text.length) rest := by
  induction text with
  | nil => exact fun _ => rfl
  | cons b text ih =>
    intro offset
    rw [List.length_cons, List.cons_append, walkFrom, ih, Nat.add_assoc, Nat.add_comm 1]

/-- A token that hides brackets is passed as a whole. -/
theorem selfContained_of_token {b : UInt8} {text rest : Bytes} (finish closer outer offset)
    (h : lexeme b (text ++ rest) = .trivia (text.length + 1)) :
    walkFrom groupVisit finish 0 (closer :: outer) offset (b :: text ++ rest) =
      walkFrom groupVisit finish 0 (closer :: outer) (offset + (b :: text).length) rest := by
  rw [List.cons_append, walkFrom, groupVisit, h]
  simp only [Nat.add_sub_cancel]
  rw [walkFrom_skip, List.length_cons, Nat.add_assoc, Nat.add_comm 1]

theorem selfContained_of_isString {bytes : Bytes} (h : IsString bytes) : SelfContained bytes := by
  obtain ⟨inner, rfl, hlexeme⟩ := lexeme_of_isString h
  intro finish closer outer offset rest
  exact selfContained_of_token finish closer outer offset (hlexeme rest)

theorem isPlainByte_of_isNameByte {b : UInt8} (h : isNameByte b = true) : isPlainByte b = true := by
  have hne : ∀ {x : UInt8}, isNameByte x = false → b ≠ x := by
    rintro x hx rfl
    rw [h] at hx
    cases hx
  have hopen : closerOf? b = none := by
    simp only [closerOf?]
    rw [if_neg (hne (by decide)), if_neg (hne (by decide)), if_neg (hne (by decide))]
  have hclose : isCloser b = false := by
    simp only [isCloser, Bool.or_eq_false_iff, decide_eq_false_iff_not]
    exact ⟨⟨hne (by decide), hne (by decide)⟩, hne (by decide)⟩
  simp only [isPlainByte, hopen, hclose, Bool.and_eq_true, bne_iff_ne]
  exact ⟨⟨⟨⟨⟨hne (by decide), hne (by decide)⟩, hne (by decide)⟩, hne (by decide)⟩, rfl⟩, rfl⟩

theorem selfContained_newline : SelfContained [ascii '\n'] :=
  Surface.selfContained_of_plain (List.forall_mem_singleton.mpr (by decide))

namespace Sealed

variable {s t : String}

theorem append (hs : Sealed s) (ht : Sealed t) : Sealed (s ++ t) := by
  rw [Sealed, utf8_append]
  exact SelfContained.append hs ht

theorem of_plain (h : (utf8 s).all isPlainByte = true) : Sealed s :=
  Surface.selfContained_of_plain (List.all_eq_true.mp h)

theorem of_word (h : (utf8 s).all isNameByte = true) : Sealed s :=
  Surface.selfContained_of_plain fun b hb =>
    isPlainByte_of_isNameByte (List.all_eq_true.mp h b hb)

theorem of_moves (h : Moves [] [] (utf8 s)) : Sealed s := h

theorem moves (h : Sealed s) {a : List UInt8} : Moves a a (utf8 s) := .of_selfContained h

theorem quoted (text : String) : Sealed (Literal.quoted text) :=
  selfContained_of_isString (Escaped.chars escaped_escapeChar text.toList).isString

/-- A line of a multiline string hides what is in it, up to its end. -/
theorem verbatim {l : String} (h : '\n' ∉ l.toList) : Sealed ("\\\\" ++ l ++ "\n") := by
  have hbytes : utf8 ("\\\\" ++ l ++ "\n") = (ascii '\\' :: ascii '\\' :: utf8 l) ++ [ascii '\n'] := by
    rw [utf8_append, utf8_append]
    rfl
  have hline : ∀ b ∈ ascii '\\' :: ascii '\\' :: utf8 l, (b != ascii '\n') = true := by
    intro b hb
    rw [bne_iff_ne]
    rintro rfl
    rcases List.mem_cons.mp hb with heq | hb
    · cases heq
    rcases List.mem_cons.mp hb with heq | hb
    · cases heq
    exact LineIndex.newline_not_mem h hb
  intro finish closer outer offset rest
  have htoken : lexeme (ascii '\\') (ascii '\\' :: utf8 l ++ ascii '\n' :: rest) =
      .trivia ((ascii '\\' :: utf8 l).length + 1) := by
    have htake : (ascii '\\' :: (ascii '\\' :: utf8 l ++ ascii '\n' :: rest)).takeWhile
        (· != ascii '\n') = ascii '\\' :: ascii '\\' :: utf8 l := by
      rw [← List.cons_append, List.takeWhile_append_of_pos hline, List.takeWhile_cons,
        if_neg (by decide), List.append_nil]
    change Lexeme.trivia (lineLength _) = _
    rw [lineLength, htake]
    rfl
  rw [hbytes, List.append_assoc, List.singleton_append,
    selfContained_of_token finish closer outer offset htoken, List.length_append, ← Nat.add_assoc]
  exact selfContained_newline finish closer outer _ rest

end Sealed

theorem admits_sealed : Admits Sealed where
  word := Sealed.of_word
  quoted h := selfContained_of_isString h.isString
  literal := selfContained_of_isString

theorem sealed_enumLiteral (name : String) : Sealed (Literal.enumLiteral name) := by
  refine (Sealed.of_plain (by decide)).append ?_
  unfold Literal.identifier
  split
  · next h =>
    refine .of_word (List.all_eq_true.mpr fun b hb => ?_)
    unfold isPlainIdentifier at h
    split at h
    · cases h
    · next first rest hbytes =>
      rw [hbytes] at hb
      simp only [Bool.and_eq_true] at h
      rcases List.mem_cons.mp hb with rfl | hb
      · simp [isNameByte, isIdentByte, h.1.1]
      · have hident := List.all_eq_true.mp h.1.2 b hb
        simp [isNameByte, hident]
  · exact (Sealed.of_plain (by decide)).append (.quoted name)

namespace Code

theorem Builder.sealed_text (b : Builder) : Sealed b.text := by
  unfold Builder.text
  split
  · exact .of_word rfl
  · exact .of_word (all_isNameByte_numbered (s := "__zx_b") (by decide) _)

theorem Builder.sealed_call (b : Builder) {method : String}
    (h : (utf8 method).all isNameByte = true) : Sealed (b.call method) :=
  (b.sealed_text.append (.of_plain (by decide))).append (.of_word h)

theorem sealed_inlineRecord {fields : List String} (h : ∀ field ∈ fields, Sealed field) :
    Sealed (inlineRecord fields) := by
  have hjoined : Sealed (", ".intercalate fields) :=
    intercalate_closed (P := Sealed) Sealed.append (.of_word rfl) (.of_plain (by decide)) h
  unfold inlineRecord
  split
  · exact .of_moves (.glue rfl)
  · exact .of_moves (((Moves.glue rfl).concat hjoined.moves).concat (.glue rfl))

/-- A call with one argument. -/
theorem sealed_callWith (b : Builder) {method code : String}
    (hmethod : (utf8 method).all isNameByte = true) (hcode : Sealed code) :
    Sealed (b.call method ++ "(" ++ code ++ ")") :=
  .of_moves ((((b.sealed_call hmethod).moves.concat (.glue rfl)).concat hcode.moves).concat
    (.glue rfl))

theorem sealed_formatArgs (b : Builder) {args : List String} (h : ∀ arg ∈ args, Sealed (trim arg)) :
    Sealed (formatArgs b args) := by
  refine sealed_inlineRecord fun field hfield => ?_
  obtain ⟨arg, harg, rfl⟩ := List.mem_map.mp hfield
  exact sealed_callWith b (by decide) (h arg harg)

theorem sealed_optionFields {options : List (String × String)}
    (h : ∀ o ∈ options, Sealed o.1 ∧ Sealed o.2) : Sealed (optionFields options) := by
  refine sealed_inlineRecord fun field hfield => ?_
  obtain ⟨o, ho, rfl⟩ := List.mem_map.mp hfield
  exact (((Sealed.of_plain (by decide)).append (h o ho).1).append (.of_plain (by decide))).append
    (h o ho).2

theorem sealed_captureText {capture : Option String} (h : ∀ c ∈ capture, Sealed c) :
    Sealed (captureText capture) := by
  cases capture with
  | none => exact .of_word rfl
  | some c => exact (h c rfl).append (.of_plain (by decide))

theorem sealed_armOpening (first : Bool) {head capture : Option String}
    (hhead : ∀ h ∈ head, Sealed h) (hcapture : ∀ c ∈ capture, Sealed c) :
    Sealed (armOpening first head capture) := by
  cases head with
  | none => exact (Sealed.of_plain (by decide)).append (sealed_captureText hcapture)
  | some h =>
    have hif : Sealed (if first then "if " else " else if ") := by
      cases first <;> exact .of_plain (by decide)
    exact (hif.append (hhead h rfl)).append (.of_plain (by decide))

end Code

end ZigMarkup
