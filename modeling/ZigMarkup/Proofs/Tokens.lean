import ZigMarkup.Proofs.Brackets

/-!
Reading host code from token to token. A piece cut out of host code is shut if reading it ends
where the piece ends, whatever inert text comes behind it. Where such reading passes the piece
and the blanks behind it, the piece is shut, or it ends in a line that only those blanks ended.
-/
namespace ZigMarkup

/-- Reading from token to token, and by one byte where none begins, comes to an offset. -/
inductive Reaches : Bytes → Nat → Prop
  | here (text : Bytes) : Reaches text 0
  | token {b : UInt8} {rest : Bytes} {length n : Nat} (h : lexeme b rest = .trivia length)
      (hrest : Reaches (rest.drop (length - 1)) n) : Reaches (b :: rest) (length + n)
  | byte {b : UInt8} {rest : Bytes} {n : Nat} (h : lexeme b rest = .plain)
      (hrest : Reaches rest n) : Reaches (b :: rest) (n + 1)

/-! ## One token -/

theorem quotedTail_closed {quote : UInt8} {text : Bytes} (h : (quotedTail quote text).closed) :
    0 < (quotedTail quote text).length ∧
      text[(quotedTail quote text).length - 1]? = some quote := by
  fun_induction quotedTail quote text with
  | case1 => cases h
  | case2 => cases h
  | case3 taken rest tail ih =>
    obtain ⟨hpos, hlast⟩ := ih h
    have hlength : (quotedTail quote rest).length + 2 - 1 =
        ((quotedTail quote rest).length - 1) + 1 + 1 := by omega
    refine ⟨by simp, ?_⟩
    change (ascii '\\' :: taken :: rest)[(quotedTail quote rest).length + 2 - 1]? = some quote
    rw [hlength, List.getElem?_cons_succ, List.getElem?_cons_succ]
    exact hlast
  | case4 rest _ => exact ⟨by simp, rfl⟩
  | case5 => cases h
  | case6 b rest hslash hquote hline tail ih =>
    obtain ⟨hpos, hlast⟩ := ih h
    have hlength : (quotedTail quote rest).length + 1 - 1 =
        ((quotedTail quote rest).length - 1) + 1 := by omega
    refine ⟨by simp, ?_⟩
    change (b :: rest)[(quotedTail quote rest).length + 1 - 1]? = some quote
    rw [hlength, List.getElem?_cons_succ]
    exact hlast

/-- A quoted token closed within a piece is closed there whatever comes behind the piece. -/
theorem quotedTail_of_within {quote : UInt8} {piece after : Bytes}
    (h : (quotedTail quote (piece ++ after)).closed)
    (hle : (quotedTail quote (piece ++ after)).length ≤ piece.length) (other : Bytes) :
    quotedTail quote (piece ++ other) = quotedTail quote (piece ++ after) := by
  have hsame := quotedTail_take_append h
    (piece.drop (quotedTail quote (piece ++ after)).length ++ other)
  rwa [List.take_append_of_le_length hle, ← List.append_assoc, List.take_append_drop] at hsame

/-- A quote that closes a token beyond a piece is among what comes behind the piece. -/
theorem quote_behind {quote : UInt8} {piece after : Bytes}
    (h : (quotedTail quote (piece ++ after)).closed)
    (hgt : piece.length < (quotedTail quote (piece ++ after)).length) :
    after[(quotedTail quote (piece ++ after)).length - 1 - piece.length]? = some quote := by
  have hlast := (quotedTail_closed h).2
  rwa [List.getElem?_append_right (by omega)] at hlast

theorem lineLength_pos {b : UInt8} (h : b ≠ ascii '\n') (rest : Bytes) :
    0 < lineLength (b :: rest) := by
  rw [lineLength, List.takeWhile_cons, if_pos (bne_iff_ne.mpr h), List.length_cons]
  omega

/-- What a token is: a line, a string, a character or a quote that nothing closes. -/
theorem trivia_cases {b : UInt8} {rest : Bytes} {length : Nat} (h : lexeme b rest = .trivia length) :
    ((b = ascii '/' ∨ b = ascii '\\') ∧ rest.head? = some b ∧ length = lineLength (b :: rest)) ∨
    ((b = ascii '"' ∨ b = ascii '\'') ∧ (quotedTail b rest).closed = true ∧
      length = (quotedTail b rest).length + 1) ∨
    (b = ascii '\'' ∧ (quotedTail b rest).closed = false ∧ length = 1) := by
  unfold lexeme at h
  split at h
  · next hline =>
    cases h
    simp only [Bool.and_eq_true, Bool.or_eq_true, decide_eq_true_eq] at hline
    exact .inl ⟨hline.1, hline.2, rfl⟩
  split at h
  · next hquote =>
    dsimp only at h
    split at h
    · next hclosed =>
      cases h
      exact .inr (.inl ⟨.inl hquote, hclosed, rfl⟩)
    · cases h
  split at h
  · next hquote =>
    cases h
    subst hquote
    cases hclosed : (quotedTail (ascii '\'') rest).closed with
    | true => exact .inr (.inl ⟨.inr rfl, rfl, by simp [charLength, quotedToken, hclosed]⟩)
    | false => exact .inr (.inr ⟨rfl, rfl, by simp [charLength, quotedToken, hclosed]⟩)
  · cases h

theorem plain_iff {b : UInt8} {rest : Bytes} : lexeme b rest = .plain ↔
    b ≠ ascii '"' ∧ b ≠ ascii '\'' ∧
      ((b = ascii '/' ∨ b = ascii '\\') → rest.head? ≠ some b) := by
  constructor
  · intro h
    unfold lexeme at h
    split at h
    · cases h
    · next hline =>
      split at h
      · dsimp only at h
        split at h <;> cases h
      · next hquote =>
        split at h
        · cases h
        · next hchar =>
          simp only [Bool.and_eq_true, Bool.or_eq_true, decide_eq_true_eq, not_and] at hline
          exact ⟨hquote, hchar, hline⟩
  · rintro ⟨hquote, hchar, hline⟩
    unfold lexeme
    rw [if_neg (by simpa using hline), if_neg hquote, if_neg hchar]

/-- A byte that may begin a token. -/
def opensToken (b : UInt8) : Bool :=
  b = ascii '/' || b = ascii '\\' || b = ascii '"' || b = ascii '\''

theorem lexeme_of_not_opens {b : UInt8} (h : opensToken b = false) (rest : Bytes) :
    lexeme b rest = .plain := by
  simp only [opensToken, Bool.or_eq_false_iff, decide_eq_false_iff_not] at h
  obtain ⟨⟨⟨hslash, hback⟩, hquote⟩, hchar⟩ := h
  refine plain_iff.mpr ⟨hquote, hchar, fun hb => ?_⟩
  rcases hb with hb | hb
  · exact absurd hb hslash
  · exact absurd hb hback

theorem opensToken_of_plain {b : UInt8} (h : Surface.isPlainByte b = true) :
    opensToken b = false := by
  simp only [Surface.isPlainByte, Bool.and_eq_true, bne_iff_ne, ne_eq] at h
  obtain ⟨⟨⟨⟨⟨hslash, hback⟩, hquote⟩, hchar⟩, _⟩, _⟩ := h
  simp [opensToken, hslash, hback, hquote, hchar]

theorem lexeme_line {b : UInt8} {rest : Bytes} (hb : b = ascii '/' ∨ b = ascii '\\')
    (hhead : rest.head? = some b) : lexeme b rest = .trivia (lineLength (b :: rest)) := by
  unfold lexeme
  rw [if_pos (by simpa using ⟨hb, hhead⟩)]

/-- A quoted token that is closed, with the quote that begins it. -/
theorem lexeme_closed {b : UInt8} {rest : Bytes} (hb : b = ascii '"' ∨ b = ascii '\'')
    (h : (quotedTail b rest).closed = true) :
    lexeme b rest = .trivia ((quotedTail b rest).length + 1) := by
  rcases hb with rfl | rfl
  · rw [lexeme_quote, if_pos h]
  · rw [lexeme_apostrophe, if_pos h]

theorem lexeme_lone {rest : Bytes} (h : (quotedTail (ascii '\'') rest).closed = false) :
    lexeme (ascii '\'') rest = .trivia 1 := by
  rw [lexeme_apostrophe, if_neg (by simp [h])]

theorem trivia_pos {b : UInt8} {rest : Bytes} {length : Nat} (h : lexeme b rest = .trivia length) :
    0 < length := by
  rcases trivia_cases h with ⟨hb, _, rfl⟩ | ⟨_, _, rfl⟩ | ⟨_, _, rfl⟩
  · exact lineLength_pos (by rcases hb with rfl | rfl <;> decide) rest
  · omega
  · omega

/-! ## Reading -/

namespace Reaches

theorem trans {text : Bytes} {a b : Nat} (h : Reaches text a) (hrest : Reaches (text.drop a) b) :
    Reaches text (a + b) := by
  induction h with
  | here text => simpa using hrest
  | @token x rest length n htoken _ ih =>
    have hpos := trivia_pos htoken
    rw [Nat.add_assoc]
    refine .token htoken (ih ?_)
    have hdrop : (x :: rest).drop (length + n) = (rest.drop (length - 1)).drop n := by
      rw [List.drop_drop, show length + n = (length - 1 + n) + 1 by omega, List.drop_succ_cons]
    rwa [hdrop] at hrest
  | @byte x rest n hplain _ ih =>
    rw [Nat.add_right_comm]
    exact .byte hplain (ih (by simpa using hrest))

theorem next {text rest : Bytes} {b : UInt8} {n : Nat} (h : Reaches text n)
    (hdrop : text.drop n = b :: rest) (hplain : lexeme b rest = .plain) : Reaches text (n + 1) :=
  h.trans (hdrop ▸ .byte hplain (.here rest))

theorem plain_append {piece rest : Bytes} {n : Nat} (hpiece : ∀ b ∈ piece, opensToken b = false)
    (h : Reaches rest n) : Reaches (piece ++ rest) (piece.length + n) := by
  induction piece with
  | nil => simpa using h
  | cons b piece ih =>
    have hrest := ih fun x hx => hpiece x (List.mem_cons_of_mem _ hx)
    rw [List.length_cons, Nat.add_right_comm]
    exact .byte (lexeme_of_not_opens (hpiece b List.mem_cons_self) _) hrest

/-- Reading comes to an offset only from those before it. -/
theorem split {text : Bytes} {a b : Nat} (h : Reaches text a) (hb : Reaches text b) (hle : a ≤ b) :
    Reaches (text.drop a) (b - a) := by
  induction h generalizing b with
  | here text => simpa using hb
  | @token x rest length n htoken _ ih =>
    have hpos := trivia_pos htoken
    cases hb with
    | here => omega
    | @token _ _ length' n' htoken' hrest =>
      rw [htoken] at htoken'
      cases htoken'
      have hpart := ih hrest (by omega)
      rwa [List.drop_drop, ← List.drop_succ_cons, show length - 1 + n + 1 = length + n by omega,
        show n' - n = length + n' - (length + n) by omega] at hpart
    | byte hplain =>
      rw [htoken] at hplain
      cases hplain
  | @byte x rest n hplain _ ih =>
    cases hb with
    | here => omega
    | token htoken =>
      rw [hplain] at htoken
      cases htoken
    | @byte _ _ n' _ hrest =>
      have hpart := ih hrest (by omega)
      rwa [List.drop_succ_cons, show n' + 1 - (n + 1) = n' - n by omega]

theorem le_of_token {b : UInt8} {rest : Bytes} {length n : Nat} (h : Reaches (b :: rest) n)
    (htoken : lexeme b rest = .trivia length) (hpos : 0 < n) : length ≤ n := by
  cases h with
  | here => omega
  | token htoken' =>
    rw [htoken] at htoken'
    cases htoken'
    omega
  | byte hplain =>
    rw [htoken] at hplain
    cases hplain

theorem of_byte {b : UInt8} {rest : Bytes} {n : Nat} (hplain : lexeme b rest = .plain)
    (h : Reaches (b :: rest) (n + 1)) : Reaches rest n := by
  generalize hk : n + 1 = k at h
  cases h with
  | here => cases hk
  | token htoken =>
    rw [hplain] at htoken
    cases htoken
  | byte _ hrest =>
    obtain rfl := Nat.succ.inj hk
    exact hrest

/-- Reading goes on behind plain bytes as it does from them. -/
theorem of_plain_append {piece rest : Bytes} {n : Nat}
    (hpiece : ∀ b ∈ piece, opensToken b = false) (h : Reaches (piece ++ rest) (piece.length + n)) :
    Reaches rest n := by
  induction piece with
  | nil => simpa using h
  | cons b piece ih =>
    refine ih (fun x hx => hpiece x (List.mem_cons_of_mem _ hx)) ?_
    rw [List.length_cons, Nat.add_right_comm, List.cons_append] at h
    exact of_byte (lexeme_of_not_opens (hpiece b List.mem_cons_self) _) h

end Reaches

/-! ## Pieces -/

/-- Text that goes on with no token begun before it: it neither makes two slashes of one nor
closes a quote. -/
structure Inert (after : Bytes) : Prop where
  head : after.head? ≠ some (ascii '/') ∧ after.head? ≠ some (ascii '\\')
  quote : ascii '\'' ∉ after

/-- A piece that reading passes as a whole. -/
def Shut (piece : Bytes) : Prop := ∀ after, Inert after → Reaches (piece ++ after) piece.length

/-- A comment or a line of a multiline string, without the end of the line. -/
structure IsLine (line : Bytes) : Prop where
  mark : line.take 2 = [ascii '/', ascii '/'] ∨ line.take 2 = [ascii '\\', ascii '\\']
  unended : ascii '\n' ∉ line

theorem IsLine.exists_mark {line : Bytes} (h : IsLine line) :
    ∃ b tail, line = b :: tail ∧ (b = ascii '/' ∨ b = ascii '\\') ∧ tail.head? = some b := by
  rcases h.mark with hmark | hmark
  all_goals
    match line, hmark with
    | [], hmark => cases hmark
    | [_], hmark => cases hmark
    | b :: c :: rest, hmark =>
      cases hmark
      exact ⟨_, _, rfl, by decide, rfl⟩

/-- A piece that reading comes to the last line of, which has no end. -/
def EndsInLine (piece : Bytes) : Prop :=
  ∃ before line, piece = before ++ line ∧ IsLine line ∧
    ∀ after, Inert after → Reaches (piece ++ after) before.length

namespace Shut

variable {piece : Bytes}

theorem nil : Shut [] := fun _ _ => .here _

theorem byte {b : UInt8} (hplain : ∀ after, Inert after → lexeme b (piece ++ after) = .plain)
    (h : Shut piece) : Shut (b :: piece) :=
  fun after hafter => .byte (hplain after hafter) (h after hafter)

end Shut

theorem EndsInLine.byte {b : UInt8} {piece : Bytes}
    (hplain : ∀ after, Inert after → lexeme b (piece ++ after) = .plain) (h : EndsInLine piece) :
    EndsInLine (b :: piece) := by
  obtain ⟨before, line, rfl, hline, hreach⟩ := h
  exact ⟨b :: before, line, rfl, hline, fun after hafter =>
    .byte (hplain after hafter) (hreach after hafter)⟩

/-- A token at the beginning of a piece, the same whatever comes behind the piece. -/
structure BeginsWith (b : UInt8) (piece : Bytes) (length : Nat) : Prop where
  le : length ≤ piece.length
  token : ∀ after, Inert after → lexeme b (piece ++ after) = .trivia (length + 1)

theorem BeginsWith.shut {b : UInt8} {piece : Bytes} {length : Nat}
    (hb : BeginsWith b piece length) (h : Shut (piece.drop length)) : Shut (b :: piece) := by
  intro after hafter
  have hle := hb.le
  have hrest := h after hafter
  rw [← List.drop_append_of_le_length hle, List.length_drop] at hrest
  have hall := Reaches.token (hb.token after hafter) hrest
  rwa [show length + 1 + (piece.length - length) = (b :: piece).length by
    rw [List.length_cons]; omega] at hall

theorem BeginsWith.endsInLine {b : UInt8} {piece : Bytes} {length : Nat}
    (hb : BeginsWith b piece length) (h : EndsInLine (piece.drop length)) :
    EndsInLine (b :: piece) := by
  obtain ⟨before, line, heq, hline, hreach⟩ := h
  have hle := hb.le
  refine ⟨b :: piece.take length ++ before, line, ?_, hline, fun after hafter => ?_⟩
  · rw [List.append_assoc, ← heq, List.cons_append, List.take_append_drop]
  · have hrest := hreach after hafter
    rw [← List.drop_append_of_le_length hle] at hrest
    have hall := Reaches.token (hb.token after hafter) hrest
    rwa [show length + 1 + before.length = (b :: piece.take length ++ before).length by
      simp only [List.length_cons, List.length_append, List.length_take]; omega] at hall

theorem isLine_of_head {b : UInt8} {piece : Bytes} (hb : b = ascii '/' ∨ b = ascii '\\')
    (hhead : piece.head? = some b) (hline : ascii '\n' ∉ b :: piece) : IsLine (b :: piece) := by
  obtain ⟨rest, rfl⟩ := List.head?_eq_some_iff.mp hhead
  refine ⟨?_, hline⟩
  rcases hb with rfl | rfl
  · exact .inl rfl
  · exact .inr rfl

theorem beginsWith_closed {b : UInt8} {piece after : Bytes} (hb : b = ascii '"' ∨ b = ascii '\'')
    (hclosed : (quotedTail b (piece ++ after)).closed = true)
    (hle : (quotedTail b (piece ++ after)).length ≤ piece.length) :
    BeginsWith b piece (quotedTail b (piece ++ after)).length := by
  refine ⟨hle, fun other _ => ?_⟩
  have hsame := quotedTail_of_within hclosed hle other
  rw [lexeme_closed hb (by rw [hsame]; exact hclosed), hsame]

theorem beginsWith_lone {piece after : Bytes}
    (h : (quotedTail (ascii '\'') (piece ++ after)).closed = false) :
    BeginsWith (ascii '\'') piece 0 := by
  refine ⟨Nat.zero_le _, fun other hother => lexeme_lone ?_⟩
  cases hclosed : (quotedTail (ascii '\'') (piece ++ other)).closed with
  | false => rfl
  | true =>
    exfalso
    by_cases hle : (quotedTail (ascii '\'') (piece ++ other)).length ≤ piece.length
    · rw [quotedTail_of_within hclosed hle after, hclosed] at h
      cases h
    · exact hother.quote (List.mem_of_getElem? (quote_behind hclosed (by omega)))

theorem lineLength_cons_append {b : UInt8} {line rest : Bytes}
    (h : ascii '\n' ∉ b :: line) :
    lineLength (b :: line ++ rest) = line.length + 1 + lineLength rest := by
  have hkeep : ∀ x ∈ b :: line, (x != ascii '\n') = true := by
    intro x hx
    rw [bne_iff_ne]
    rintro rfl
    exact h hx
  rw [lineLength, List.takeWhile_append_of_pos hkeep, List.length_append, List.length_cons,
    lineLength]

/-- What stands before the end of a line of two marks begins with the second. -/
theorem line_head {b : UInt8} {line rest after : Bytes} (hb : b = ascii '/' ∨ b = ascii '\\')
    (hhead : (line ++ ascii '\n' :: rest ++ after).head? = some b) (hline : ascii '\n' ∉ line) :
    line.head? = some b ∧ ascii '\n' ∉ b :: line := by
  have hne : ascii '\n' ≠ b := by rcases hb with rfl | rfl <;> decide
  refine ⟨?_, by rw [List.mem_cons, not_or]; exact ⟨hne, hline⟩⟩
  cases line with
  | nil => exact absurd (Option.some.inj hhead) hne
  | cons x line => exact hhead

theorem beginsWith_line {b : UInt8} {line rest : Bytes} (hb : b = ascii '/' ∨ b = ascii '\\')
    (hhead : line.head? = some b) (hline : ascii '\n' ∉ b :: line) :
    BeginsWith b (line ++ ascii '\n' :: rest) line.length := by
  refine ⟨by simp, fun after _ => ?_⟩
  have hnext : (line ++ ascii '\n' :: rest ++ after).head? = some b := by
    rw [List.append_assoc, List.head?_append, hhead]
    rfl
  rw [lexeme_line hb hnext, List.append_assoc, ← List.cons_append, lineLength_cons_append hline]
  rfl

/-- A piece cut off before blanks and other text: it is shut, or it ends in a line, and then the
line ends right behind it or in the blanks. -/
def CutBefore (back after piece : Bytes) : Prop :=
  Shut piece ∨ (EndsInLine piece ∧ ∀ b rest, back = [] → after = b :: rest → b = ascii '\n')

section Cutting

variable {x : UInt8} {piece back after : Bytes}

theorem CutBefore.byte (hplain : ∀ other, Inert other → lexeme x (piece ++ other) = .plain)
    (h : CutBefore back after piece) : CutBefore back after (x :: piece) := by
  rcases h with hshut | ⟨hends, hend⟩
  · exact .inl (.byte hplain hshut)
  · exact .inr ⟨hends.byte hplain, hend⟩

theorem BeginsWith.cutBefore {length : Nat} (hx : BeginsWith x piece length)
    (h : CutBefore back after (piece.drop length)) : CutBefore back after (x :: piece) := by
  rcases h with hshut | ⟨hends, hend⟩
  · exact .inl (hx.shut hshut)
  · exact .inr ⟨hx.endsInLine hends, hend⟩

/-- A byte at which no token begins stays such a byte before inert text. -/
theorem plain_before_inert {text other : Bytes} (h : lexeme x (piece ++ text) = .plain)
    (hother : Inert other) : lexeme x (piece ++ other) = .plain := by
  obtain ⟨hquote, hchar, hline⟩ := plain_iff.mp h
  refine plain_iff.mpr ⟨hquote, hchar, fun hx => ?_⟩
  cases piece with
  | nil =>
    rcases hx with rfl | rfl
    · exact hother.head.1
    · exact hother.head.2
  | cons y piece => exact hline hx

variable (hback : ∀ b ∈ back, opensToken b = false)

include hback

/-- A line that does not end in a piece ends right behind it or in the blanks. -/
theorem cutBefore_line (hx : x = ascii '/' ∨ x = ascii '\\')
    (hhead : (piece ++ (back ++ after)).head? = some x) (hpiece : ascii '\n' ∉ piece)
    (hle : lineLength (x :: (piece ++ (back ++ after))) ≤ piece.length + 1 + back.length) :
    CutBefore back after (x :: piece) := by
  have hne : ascii '\n' ∉ x :: piece := by
    rw [List.mem_cons, not_or]
    exact ⟨by rcases hx with rfl | rfl <;> decide, hpiece⟩
  rw [← List.cons_append, lineLength_cons_append hne] at hle
  have hend : ∀ b rest, back = [] → after = b :: rest → b = ascii '\n' := by
    rintro b rest rfl rfl
    by_cases hb : b = ascii '\n'
    · exact hb
    · have hpos := lineLength_pos hb rest
      rw [List.nil_append, List.length_nil] at hle
      omega
  refine .inr ⟨⟨[], x :: piece, rfl, isLine_of_head hx ?_ hne, fun _ _ => .here _⟩, hend⟩
  cases piece with
  | cons y piece => exact hhead
  | nil =>
    -- The second mark of the line is neither a blank nor the end of the line.
    exfalso
    cases back with
    | cons y back =>
      have hy : y = x := Option.some.inj hhead
      have hplain := hback y List.mem_cons_self
      rw [hy] at hplain
      rcases hx with rfl | rfl <;> cases hplain
    | nil =>
      obtain ⟨rest, rfl⟩ := List.head?_eq_some_iff.mp hhead
      have hnewline := hend x rest rfl rfl
      rcases hx with rfl | rfl <;> cases hnewline

/-- No blank is the quote that closes a token. -/
theorem closed_within_piece (hx : x = ascii '"' ∨ x = ascii '\'')
    (hclosed : (quotedTail x (piece ++ (back ++ after))).closed = true)
    (hle : (quotedTail x (piece ++ (back ++ after))).length ≤ piece.length + back.length) :
    (quotedTail x (piece ++ (back ++ after))).length ≤ piece.length := by
  rcases Nat.lt_or_ge piece.length (quotedTail x (piece ++ (back ++ after))).length with hgt | hge
  · exfalso
    have hquote := quote_behind hclosed hgt
    rw [List.getElem?_append_left (by omega)] at hquote
    have hplain := hback x (List.mem_of_getElem? hquote)
    rcases hx with rfl | rfl <;> cases hplain
  · exact hge

/-- Where reading passes a piece and the blanks behind it, the piece is cut off before them. -/
theorem Reaches.cut (h : Reaches (piece ++ (back ++ after)) (piece.length + back.length)) :
    CutBefore back after piece := by
  generalize htext : piece ++ (back ++ after) = text at h
  generalize hn : piece.length + back.length = n at h
  induction h generalizing piece with
  | here text =>
    have hnil : piece = [] := List.length_eq_zero_iff.mp (by omega)
    exact .inl (hnil ▸ .nil)
  | @byte b rest n hplain _ ih =>
    cases piece with
    | nil => exact .inl .nil
    | cons x piece =>
      rw [List.cons_append] at htext
      obtain ⟨rfl, rfl⟩ := List.cons.inj htext
      rw [List.length_cons] at hn
      exact (ih rfl (by omega)).byte fun _ hother => plain_before_inert hplain hother
  | @token b rest length n htoken _ ih =>
    cases piece with
    | nil => exact .inl .nil
    | cons x piece =>
      rw [List.cons_append] at htext
      obtain ⟨rfl, rfl⟩ := List.cons.inj htext
      rw [List.length_cons] at hn
      -- A token that ends in the piece is the same in it, and reading goes on behind the token.
      have hinside : ∀ k, BeginsWith x piece k → length = k + 1 →
          CutBefore back after (x :: piece) := by
        rintro k hk rfl
        have hle := hk.le
        have hpart : piece.drop k ++ (back ++ after) =
            (piece ++ (back ++ after)).drop (k + 1 - 1) := by
          rw [Nat.add_sub_cancel, List.drop_append_of_le_length hle]
        exact hk.cutBefore (ih hpart (by rw [List.length_drop]; omega))
      rcases trivia_cases htoken with ⟨hx, hhead, hlength⟩ | ⟨hx, hclosed, hlength⟩ |
        ⟨rfl, hopen, hlength⟩
      · by_cases hnewline : ascii '\n' ∈ piece
        · obtain ⟨line, rest, rfl, hline⟩ := List.eq_append_cons_of_mem hnewline
          obtain ⟨hfirst, hmark⟩ := line_head hx hhead hline
          refine hinside line.length (beginsWith_line hx hfirst hmark) ?_
          rw [hlength, List.append_assoc, ← List.cons_append, lineLength_cons_append hmark]
          rfl
        · exact cutBefore_line hback hx hhead hnewline (by omega)
      · exact hinside _ (beginsWith_closed hx hclosed
          (closed_within_piece hback hx hclosed (by omega))) hlength
      · exact hinside 0 (beginsWith_lone hopen) hlength

end Cutting

theorem inert_paren : Inert [ascii ')'] := ⟨by decide, by decide⟩

theorem Inert.cons {b : UInt8} {after : Bytes} (h : Inert after) (hb : isCloser b = true) :
    Inert (b :: after) := by
  have hne : ∀ {x : UInt8}, isCloser x = false → b ≠ x := by
    rintro x hx rfl
    rw [hb] at hx
    cases hx
  refine ⟨⟨?_, ?_⟩, ?_⟩
  · exact fun heq => hne (by decide) (Option.some.inj heq)
  · exact fun heq => hne (by decide) (Option.some.inj heq)
  · rw [List.mem_cons, not_or]
    exact ⟨(hne (by decide)).symm, h.quote⟩

theorem plain_of_isCloser {b : UInt8} (hb : isCloser b = true) (rest : Bytes) :
    lexeme b rest = .plain := by
  simp only [isCloser, Bool.or_eq_true, decide_eq_true_eq] at hb
  rcases hb with (rfl | rfl) | rfl <;> rfl

/-- Bytes that begin no token may follow a shut piece. -/
theorem Shut.append {piece run : Bytes} (h : Shut piece) (hrun : ∀ b ∈ run, opensToken b = false) :
    Shut (piece ++ run) := by
  intro after hafter
  have hinert : Inert (run ++ after) := by
    cases run with
    | nil => exact hafter
    | cons b run =>
      have hb := hrun b List.mem_cons_self
      refine ⟨⟨?_, ?_⟩, ?_⟩
      · rintro ⟨⟩
        cases hb
      · rintro ⟨⟩
        cases hb
      · intro hmem
        rcases List.mem_append.mp hmem with hmem | hmem
        · cases hrun _ hmem
        · exact hafter.quote hmem
  rw [List.append_assoc, List.length_append]
  refine (h _ hinert).trans ?_
  rw [List.drop_left]
  exact .plain_append hrun (.here after)

/-- A piece up to a closer that reading comes to is shut with its closer. -/
theorem Shut.of_closer {piece after : Bytes} {b : UInt8} (hb : isCloser b = true)
    (h : Reaches (piece ++ b :: after) piece.length) : Shut (piece ++ [b]) := by
  have hshut : Shut piece := by
    rcases @Reaches.cut piece [] (b :: after) (by simp) h with hshut | ⟨_, hend⟩
    · exact hshut
    · have hnewline := hend b after rfl rfl
      rw [hnewline] at hb
      cases hb
  intro other hother
  rw [List.append_assoc, List.singleton_append, List.length_append]
  refine (hshut _ (hother.cons hb)).next ?_ (plain_of_isCloser hb other)
  rw [List.drop_left]

/-- A piece that ends in a line runs on into what is written behind it. -/
theorem EndsInLine.not_reaches {piece : Bytes} (h : EndsInLine piece) :
    ¬ Reaches (piece ++ [ascii ')']) piece.length := by
  obtain ⟨before, line, rfl, hline, hbefore⟩ := h
  intro hall
  have hrest := (hbefore _ inert_paren).split hall (by simp)
  rw [List.append_assoc, List.drop_left, List.length_append, Nat.add_sub_cancel_left] at hrest
  obtain ⟨b, tail, rfl, hb, hhead⟩ := hline.exists_mark
  have htoken : lexeme b (tail ++ [ascii ')']) = .trivia (lineLength (b :: (tail ++ [ascii ')']))) :=
    lexeme_line hb (by rw [List.head?_append, hhead]; rfl)
  rw [← List.cons_append, lineLength_cons_append hline.unended] at htoken
  -- The line is one token with what is written behind it, so reading passes over its end.
  have hlength := hrest.le_of_token htoken (by simp)
  simp only [List.length_cons] at hlength
  have hparen : lineLength [ascii ')'] = 1 := by decide
  omega

/-! ## Groups and patterns -/

/-- What holds wherever a walk from token to token may stop holds of its result. -/
theorem walk_reaches {σ α : Type} {visit : σ → Nat → UInt8 → Bytes → Move σ α}
    {finish : σ → Nat → α} {P : α → Prop} {whole : Bytes}
    (hgo : ∀ state offset b rest length next, visit state offset b rest = .go length next →
      0 < length ∧ Reaches (b :: rest) length)
    (hstop : ∀ state offset b rest result, whole.drop offset = b :: rest → Reaches whole offset →
      visit state offset b rest = .stop result → P result)
    (hfinish : ∀ state reached, P (finish state reached)) (state : σ) :
    P (walk visit finish state whole) := by
  suffices h : ∀ (text : Bytes) (skip : Nat) (state : σ) (offset : Nat),
      whole.drop offset = text → Reaches whole (offset + skip) →
        P (walkFrom visit finish skip state offset text) from
    h whole 0 state 0 rfl (.here whole)
  intro text
  induction text with
  | nil =>
    intro skip state offset _ _
    cases skip <;> exact hfinish state offset
  | cons b rest ih =>
    intro skip state offset htext hreach
    have hrest : whole.drop (offset + 1) = rest := by
      rw [← List.drop_drop, htext]
      rfl
    cases skip with
    | succ skip => exact ih skip state (offset + 1) hrest (by rwa [Nat.add_right_comm])
    | zero =>
      unfold walkFrom
      split
      · next result hvisit => exact hstop state offset b rest result htext hreach hvisit
      · next length next hvisit =>
        obtain ⟨hpos, hstep⟩ := hgo state offset b rest length next hvisit
        refine ih _ _ (offset + 1) hrest ?_
        rw [show offset + 1 + (length - 1) = offset + length by omega]
        exact Reaches.trans hreach (htext ▸ hstep)

theorem groupVisit_go {stack next : List UInt8} {offset length : Nat} {b : UInt8} {rest : Bytes}
    (h : groupVisit stack offset b rest = .go length next) :
    0 < length ∧ Reaches (b :: rest) length := by
  unfold groupVisit at h
  cases hlexeme : lexeme b rest with
  | trivia k =>
    rw [hlexeme] at h
    cases h
    exact ⟨trivia_pos hlexeme, .token hlexeme (.here _)⟩
  | broken k =>
    rw [hlexeme] at h
    cases h
  | plain =>
    rw [hlexeme] at h
    have hone : length = 1 := by
      dsimp only at h
      split at h
      · cases h
        rfl
      split at h
      · split at h
        · cases h
        split at h
        · split at h
          · cases h
          · cases h
            rfl
        · cases h
      · cases h
        rfl
    subst hone
    exact ⟨by omega, .byte hlexeme (.here _)⟩

/-- A group ends with a closer that reading comes to. -/
theorem groupLength_reaches {text : Bytes} {length : Nat} (h : groupLength text = .ok length) :
    ∃ closer rest, 0 < length ∧ isCloser closer = true ∧ text.drop (length - 1) = closer :: rest ∧
      Reaches text (length - 1) := by
  revert h
  refine walk_reaches (P := fun r => r = Except.ok length → _)
    (fun _ _ _ _ _ _ => groupVisit_go) (fun state offset b rest result hdrop hreach hvisit => ?_)
    (fun _ _ h => by cases h) []
  rintro rfl
  unfold groupVisit at hvisit
  split at hvisit
  · cases hvisit
  · cases hvisit
  split at hvisit
  · cases hvisit
  split at hvisit
  · next hcloser =>
    split at hvisit
    · cases hvisit
    split at hvisit
    · split at hvisit
      · cases hvisit
        exact ⟨b, rest, by omega, hcloser, hdrop, hreach⟩
      · cases hvisit
    · cases hvisit
  · cases hvisit

theorem groupLength_reaches_end {text : Bytes} {length : Nat} (h : groupLength text = .ok length) :
    0 < length ∧ Reaches text length := by
  obtain ⟨closer, rest, hpos, hcloser, hdrop, hreach⟩ := groupLength_reaches h
  refine ⟨hpos, ?_⟩
  have hnext := hreach.next hdrop (plain_of_isCloser hcloser rest)
  rwa [show length - 1 + 1 = length by omega] at hnext

/-- The search for a text outside all brackets goes from token to token, too. -/
theorem lengthUntil_reaches {needle text : Bytes} {length : Nat} (hne : needle ≠ [])
    (h : lengthUntil needle text = .ok length) : Reaches text length := by
  have hempty : needle.isEmpty = false := by simpa using hne
  revert h
  refine walk_reaches (P := fun r => r = Except.ok length → Reaches text length)
    (fun state offset b rest k next hvisit => ?_)
    (fun state offset b rest result _ hreach hvisit => ?_) (fun _ reached => ?_) ()
  · unfold untilVisit at hvisit
    split at hvisit
    · cases hvisit
    cases hlexeme : lexeme b rest with
    | trivia l =>
      rw [hlexeme] at hvisit
      cases hvisit
      exact ⟨trivia_pos hlexeme, .token hlexeme (.here _)⟩
    | broken l =>
      rw [hlexeme] at hvisit
      cases hvisit
    | plain =>
      rw [hlexeme] at hvisit
      dsimp only at hvisit
      split at hvisit
      · split at hvisit
        · next l hgroup =>
          cases hvisit
          exact groupLength_reaches_end hgroup
        · cases hvisit
      split at hvisit
      · cases hvisit
      · cases hvisit
        exact ⟨by omega, .byte hlexeme (.here _)⟩
  · rintro rfl
    unfold untilVisit at hvisit
    split at hvisit
    · cases hvisit
      exact hreach
    split at hvisit
    · cases hvisit
    · cases hvisit
    split at hvisit
    · split at hvisit <;> cases hvisit
    split at hvisit
    · cases hvisit
    · cases hvisit
  · rw [hempty]
    intro h
    cases h

end ZigMarkup
