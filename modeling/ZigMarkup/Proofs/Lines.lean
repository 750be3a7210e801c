import ZigMarkup.Proofs.Boundaries
import ZigMarkup.Proofs.Margins

/-!
Lines and columns as a reader counts them. The line of a place is one more than the line feeds
before it, and its column one more than the characters behind the last of them. Both say the
same as the index of line starts, which is searched instead.
-/
namespace ZigMarkup

/-- The first `offset` bytes of a source, read as a reader does: the line they end on, and on
that line the column that follows them. Within a character there is no column but the first. -/
structure PlacedAt (source : Bytes) (offset line column : Nat) : Prop where
  line_eq : line = (source.take offset).count (ascii '\n') + 1
  column_eq : isBoundary source offset = true →
    ∃ before : String, utf8 before = source.take offset ∧
      column = (lastLine before.toList).length + 1
  column_inside : isBoundary source offset = false → column = 1

theorem countChars_append (x y : Bytes) : countChars (x ++ y) = countChars x + countChars y :=
  List.countP_append

/-- Each character of a text begins once. -/
theorem countChars_flatMap (cs : List Char) :
    countChars (cs.flatMap String.utf8EncodeChar) = cs.length := by
  induction cs with
  | nil => rfl
  | cons c cs ih =>
    obtain ⟨lead, more, hform, hchar⟩ := utf8EncodeChar_form c
    have hmore : countChars more = 0 := by
      refine List.countP_eq_zero.mpr fun b hb => ?_
      simp [hchar.continues b hb]
    have hlead : countChars (lead :: more) = 1 := by
      rw [countChars, List.countP_cons_of_pos (by simp [hchar.begins])]
      exact congrArg (· + 1) hmore
    rw [List.flatMap_cons, countChars_append, hform, hlead, ih, List.length_cons, Nat.add_comm]

/-- Where a character begins in a text, what comes before is a text. -/
theorem IsText.take_of_isBoundary {source : Bytes} {n : Nat} (h : IsText source)
    (hn : isBoundary source n = true) : IsText (source.take n) := by
  rw [← List.take_append_drop n source] at h
  refine h.before_char fun x hx => ?_
  obtain ⟨rest, hdrop⟩ := List.head?_eq_some_iff.mp hx
  rw [isBoundary, hdrop] at hn
  simpa using hn

namespace LineIndex

theorem length_startsFrom (x : Bytes) : ∀ k, (startsFrom k x).length = x.count (ascii '\n') := by
  induction x with
  | nil => exact fun _ => rfl
  | cons b x ih =>
    intro k
    unfold startsFrom
    split
    · next hb => rw [hb, List.length_cons, ih, List.count_cons_self]
    · next hb => rw [ih, List.count_cons_of_ne hb]

theorem lineOf_eq (pre post : Bytes) :
    (ofBytes (pre ++ post)).lineOf pre.length = pre.count (ascii '\n') := by
  rw [lineOf, takeWhile_starts, List.length_cons, Nat.add_sub_cancel, length_startsFrom]

/-- From the start of the line of a place up to it there stands the last line before it. -/
theorem slice_startOf (before : String) (post : Bytes) :
    Span.slice ⟨(ofBytes (utf8 before ++ post)).startOf
        ((ofBytes (utf8 before ++ post)).lineOf (utf8 before).length), (utf8 before).length⟩
      (utf8 before ++ post) = (lastLine before.toList).flatMap String.utf8EncodeChar := by
  obtain ⟨earlier, hbytes, hstart⟩ := exists_before_lastLine before
  rw [startOf_lineOf, hstart, Span.slice, Span.length]
  dsimp only
  rw [hbytes, List.append_assoc, List.drop_left, List.length_append, Nat.add_sub_cancel_left,
    List.take_left]

/-- The index finds lines and columns as a reader counts them, at the end for all that lies
beyond. -/
theorem placedAt_lineCol {source : Bytes} (h : IsText source) (offset : Nat) :
    PlacedAt source (min offset source.length) ((ofBytes source).lineCol source offset).1
      ((ofBytes source).lineCol source offset).2 := by
  have hle : min offset source.length ≤ source.length := Nat.min_le_right ..
  unfold lineCol
  -- From here on the offset matters only as far as it lies in the source.
  generalize min offset source.length = n at hle
  have hlength : (source.take n).length = n := by
    rw [List.length_take]
    omega
  refine ⟨?_, fun hn => ?_, fun hn => ?_⟩
  · have hline := lineOf_eq (source.take n) (source.drop n)
    rw [List.take_append_drop, hlength] at hline
    exact congrArg (· + 1) hline
  · obtain ⟨before, hbefore⟩ := h.take_of_isBoundary hn
    have hslice := slice_startOf before (source.drop n)
    rw [← hbefore, hlength, List.take_append_drop] at hslice
    refine ⟨before, hbefore.symm, ?_⟩
    simp only [hn, if_true]
    rw [hslice, countChars_flatMap]
  · simp [hn]

end LineIndex

end ZigMarkup
