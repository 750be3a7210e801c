import Mathlib.Data.List.Forall2
import Mathlib.Order.Bounds.Basic
import ZigMarkup.Proofs.QuietText

/-!
Text without its layout. Lines are told apart by line feeds, and one that has only white space is
blank. Main statement: of a text with several lines, blank lines at both ends and the least
indentation go away and nothing else; what is left keeps its lines, their order and how far each
stands behind the others.
-/
namespace ZigMarkup

/-- What is left of a line that loses `k` characters of indentation: nothing of a blank line, and
of any other all but `k` spaces and tabs. -/
inductive Shifted (k : Nat) : List Char → List Char → Prop where
  | blank {line : List Char} (h : isBlankLine line = true) : Shifted k line []
  | text {margin shown : List Char} (hmargin : ∀ c ∈ margin, isMargin c = true)
      (hlength : margin.length = k) (h : isBlankLine (margin ++ shown) = false) :
      Shifted k (margin ++ shown) shown

/-- What is left of lines without their layout: those from the first to the last that is not blank,
less the indentation that is the least one among lines that are not blank. -/
structure Dedents (k : Nat) (lines shown : List (List Char)) : Prop where
  least : IsLeast {n | ∃ line ∈ lines, isBlankLine line = false ∧ indentation line = n} k
  cut : ∃ before core after, lines = before ++ core ++ after ∧
    (∀ line ∈ before, isBlankLine line = true) ∧ (∀ line ∈ after, isBlankLine line = true) ∧
    core ≠ [] ∧ (∀ line ∈ core.head?, isBlankLine line = false) ∧
    (∀ line ∈ core.getLast?, isBlankLine line = false) ∧ List.Forall₂ (Shifted k) core shown

theorem isBlank_of_isMargin {c : Char} (h : isMargin c = true) : isBlank c = true := by
  simp only [isMargin, Bool.or_eq_true, decide_eq_true_eq] at h
  rcases h with rfl | rfl <;> decide

/-! ## Lines -/

/-- The lines of a text, each without the carriage return of its end. -/
def textLines (raw : String) : List (List Char) := (raw.toList.splitOn '\n').map dropReturn

theorem splitLines_eq_splitOn (cs : List Char) : splitLines cs = cs.splitOn '\n' := by
  induction cs with
  | nil => rfl
  | cons c cs ih =>
    rw [splitLines, List.splitOn_cons_eq_if_modifyHead, ih]
    by_cases hc : c = '\n'
    · rw [if_pos hc, if_pos (by simpa using hc)]
    · rw [if_neg hc, if_neg (by simpa using hc)]
      cases hsplit : cs.splitOn '\n' with
      | nil => exact absurd hsplit (List.splitOn_ne_nil _ _)
      | cons l lines => rfl

theorem rawLines_eq (raw : String) : rawLines raw = textLines raw := by
  rw [rawLines, splitLines_eq_splitOn, textLines]

/-! ## Indentation -/

theorem indentation_eq (line : List Char) : indentation line = (line.takeWhile isMargin).length := rfl

theorem isMargin_of_mem_take {line : List Char} {k : Nat} (h : k ≤ indentation line) :
    ∀ c ∈ line.take k, isMargin c = true := by
  have hsplit : line.takeWhile isMargin ++ line.dropWhile isMargin = line :=
    List.takeWhile_append_dropWhile
  rw [indentation_eq] at h
  intro c hc
  rw [← hsplit, List.take_append_of_le_length h] at hc
  exact List.all_eq_true.mp List.all_takeWhile c (List.mem_of_mem_take hc)

theorem le_length_of_le_indentation {line : List Char} {k : Nat} (h : k ≤ indentation line) :
    k ≤ line.length :=
  Nat.le_trans h (List.takeWhile_prefix _).length_le

theorem indentation_append {margin : List Char} (h : ∀ c ∈ margin, isMargin c = true)
    (rest : List Char) : indentation (margin ++ rest) = margin.length + indentation rest := by
  rw [indentation_eq, List.takeWhile_append_of_pos h, List.length_append, ← indentation_eq]

/-- The shared indentation is the least one of a line that is not blank. -/
theorem isLeast_sharedIndentation {lines : List (List Char)}
    (h : ∃ line ∈ lines, isBlankLine line = false) :
    IsLeast {n | ∃ line ∈ lines, isBlankLine line = false ∧ indentation line = n}
      (sharedIndentation lines) := by
  obtain ⟨line, hline, hshown⟩ := h
  have hmem : ∀ n, n ∈ (lines.filter (!isBlankLine ·)).map indentation ↔
      ∃ line ∈ lines, isBlankLine line = false ∧ indentation line = n := by
    simp [and_assoc]
  have hne : (lines.filter (!isBlankLine ·)).map indentation ≠ [] :=
    List.ne_nil_of_mem ((hmem _).mpr ⟨line, hline, hshown, rfl⟩)
  obtain ⟨k, hk⟩ := Option.ne_none_iff_exists'.mp (mt List.min?_eq_none_iff.mp hne)
  obtain ⟨hattained, hbelow⟩ := List.min?_eq_some_iff.mp hk
  rw [sharedIndentation, hk]
  exact ⟨(hmem k).mp hattained, fun n hn => hbelow n ((hmem n).mpr hn)⟩

theorem isBlankLine_append_margin {margin : List Char} (h : ∀ c ∈ margin, isMargin c = true)
    (rest : List Char) : isBlankLine (margin ++ rest) = isBlankLine rest := by
  have hblank : margin.all isBlank = true :=
    List.all_eq_true.mpr fun c hc => isBlank_of_isMargin (h c hc)
  rw [isBlankLine, List.all_append, hblank, Bool.true_and, isBlankLine]

/-! ## Shifted lines -/

namespace Shifted

variable {k : Nat} {line shown : List Char}

theorem isBlankLine_eq (h : Shifted k line shown) : isBlankLine shown = isBlankLine line := by
  cases h with
  | blank h => exact h.symm
  | text hmargin _ _ => exact (isBlankLine_append_margin hmargin shown).symm

theorem eq_drop (h : Shifted k line shown) (hline : isBlankLine line = false) :
    shown = line.drop k := by
  cases h with
  | blank h => rw [h] at hline; cases hline
  | text _ hlength _ => rw [← hlength, List.drop_left]

theorem subset (h : Shifted k line shown) : shown ⊆ line := by
  cases h with
  | blank _ => exact List.nil_subset _
  | text _ _ _ => exact List.subset_append_right _ _

end Shifted

theorem shifted_shiftLeft {k : Nat} {line : List Char}
    (h : isBlankLine line = false → k ≤ indentation line) : Shifted k line (shiftLeft k line) := by
  rw [shiftLeft]
  split
  · next hblank => exact .blank hblank
  · next hblank =>
    have hline := Bool.eq_false_iff.mpr hblank
    have hlength : (line.take k).length = k := by
      rw [List.length_take, Nat.min_eq_left (le_length_of_le_indentation (h hline))]
    have hshift : isBlankLine (line.take k ++ line.drop k) = false →
        Shifted k (line.take k ++ line.drop k) (line.drop k) :=
      .text (isMargin_of_mem_take (h hline)) hlength
    rw [List.take_append_drop] at hshift
    exact hshift hline

theorem filter_shifted {k : Nat} {lines shown : List (List Char)}
    (h : List.Forall₂ (Shifted k) lines shown) :
    shown.filter (!isBlankLine ·) = (lines.filter (!isBlankLine ·)).map (List.drop k) := by
  induction h with
  | nil => rfl
  | cons h _ ih =>
    rw [List.filter_cons, List.filter_cons, h.isBlankLine_eq]
    split
    · next hline => rw [List.map_cons, ih, h.eq_drop (by simpa using hline)]
    · exact ih

/-! ## Empty ends -/

theorem ne_nil_of_head?_dropWhile {lines : List (List Char)} {line : List Char}
    (h : line ∈ (lines.dropWhile List.isEmpty).head?) : line ≠ [] := by
  obtain ⟨rest, hrest⟩ := List.head?_eq_some_iff.mp h
  simpa using eq_false_of_dropWhile hrest

theorem eq_nil_of_mem_takeWhile {lines : List (List Char)} {line : List Char}
    (h : line ∈ lines.takeWhile List.isEmpty) : line = [] :=
  List.isEmpty_iff.mp (List.all_eq_true.mp List.all_takeWhile line h)

/-- Only empty lines are dropped, and none is left at an end. -/
theorem dropEmptyEnds_parts (lines : List (List Char)) :
    ∃ before after, lines = before ++ dropEmptyEnds lines ++ after ∧
      (∀ line ∈ before, line = []) ∧ (∀ line ∈ after, line = []) ∧
      (∀ line ∈ (dropEmptyEnds lines).head?, line ≠ []) ∧
      ∀ line ∈ (dropEmptyEnds lines).getLast?, line ≠ [] := by
  have hlines : lines = lines.takeWhile List.isEmpty ++ lines.dropWhile List.isEmpty :=
    List.takeWhile_append_dropWhile.symm
  have hinner : lines.dropWhile List.isEmpty = dropEmptyEnds lines ++
      ((lines.dropWhile List.isEmpty).reverse.takeWhile List.isEmpty).reverse := by
    rw [dropEmptyEnds, ← List.reverse_append, List.takeWhile_append_dropWhile, List.reverse_reverse]
  refine ⟨lines.takeWhile List.isEmpty,
    ((lines.dropWhile List.isEmpty).reverse.takeWhile List.isEmpty).reverse, ?_, ?_, ?_, ?_, ?_⟩
  · rw [List.append_assoc, ← hinner, ← hlines]
  · exact fun line => eq_nil_of_mem_takeWhile
  · exact fun line hline => eq_nil_of_mem_takeWhile (List.mem_reverse.mp hline)
  · intro line hline
    have hhead : line ∈ (lines.dropWhile List.isEmpty).head? := by
      rw [hinner, List.head?_append, Option.mem_def.mp hline]
      rfl
    exact ne_nil_of_head?_dropWhile hhead
  · intro line hline
    rw [dropEmptyEnds, List.getLast?_reverse] at hline
    exact ne_nil_of_head?_dropWhile hline

/-! ## Layout -/

theorem shiftLeft_eq_nil {k : Nat} {line : List Char}
    (h : isBlankLine line = false → k ≤ indentation line) :
    shiftLeft k line = [] ↔ isBlankLine line = true := by
  constructor
  · intro hnil
    have hblank := (shifted_shiftLeft h).isBlankLine_eq
    rw [hnil] at hblank
    exact hblank.symm
  · intro hblank
    rw [shiftLeft, if_pos hblank]

theorem sharedIndentation_le {lines : List (List Char)} {line : List Char} (hmem : line ∈ lines)
    (hline : isBlankLine line = false) : sharedIndentation lines ≤ indentation line :=
  (isLeast_sharedIndentation ⟨line, hmem, hline⟩).2 ⟨line, hmem, hline, rfl⟩

/-- Dropping empty lines once they are shifted drops the blank lines at both ends. -/
theorem dedentLines_parts (lines : List (List Char)) :
    ∃ before core after, lines = before ++ core ++ after ∧
      (∀ line ∈ before, isBlankLine line = true) ∧ (∀ line ∈ after, isBlankLine line = true) ∧
      (∀ line ∈ core.head?, isBlankLine line = false) ∧
      (∀ line ∈ core.getLast?, isBlankLine line = false) ∧
      dedentLines lines = core.map (shiftLeft (sharedIndentation lines)) := by
  obtain ⟨before', after', hshifted, hbefore, hafter, hhead, hlast⟩ :=
    dropEmptyEnds_parts (lines.map (shiftLeft (sharedIndentation lines)))
  obtain ⟨front, after, hlines, hfront, rfl⟩ := List.map_eq_append_iff.mp hshifted
  obtain ⟨before, core, rfl, rfl, hcore⟩ := List.map_eq_append_iff.mp hfront
  have hnil : ∀ line ∈ lines,
      shiftLeft (sharedIndentation lines) line = [] ↔ isBlankLine line = true :=
    fun line hmem => shiftLeft_eq_nil (sharedIndentation_le hmem)
  rw [← hcore] at hhead hlast
  refine ⟨before, core, after, hlines, ?_, ?_, ?_, ?_, hcore.symm⟩
  · intro line hmem
    exact (hnil line (by simp [hlines, hmem])).mp (hbefore _ (List.mem_map_of_mem hmem))
  · intro line hmem
    exact (hnil line (by simp [hlines, hmem])).mp (hafter _ (List.mem_map_of_mem hmem))
  · intro line hmem
    have hne := hhead (shiftLeft (sharedIndentation lines) line) (by simp [Option.mem_def.mp hmem])
    rw [ne_eq, hnil line (by simp [hlines, List.mem_of_mem_head? hmem])] at hne
    exact Bool.eq_false_iff.mpr hne
  · intro line hmem
    have hne := hlast (shiftLeft (sharedIndentation lines) line) (by simp [Option.mem_def.mp hmem])
    rw [ne_eq, hnil line (by simp [hlines, List.mem_of_mem_getLast? hmem])] at hne
    exact Bool.eq_false_iff.mpr hne

theorem dedentLines_eq_nil {lines : List (List Char)} :
    dedentLines lines = [] ↔ ∀ line ∈ lines, isBlankLine line = true := by
  obtain ⟨before, core, after, hlines, hbefore, hafter, hhead, _, hshown⟩ := dedentLines_parts lines
  rw [hshown, List.map_eq_nil_iff]
  constructor
  · rintro rfl line hmem
    rw [hlines, List.append_nil] at hmem
    exact (List.mem_append.mp hmem).elim (hbefore line) (hafter line)
  · intro hblank
    cases core with
    | nil => rfl
    | cons line core =>
      have hline := hhead line rfl
      rw [hblank line (by simp [hlines])] at hline
      cases hline

theorem dedents_dedentLines {lines : List (List Char)} (h : dedentLines lines ≠ []) :
    Dedents (sharedIndentation lines) lines (dedentLines lines) := by
  have hexists : ∃ line ∈ lines, isBlankLine line = false := by
    rw [ne_eq, dedentLines_eq_nil] at h
    simpa using h
  obtain ⟨before, core, after, hlines, hbefore, hafter, hhead, hlast, hshown⟩ :=
    dedentLines_parts lines
  refine ⟨isLeast_sharedIndentation hexists, before, core, after, hlines, hbefore, hafter, ?_, hhead,
    hlast, ?_⟩
  · rintro rfl
    exact h hshown
  · rw [hshown, List.forall₂_map_right_iff, List.forall₂_same]
    intro line hmem
    exact shifted_shiftLeft (sharedIndentation_le (by simp [hlines, hmem]))

namespace Dedents

variable {k : Nat} {lines shown : List (List Char)}

/-- Lines that are not blank stay, in their order. -/
theorem filter_eq (h : Dedents k lines shown) :
    shown.filter (!isBlankLine ·) = (lines.filter (!isBlankLine ·)).map (List.drop k) := by
  obtain ⟨before, core, after, rfl, hbefore, hafter, _, _, _, hshown⟩ := h.cut
  have hnone : ∀ ls : List (List Char), (∀ line ∈ ls, isBlankLine line = true) →
      ls.filter (!isBlankLine ·) = [] := by
    intro ls hls
    simpa using hls
  rw [filter_shifted hshown, List.filter_append, List.filter_append, hnone before hbefore,
    hnone after hafter, List.nil_append, List.append_nil]

/-- All lines that are not blank lose the same width. -/
theorem indentation_eq_add (h : Dedents k lines shown) {line : List Char} (hmem : line ∈ lines)
    (hline : isBlankLine line = false) : indentation line = k + indentation (line.drop k) := by
  have hle : k ≤ indentation line := h.least.2 ⟨line, hmem, hline, rfl⟩
  have hsum := indentation_append (isMargin_of_mem_take hle) (line.drop k)
  rwa [List.take_append_drop, List.length_take,
    Nat.min_eq_left (le_length_of_le_indentation hle)] at hsum

theorem mem_of_drop (h : Dedents k lines shown) {line : List Char} (hmem : line ∈ lines)
    (hline : isBlankLine line = false) : line.drop k ∈ shown := by
  have hkept : line.drop k ∈ shown.filter (!isBlankLine ·) := by
    rw [h.filter_eq]
    exact List.mem_map_of_mem (List.mem_filter.mpr ⟨hmem, by simp [hline]⟩)
  exact (List.mem_filter.mp hkept).1

/-- A line with the least indentation is left with none. -/
theorem exists_flush (h : Dedents k lines shown) :
    ∃ c rest, c :: rest ∈ shown ∧ isMargin c = false := by
  obtain ⟨line, hmem, hline, hwidth⟩ := h.least.1
  have hnone : indentation (line.drop k) = 0 := by
    have hsum := h.indentation_eq_add hmem hline
    omega
  have hshown := h.mem_of_drop hmem hline
  have hblank := isBlankLine_append_margin
    (isMargin_of_mem_take (Nat.le_of_eq hwidth.symm)) (line.drop k)
  rw [List.take_append_drop, hline] at hblank
  cases hdrop : line.drop k with
  | nil =>
    rw [hdrop] at hblank
    cases hblank
  | cons c rest =>
    refine ⟨c, rest, hdrop ▸ hshown, Bool.eq_false_iff.mpr fun hc => ?_⟩
    rw [hdrop, indentation_eq, List.takeWhile_cons_of_pos hc] at hnone
    cases hnone

end Dedents

theorem newline_not_mem_dedentLines {lines : List (List Char)} (h : ∀ line ∈ lines, '\n' ∉ line) :
    ∀ shown ∈ dedentLines lines, '\n' ∉ shown := by
  obtain ⟨before, core, after, hlines, _, _, _, _, hshown⟩ := dedentLines_parts lines
  intro shown hmem
  rw [hshown] at hmem
  obtain ⟨line, hline, rfl⟩ := List.mem_map.mp hmem
  have hin : line ∈ lines := by simp [hlines, hline]
  exact fun hfeed => h line hin ((shifted_shiftLeft (sharedIndentation_le hin)).subset hfeed)

/-- Layout goes away and nothing else. A text on one line is kept. Of a text with line feeds nothing
is left exactly if all its lines are blank; otherwise its lines are dedented, so that those that are
not blank keep their number, their order and their indentation relative to each other, and one of
them begins at the margin. -/
theorem dedent_removes_layout (raw : String) :
    ('\n' ∉ raw.toList → dedent raw = if raw = "" then none else some raw) ∧
      ('\n' ∈ raw.toList →
        (dedent raw = none ↔ ∀ line ∈ textLines raw, isBlankLine line = true) ∧
          ∀ text ∈ dedent raw, ∃ k shown, Dedents k (textLines raw) shown ∧
            text = String.ofList (['\n'].intercalate shown) ∧ text.toList.splitOn '\n' = shown ∧
            shown.filter (!isBlankLine ·) =
              ((textLines raw).filter (!isBlankLine ·)).map (List.drop k) ∧
            (∀ line ∈ textLines raw, isBlankLine line = false →
              indentation line = k + indentation (line.drop k)) ∧
            ∃ c rest, c :: rest ∈ shown ∧ isMargin c = false) := by
  have hfeed : ∀ shown ∈ dedentLines (textLines raw), '\n' ∉ shown :=
    newline_not_mem_dedentLines fun line hline => not_mem_rawLines (rawLines_eq raw ▸ hline)
  constructor
  · intro hone
    rw [dedent, if_neg (by simpa using hone)]
    simp
  · intro hmany
    rw [dedent, if_pos (by simpa using hmany), rawLines_eq, ← dedentLines_eq_nil]
    cases hshown : dedentLines (textLines raw) with
    | nil => simp
    | cons first rest =>
      have hdedents := dedents_dedentLines (hshown.trans_ne (List.cons_ne_nil first rest))
      rw [hshown] at hdedents hfeed
      refine ⟨by simp, fun text htext => ?_⟩
      obtain rfl := Option.some.inj htext
      refine ⟨sharedIndentation (textLines raw), first :: rest, hdedents, rfl, ?_,
        hdedents.filter_eq, fun line => hdedents.indentation_eq_add, hdedents.exists_flush⟩
      rw [String.toList_ofList]
      exact List.splitOn_intercalate '\n' hfeed (List.cons_ne_nil first rest)

-- Tabs and spaces count alike, and a line of other white space is blank.
example : dedent "\r\n\t  a\r\n\u2003\n  b\r\n" = some " a\n\nb" := by decide

end ZigMarkup
