import Mathlib.Data.Nat.Find
import ZigMarkup.Proofs.Dedent

/-!
Which indentation goes away. Lines share the longest run of spaces and tabs that all of them begin
with, but dedenting counts spaces and tabs alike: every line that is not blank loses as many of
them as the line that has the fewest. Main statement: what goes away is the shared indentation
exactly if some line has no other; if not, the lines lose more than they share, and they lose a
space where another one loses a tab.
-/
namespace ZigMarkup

/-- The lines of a text that are not blank. -/
def shownLines (raw : String) : List (List Char) := (textLines raw).filter (!isBlankLine ·)

/-- The longest run of spaces and tabs that all lines begin with. -/
structure SharedMargin (lines : List (List Char)) (margin : List Char) : Prop where
  blank : ∀ c ∈ margin, isMargin c = true
  shared : ∀ line ∈ lines, margin <+: line
  longest : ∀ other, (∀ c ∈ other, isMargin c = true) → (∀ line ∈ lines, other <+: line) →
    other <+: margin

/-- All lines begin with the same characters, as many as told. -/
def AgreeUpTo (lines : List (List Char)) (count : Nat) : Prop :=
  ∀ a ∈ lines, ∀ b ∈ lines, a.take count = b.take count

/-- All lines lose the margin that they share and `extra` more spaces and tabs. -/
structure LoseMargin (lines : List (List Char)) (margin : List Char) (extra : Nat) : Prop where
  shared : SharedMargin lines margin
  more : ∀ line ∈ lines, ∃ more, line.take (margin.length + extra) = margin ++ more ∧
    more.length = extra ∧ ∀ c ∈ more, isMargin c = true
  same : AgreeUpTo lines (margin.length + extra) ↔ extra = 0
  whole : extra = 0 ↔ ∃ line ∈ lines, line.takeWhile isMargin = margin
  mixed : 0 < extra → ∃ a ∈ lines, ∃ b ∈ lines, margin ++ [' '] <+: a ∧ margin ++ ['\t'] <+: b

variable {lines : List (List Char)} {line margin : List Char} {j k : Nat}

/-! ## One line -/

theorem indentation_of_takeWhile (h : line.takeWhile isMargin = margin) :
    indentation line = margin.length := by
  rw [indentation_eq, h]

theorem length_take_of_le_indentation (h : k ≤ indentation line) : (line.take k).length = k := by
  rw [List.length_take, Nat.min_eq_left (le_length_of_le_indentation h)]

theorem length_le_indentation (hblank : ∀ c ∈ margin, isMargin c = true) (h : margin <+: line) :
    margin.length ≤ indentation line := by
  obtain ⟨rest, rfl⟩ := h
  rw [indentation_append hblank]
  exact Nat.le_add_right _ _

/-- A run of blanks as long as the indentation is the indentation. -/
theorem takeWhile_eq_of_prefix (hblank : ∀ c ∈ margin, isMargin c = true) (h : margin <+: line)
    (hlength : indentation line = margin.length) : line.takeWhile isMargin = margin := by
  obtain ⟨rest, rfl⟩ := h
  rw [indentation_append hblank, indentation_eq, Nat.add_eq_left, List.length_eq_zero_iff]
    at hlength
  rw [List.takeWhile_append_of_pos hblank, hlength, List.append_nil]

theorem getElem?_of_lt_indentation {cs : List Char} (h : j < indentation cs) :
    cs[j]? = some ' ' ∨ cs[j]? = some '\t' := by
  have hlt : j < cs.length := le_length_of_le_indentation (Nat.succ_le_of_lt h)
  have hmem : cs[j] ∈ cs.take (j + 1) := List.mem_take_iff_getElem.mpr ⟨j, by omega, rfl⟩
  have hblank := isMargin_of_mem_take (Nat.succ_le_of_lt h) _ hmem
  simpa only [List.getElem?_eq_getElem hlt, Option.some.injEq, isMargin, Bool.or_eq_true,
    decide_eq_true_eq] using hblank

theorem take_append_prefix {cs : List Char} {c : Char} (h : cs[j]? = some c) :
    cs.take j ++ [c] <+: cs := by
  have htake : cs.take (j + 1) = cs.take j ++ [c] := by
    rw [List.take_add_one, h, Option.toList_some]
  exact htake ▸ List.take_prefix _ _

/-! ## Lines that agree -/

/-- Where indented lines first differ, one has a space and another one a tab. -/
theorem exists_mixed (hindent : ∀ line ∈ lines, j < indentation line) (hagree : AgreeUpTo lines j)
    (hdiffer : ¬ AgreeUpTo lines (j + 1)) :
    ∃ a ∈ lines, ∃ b ∈ lines, a[j]? = some ' ' ∧ b[j]? = some '\t' := by
  simp only [AgreeUpTo, not_forall] at hdiffer
  obtain ⟨a, ha, b, hb, hne⟩ := hdiffer
  rw [List.take_add_one, List.take_add_one, hagree a ha b hb] at hne
  rcases getElem?_of_lt_indentation (hindent a ha) with hspace | htab <;>
    rcases getElem?_of_lt_indentation (hindent b hb) with hspace' | htab'
  · exact absurd (by rw [hspace, hspace']) hne
  · exact ⟨a, ha, b, hb, hspace, htab'⟩
  · exact ⟨b, hb, a, ha, hspace', htab⟩
  · exact absurd (by rw [htab, htab']) hne

/-- The margin that indented lines share is what they agree on. -/
theorem exists_sharedMargin (hindent : ∀ line ∈ lines, k ≤ indentation line)
    (hleast : ∃ line ∈ lines, indentation line = k) :
    ∃ margin, SharedMargin lines margin ∧ margin.length ≤ k ∧ (margin.length < k →
      ∃ a ∈ lines, ∃ b ∈ lines, margin ++ [' '] <+: a ∧ margin ++ ['\t'] <+: b) := by
  classical
  obtain ⟨least, hmem, hwidth⟩ := hleast
  obtain ⟨j, hjk, hagree, hmost⟩ :
      ∃ j ≤ k, AgreeUpTo lines j ∧ ∀ i, j < i → i ≤ k → ¬ AgreeUpTo lines i :=
    ⟨Nat.findGreatest (AgreeUpTo lines) k, Nat.findGreatest_le k,
      Nat.findGreatest_spec (Nat.zero_le k) fun _ _ _ _ => rfl,
      fun _ => Nat.findGreatest_is_greatest⟩
  have hlength : (least.take j).length = j := length_take_of_le_indentation (by omega)
  refine ⟨least.take j, ⟨?_, ?_, ?_⟩, by omega, fun hlt => ?_⟩
  · exact isMargin_of_mem_take (by omega)
  · intro line hline
    rw [hagree least hmem line hline]
    exact List.take_prefix _ _
  · intro other hblank hshared
    have hk := length_le_indentation hblank (hshared least hmem)
    have hagreed : AgreeUpTo lines other.length := by
      intro a ha b hb
      rw [← List.prefix_iff_eq_take.mp (hshared a ha), ← List.prefix_iff_eq_take.mp (hshared b hb)]
    have hle : other.length ≤ j := Nat.le_of_not_lt fun hlt => hmost _ hlt (by omega) hagreed
    exact List.prefix_of_prefix_length_le (hshared least hmem) (List.take_prefix _ _) (by omega)
  · obtain ⟨a, ha, b, hb, hspace, htab⟩ := exists_mixed
      (fun line hline => Nat.lt_of_lt_of_le (by omega) (hindent line hline)) hagree
      (hmost (j + 1) (Nat.lt_succ_self j) (by omega))
    refine ⟨a, ha, b, hb, ?_, ?_⟩
    · rw [hagree least hmem a ha]
      exact take_append_prefix hspace
    · rw [hagree least hmem b hb]
      exact take_append_prefix htab

/-- Lines that each lose the least indentation among them. -/
theorem exists_loseMargin (hindent : ∀ line ∈ lines, k ≤ indentation line)
    (hleast : ∃ line ∈ lines, indentation line = k) :
    ∃ margin extra, margin.length + extra = k ∧ LoseMargin lines margin extra := by
  obtain ⟨margin, hmargin, hle, hmixed⟩ := exists_sharedMargin hindent hleast
  obtain ⟨least, hmem, hwidth⟩ := hleast
  obtain ⟨extra, rfl⟩ := Nat.exists_eq_add_of_le hle
  have hmore : ∀ line ∈ lines, ∃ more, line.take (margin.length + extra) = margin ++ more ∧
      more.length = extra ∧ ∀ c ∈ more, isMargin c = true := by
    intro line hline
    have hbegins : margin <+: line.take (margin.length + extra) :=
      List.prefix_of_prefix_length_le (hmargin.shared line hline) (List.take_prefix _ _)
        (by rw [length_take_of_le_indentation (hindent line hline)]; omega)
    obtain ⟨more, hmore⟩ := hbegins
    have hlength := length_take_of_le_indentation (hindent line hline)
    rw [← hmore, List.length_append] at hlength
    refine ⟨more, hmore.symm, by omega, fun c hc => ?_⟩
    exact isMargin_of_mem_take (hindent line hline) c (hmore ▸ List.mem_append_right margin hc)
  have hlonger : ∀ other : List Char, other <+: margin → other.length = margin.length + extra →
      extra = 0 := by
    intro other hother hlength
    have := hother.length_le
    omega
  refine ⟨margin, extra, rfl, hmargin, hmore, ⟨fun hsame => ?_, ?_⟩, ⟨?_, ?_⟩, fun hpos =>
    hmixed (by omega)⟩
  · -- What all lines lose is a run that they share, so it is no longer than the margin.
    refine hlonger (least.take (margin.length + extra)) (hmargin.longest _ ?_ fun line hline => ?_)
      (length_take_of_le_indentation (hindent least hmem))
    · exact isMargin_of_mem_take (hindent least hmem)
    · exact hsame least hmem line hline ▸ List.take_prefix _ _
  · rintro rfl a ha b hb
    rw [Nat.add_zero, ← List.prefix_iff_eq_take.mp (hmargin.shared a ha),
      ← List.prefix_iff_eq_take.mp (hmargin.shared b hb)]
  · rintro rfl
    exact ⟨least, hmem, takeWhile_eq_of_prefix hmargin.blank (hmargin.shared least hmem) hwidth⟩
  · rintro ⟨line, hline, hwhole⟩
    have := hindent line hline
    rw [indentation_of_takeWhile hwhole] at this
    omega

/-! ## Texts -/

theorem newline_mem_of_shownLines {raw : String} (h : 2 ≤ (shownLines raw).length) :
    '\n' ∈ raw.toList := by
  by_contra hone
  have hlength : (shownLines raw).length ≤ (textLines raw).length := List.length_filter_le _ _
  rw [textLines, List.splitOn_eq_singleton hone, List.map_singleton, List.length_singleton]
    at hlength
  omega

theorem dedents_of_shownLines {raw : String} (h : 2 ≤ (shownLines raw).length) :
    ∃ k shown, Dedents k (textLines raw) shown ∧ ∃ text, dedent raw = some text ∧
      text.toList.splitOn '\n' = shown := by
  have hne : dedentLines (textLines raw) ≠ [] := by
    intro hnil
    have hnone : shownLines raw = [] := by
      simpa [shownLines] using dedentLines_eq_nil.mp hnil
    rw [hnone] at h
    cases h
  have hfeed : ∀ shown ∈ dedentLines (textLines raw), '\n' ∉ shown :=
    newline_not_mem_dedentLines fun line hline => not_mem_rawLines (rawLines_eq raw ▸ hline)
  refine ⟨_, _, dedents_dedentLines hne,
    String.ofList (['\n'].intercalate (dedentLines (textLines raw))), ?_, ?_⟩
  · have hcontains : raw.toList.contains '\n' = true := by simpa using newline_mem_of_shownLines h
    rw [dedent, if_pos hcontains, rawLines_eq]
    split
    · next hnil => exact absurd hnil hne
    · rfl
  · rw [String.toList_ofList]
    exact List.splitOn_intercalate '\n' hfeed hne

/-- Every line that is not blank loses the indentation that all of them share, and then as many
spaces and tabs more as are left on the line that has the fewest. So all lose the same string
exactly if none are left on some line; otherwise a space goes away on one line where a tab goes
away on another. -/
theorem dedent_margins (raw : String) (h : 2 ≤ (shownLines raw).length) :
    ∃ margin extra, LoseMargin (shownLines raw) margin extra ∧ ∃ text, dedent raw = some text ∧
      (text.toList.splitOn '\n').filter (!isBlankLine ·) =
        (shownLines raw).map (List.drop (margin.length + extra)) := by
  obtain ⟨k, shown, hdedents, text, htext, hlines⟩ := dedents_of_shownLines h
  have hindent : ∀ line ∈ shownLines raw, k ≤ indentation line := by
    intro line hline
    obtain ⟨hmem, hshown⟩ := List.mem_filter.mp hline
    exact hdedents.least.2 ⟨line, hmem, by simpa using hshown, rfl⟩
  have hleast : ∃ line ∈ shownLines raw, indentation line = k := by
    obtain ⟨line, hmem, hshown, hwidth⟩ := hdedents.least.1
    exact ⟨line, List.mem_filter.mpr ⟨hmem, by simp [hshown]⟩, hwidth⟩
  obtain ⟨margin, extra, rfl, hlose⟩ := exists_loseMargin hindent hleast
  exact ⟨margin, extra, hlose, text, htext, hlines ▸ hdedents.filter_eq⟩

/-- A tab and a space are taken for shared indentation. -/
theorem dedent_margins_mixed : 2 ≤ (shownLines "\ta\n b").length ∧
    dedent "\ta\n b" = some "a\nb" ∧ ¬ AgreeUpTo (shownLines "\ta\n b") 1 ∧
    ∃ margin extra, LoseMargin (shownLines "\ta\n b") margin extra ∧
      ∃ text, dedent "\ta\n b" = some text ∧
        (text.toList.splitOn '\n').filter (!isBlankLine ·) =
          (shownLines "\ta\n b").map (List.drop (margin.length + extra)) :=
  have hlines : 2 ≤ (shownLines "\ta\n b").length := by decide
  ⟨hlines, by decide, by unfold AgreeUpTo; decide, dedent_margins _ hlines⟩

end ZigMarkup
