import ZigMarkup.Proofs.Cuts

/-!
The margin of a line. The index of line starts is an efficient form of a simple rule: the line
of a place begins behind the last line feed before it, and its margin is the spaces and tabs
that it begins with.
-/
namespace ZigMarkup

def isMargin (c : Char) : Bool := c = ' ' || c = '\t'

def isMarginByte (b : UInt8) : Bool := b = ascii ' ' || b = ascii '\t'

/-- What follows the last line feed. -/
def lastLine (text : List Char) : List Char := (text.reverse.takeWhile (· != '\n')).reverse

/-- The spaces and tabs that begin the line on which a text ends. -/
def marginOf (before : String) : String :=
  String.ofList ((lastLine before.toList).takeWhile isMargin)

/-- The last line and what comes before it. -/
theorem exists_lastLine (text : List Char) :
    ∃ earlier, text = earlier ++ lastLine text ∧ '\n' ∉ lastLine text ∧
      (earlier = [] ∨ ∃ lines, earlier = lines ++ ['\n']) := by
  refine ⟨(text.reverse.dropWhile (· != '\n')).reverse, ?_, ?_, ?_⟩
  · rw [lastLine, ← List.reverse_append, List.takeWhile_append_dropWhile, List.reverse_reverse]
  · intro hmem
    have hall := List.all_eq_true.mp (List.all_takeWhile (l := text.reverse) (p := (· != '\n')))
    exact absurd (hall _ (List.mem_reverse.mp hmem)) (by decide)
  · cases hdrop : text.reverse.dropWhile (· != '\n') with
    | nil => exact Or.inl rfl
    | cons c cs =>
      have hline : c = '\n' := by simpa using eq_false_of_dropWhile hdrop
      exact Or.inr ⟨cs.reverse, by simp [hline]⟩

namespace LineIndex

theorem startsFrom_append (x y : Bytes) : ∀ k,
    startsFrom k (x ++ y) = startsFrom k x ++ startsFrom (k + x.length) y := by
  induction x with
  | nil => simp [startsFrom]
  | cons b x ih =>
    intro k
    have hk : k + 1 + x.length = k + (x.length + 1) := by omega
    simp only [List.cons_append, startsFrom, ih, List.length_cons, hk]
    split <;> rfl

theorem startsFrom_bounds (x : Bytes) : ∀ k, ∀ n ∈ startsFrom k x, k < n ∧ n ≤ k + x.length := by
  induction x with
  | nil => simp [startsFrom]
  | cons b x ih =>
    intro k n hn
    have hlater : n ∈ startsFrom (k + 1) x → k < n ∧ n ≤ k + (b :: x).length := by
      intro hn
      have := ih (k + 1) n hn
      rw [List.length_cons]
      omega
    unfold startsFrom at hn
    split at hn
    · rcases List.mem_cons.mp hn with rfl | hn
      · rw [List.length_cons]
        omega
      · exact hlater hn
    · exact hlater hn

theorem startsFrom_eq_nil {x : Bytes} (h : ascii '\n' ∉ x) (k : Nat) : startsFrom k x = [] := by
  induction x generalizing k with
  | nil => rfl
  | cons b x ih =>
    have hb : b ≠ ascii '\n' := fun heq => h (by simp [heq])
    rw [startsFrom, if_neg hb]
    exact ih (fun hmem => h (List.mem_cons_of_mem _ hmem)) (k + 1)

/-- The lines that begin at or before a place are the lines of the text before it. -/
theorem takeWhile_starts (pre post : Bytes) :
    (ofBytes (pre ++ post)).starts.takeWhile (· ≤ pre.length) = 0 :: startsFrom 0 pre := by
  have hsplit : (ofBytes (pre ++ post)).starts =
      (0 :: startsFrom 0 pre) ++ startsFrom pre.length post := by
    simp [ofBytes, startsFrom_append]
  have hbefore : ∀ n ∈ 0 :: startsFrom 0 pre, decide (n ≤ pre.length) = true := by
    intro n hn
    rcases List.mem_cons.mp hn with rfl | hn
    · simp
    · have := startsFrom_bounds pre 0 n hn
      exact decide_eq_true (by omega)
  have hafter : (startsFrom pre.length post).takeWhile (· ≤ pre.length) = [] := by
    cases hstarts : startsFrom pre.length post with
    | nil => rfl
    | cons n ns =>
      have := startsFrom_bounds post pre.length n (by rw [hstarts]; simp)
      rw [List.takeWhile_cons_of_neg (by simp; omega)]
  rw [hsplit, List.takeWhile_append_of_pos hbefore, hafter, List.append_nil]

theorem startOf_lineOf (pre post : Bytes) :
    (ofBytes (pre ++ post)).startOf ((ofBytes (pre ++ post)).lineOf pre.length) =
      (startsFrom 0 pre).getLast?.getD 0 := by
  have hsplit : (ofBytes (pre ++ post)).starts =
      (0 :: startsFrom 0 pre) ++ startsFrom pre.length post := by
    simp [ofBytes, startsFrom_append]
  rw [startOf, lineOf, takeWhile_starts, hsplit, List.getD_eq_getElem?_getD,
    List.getElem?_append_left (by simp), ← List.getLast?_eq_getElem?, List.getLast?_cons]
  rfl

/-- The byte of a line feed stands in a text only where a line feed does. -/
theorem newline_not_mem {cs : List Char} (h : '\n' ∉ cs) :
    ascii '\n' ∉ cs.flatMap String.utf8EncodeChar := by
  intro hmem
  obtain ⟨c, hc, hbyte⟩ := List.mem_flatMap.mp hmem
  have hfeed : IsAsciiChar '\n' := by decide
  exact h (hfeed.eq_of_mem hbyte ▸ hc)

/-- The line on which a text ends begins behind its earlier lines. -/
theorem last_startsFrom {earlier line : List Char} (hline : '\n' ∉ line)
    (hearlier : earlier = [] ∨ ∃ lines, earlier = lines ++ ['\n']) :
    (startsFrom 0 (utf8 (String.ofList (earlier ++ line)))).getLast?.getD 0 =
      (utf8 (String.ofList earlier)).length := by
  have hnone : ∀ k, startsFrom k (line.flatMap String.utf8EncodeChar) = [] :=
    startsFrom_eq_nil (newline_not_mem hline)
  rw [String.ofList_append, utf8_append]
  simp only [utf8_ofList, startsFrom_append, hnone, List.append_nil]
  rcases hearlier with rfl | ⟨lines, rfl⟩
  · rfl
  · have hfeed : String.utf8EncodeChar '\n' = [ascii '\n'] := by decide
    have hstart : ∀ k, startsFrom k [ascii '\n'] = [k + 1] := fun _ => rfl
    simp only [List.flatMap_append, List.flatMap_cons, List.flatMap_nil, List.append_nil, hfeed,
      startsFrom_append, hstart]
    simp

/-- The last line of a text stands behind the last of its line starts. -/
theorem exists_before_lastLine (before : String) :
    ∃ earlier : Bytes, utf8 before = earlier ++
        (lastLine before.toList).flatMap String.utf8EncodeChar ∧
      (startsFrom 0 (utf8 before)).getLast?.getD 0 = earlier.length := by
  obtain ⟨earlier, hsplit, hline, hearlier⟩ := exists_lastLine before.toList
  have hbefore : before = String.ofList (earlier ++ lastLine before.toList) := by
    rw [← hsplit, String.ofList_toList]
  refine ⟨utf8 (String.ofList earlier), ?_, ?_⟩
  · conv => lhs; rw [hbefore, String.ofList_append, utf8_append, utf8_ofList (lastLine _)]
  · have hlast := last_startsFrom hline hearlier
    rwa [← hbefore] at hlast

/-- Margins are read the same from characters and from their bytes. -/
theorem takeWhile_margin {line : List Char} {b : UInt8} (rest : Bytes)
    (hb : isMarginByte b = false) :
    (line.flatMap String.utf8EncodeChar ++ b :: rest).takeWhile isMarginByte =
      (line.takeWhile isMargin).flatMap String.utf8EncodeChar := by
  induction line with
  | nil => simp [hb]
  | cons c line ih =>
    by_cases hc : isMargin c = true
    · have hbytes : ∃ x, String.utf8EncodeChar c = [x] ∧ isMarginByte x := by
        simp only [isMargin, Bool.or_eq_true, decide_eq_true_eq] at hc
        rcases hc with rfl | rfl
        · exact ⟨ascii ' ', by decide, by decide⟩
        · exact ⟨ascii '\t', by decide, by decide⟩
      obtain ⟨x, hx, hxm⟩ := hbytes
      rw [List.takeWhile_cons_of_pos hc, List.flatMap_cons, List.flatMap_cons, hx,
        List.singleton_append, List.singleton_append, List.cons_append,
        List.takeWhile_cons_of_pos hxm, ih]
    · rw [List.takeWhile_cons_of_neg hc, List.flatMap_cons]
      cases hbytes : String.utf8EncodeChar c with
      | nil => exact absurd hbytes String.utf8EncodeChar_ne_nil
      | cons x xs =>
        have hx : ¬ isMarginByte x = true := by
          intro hx
          refine hc ?_
          have hmem : x ∈ String.utf8EncodeChar c := by simp [hbytes]
          simp only [isMarginByte, Bool.or_eq_true, decide_eq_true_eq] at hx
          rcases hx with rfl | rfl
          · have hspace : IsAsciiChar ' ' := by decide
            rw [hspace.eq_of_mem hmem]
            decide
          · have htab : IsAsciiChar '\t' := by decide
            rw [htab.eq_of_mem hmem]
            decide
        rw [List.cons_append, List.cons_append, List.takeWhile_cons_of_neg hx]
        rfl

/-- The margin of a place behind a text, where neither a space nor a tab follows. -/
theorem indentAt_eq (before : String) {b : UInt8} (rest : Bytes)
    (hb : isMarginByte b = false) :
    (ofBytes (utf8 before ++ b :: rest)).indentAt (utf8 before ++ b :: rest) (utf8 before).length =
      marginOf before := by
  obtain ⟨earlier, hbytes, hstart⟩ := exists_before_lastLine before
  have hmin : min (utf8 before).length (utf8 before ++ b :: rest).length = (utf8 before).length := by
    rw [List.length_append]
    omega
  unfold indentAt
  dsimp only
  rw [hmin, startOf_lineOf, hstart, hbytes, List.append_assoc, List.drop_left, marginOf]
  change decode (List.takeWhile isMarginByte _) = _
  rw [takeWhile_margin rest hb, ← utf8_ofList, decode_utf8]

end LineIndex

end ZigMarkup
