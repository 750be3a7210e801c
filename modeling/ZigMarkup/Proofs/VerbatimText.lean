import ZigMarkup.Code.OfTemplate
import ZigMarkup.Proofs.LineLayout
import ZigMarkup.Proofs.LiteralReading
import ZigMarkup.Proofs.QuietCode

/-!
How Zig reads text that is written verbatim. Such text is the argument of a call: a literal if it
has one line, and otherwise a multiline string, each line behind indentation and two backslashes.
Main statement: wherever the call is written, its argument stands for the text, in which only the
carriage returns of line ends may be missing.
-/
namespace ZigMarkup

namespace Zig

/-- White space between tokens. -/
def isSpace (b : UInt8) : Bool := isMarginByte b || b = ascii '\n' || b = ascii '\r'

mutual

/-- What a line of a multiline string stands for, from behind its backslashes, together with the
lines that follow it; and what stands behind the last of them. -/
def lineText : Bytes → Bytes × Bytes
  | [] => ([], [])
  | b :: rest =>
    if b = ascii '\n' then
      match multiline? rest with
      | some (value, after) => (b :: value, after)
      | none => ([], rest)
    else
      let (value, after) := lineText rest
      (b :: value, after)

/-- What the multiline string that begins a text stands for, and what follows its last line. Each
line has its own indentation, which is no part of the value. -/
def multiline? : Bytes → Option (Bytes × Bytes)
  | [] => none
  | b :: rest =>
    if isMarginByte b then multiline? rest
    else if b = ascii '\\' then
      match rest with
      | [] => none
      | c :: rest => if c = ascii '\\' then some (lineText rest) else none
    else none

end

/-- What the string that a call is given stands for, and what follows it. White space around it
does not count. -/
def argument? (text : Bytes) : Option (Bytes × Bytes) :=
  let text := text.dropWhile isSpace
  (literal? text <|> multiline? text).map fun r => (r.1, r.2.dropWhile isSpace)

theorem isSpace_of_isMarginByte {b : UInt8} (h : isMarginByte b = true) : isSpace b = true := by
  simp [isSpace, h]

/-! ## Multiline strings -/

theorem multiline?_margin {margin : Bytes} (h : ∀ b ∈ margin, isMarginByte b = true)
    (rest : Bytes) : multiline? (margin ++ rest) = multiline? rest := by
  induction margin with
  | nil => rfl
  | cons b margin ih =>
    obtain ⟨hb, hmargin⟩ := List.forall_mem_cons.mp h
    rw [List.cons_append, multiline?.eq_def]
    exact (if_pos hb).trans (ih hmargin)

theorem multiline?_backslashes (rest : Bytes) :
    multiline? (ascii '\\' :: ascii '\\' :: rest) = some (lineText rest) := by
  rw [multiline?, if_neg (by decide), if_pos rfl]
  exact if_pos rfl

theorem lineText_line {l : Bytes} (h : ascii '\n' ∉ l) (rest : Bytes) :
    lineText (l ++ ascii '\n' :: rest) =
      match multiline? rest with
      | some (value, after) => (l ++ ascii '\n' :: value, after)
      | none => (l, rest) := by
  induction l with
  | nil =>
    rw [List.nil_append, lineText, if_pos rfl]
    cases multiline? rest <;> rfl
  | cons b l ih =>
    obtain ⟨hb, hl⟩ := not_or.mp (h ∘ List.mem_cons.mpr)
    rw [List.cons_append, lineText, if_neg (Ne.symm hb), ih hl]
    cases multiline? rest <;> rfl

/-- Lines as they are written in a multiline string, each behind the same indentation. -/
def written (margin : String) (lines : List String) : String :=
  String.join (lines.map fun l => margin ++ ("\\\\" ++ l) ++ "\n")

theorem utf8_written_cons (margin l : String) (lines : List String) :
    utf8 (written margin (l :: lines)) =
      utf8 margin ++ ascii '\\' :: ascii '\\' :: (utf8 l ++ ascii '\n' :: utf8 (written margin lines)) := by
  rw [written, List.map_cons, String.join_cons]
  simp only [utf8_append, List.append_assoc]
  rfl

/-- Written lines are read as the lines that they were, up to where no line begins. -/
theorem multiline?_written {margin : String} (hmargin : ∀ b ∈ utf8 margin, isMarginByte b = true)
    {rest : Bytes} (hrest : multiline? rest = none) {lines : List String} (hne : lines ≠ [])
    (hlines : ∀ l ∈ lines, '\n' ∉ l.toList) :
    multiline? (utf8 (written margin lines) ++ rest) = some (utf8 ("\n".intercalate lines), rest) := by
  induction lines with
  | nil => exact absurd rfl hne
  | cons l lines ih =>
    obtain ⟨hl, hlines⟩ := List.forall_mem_cons.mp hlines
    have hbytes : ascii '\n' ∉ utf8 l := LineIndex.newline_not_mem hl
    rw [utf8_written_cons, List.append_assoc, multiline?_margin hmargin, List.cons_append,
      List.cons_append, multiline?_backslashes, List.append_assoc, List.cons_append,
      lineText_line hbytes]
    cases lines with
    | nil =>
      change some (match multiline? rest with
        | some (value, after) => (utf8 l ++ ascii '\n' :: value, after)
        | none => (utf8 l, rest)) = _
      rw [hrest, String.intercalate_singleton]
    | cons next lines =>
      rw [ih (List.cons_ne_nil _ _) hlines, String.intercalate_cons_cons, utf8_append, utf8_append,
        List.append_assoc]
      rfl

/-! ## Arguments -/

theorem dropWhile_isSpace {space : Bytes} (h : ∀ b ∈ space, isSpace b = true) {b : UInt8}
    (hb : isSpace b = false) (rest : Bytes) : (space ++ b :: rest).dropWhile isSpace = b :: rest := by
  rw [List.dropWhile_append_of_pos h]
  exact List.dropWhile_cons_of_neg (by simp [hb])

theorem argument?_quoted (s : String) {b : UInt8} (hb : isSpace b = false) (rest : Bytes) :
    argument? (utf8 (Literal.quoted s) ++ b :: rest) = some (utf8 s, b :: rest) := by
  have hread := literal?_quoted s (b :: rest)
  have hstart : (utf8 (Literal.quoted s) ++ b :: rest).dropWhile isSpace =
      utf8 (Literal.quoted s) ++ b :: rest := by
    rw [utf8_quoted]
    exact List.dropWhile_cons_of_neg (by decide)
  have hend : (b :: rest).dropWhile isSpace = b :: rest := 
    dropWhile_isSpace (List.forall_mem_nil _) hb rest
  rw [argument?, hstart, hread]
  exact congrArg (fun after => some (utf8 s, after)) hend

theorem argument?_written {outer inner : String} (houter : ∀ b ∈ utf8 outer, isMarginByte b = true)
    (hinner : ∀ b ∈ utf8 inner, isMarginByte b = true) {lines : List String} (hne : lines ≠ [])
    (hlines : ∀ l ∈ lines, '\n' ∉ l.toList) {b : UInt8} (hb : isSpace b = false)
    (hback : b ≠ ascii '\\') (rest : Bytes) :
    argument? (utf8 ("\n" ++ written inner lines ++ outer) ++ b :: rest) =
      some (utf8 ("\n".intercalate lines), b :: rest) := by
  have hmargin : ¬ isMarginByte b = true := fun h => by simp [isSpace_of_isMarginByte h] at hb
  have hrest : multiline? (utf8 outer ++ b :: rest) = none := by
    rw [multiline?_margin houter, multiline?.eq_def]
    exact (if_neg hmargin).trans (if_neg hback)
  have hread := multiline?_written hinner hrest hne hlines
  obtain ⟨l, lines, rfl⟩ := List.exists_cons_of_ne_nil hne
  rw [utf8_written_cons, List.append_assoc, multiline?_margin hinner, List.cons_append] at hread
  have hspace : ∀ c ∈ utf8 "\n" ++ utf8 inner, isSpace c = true := by
    intro c hc
    rcases List.mem_append.mp hc with hc | hc
    · rw [List.mem_singleton.mp hc]
      rfl
    · exact isSpace_of_isMarginByte (hinner c hc)
  have hstart := dropWhile_isSpace hspace (b := ascii '\\') (by decide)
    (ascii '\\' :: (utf8 l ++ ascii '\n' :: utf8 (written inner lines)) ++ (utf8 outer ++ b :: rest))
  have hend := dropWhile_isSpace (fun c hc => isSpace_of_isMarginByte (houter c hc)) hb rest
  have hbytes : utf8 ("\n" ++ written inner (l :: lines) ++ outer) ++ b :: rest =
      (utf8 "\n" ++ utf8 inner) ++ ascii '\\' :: (ascii '\\' :: (utf8 l ++ ascii '\n' ::
        utf8 (written inner lines)) ++ (utf8 outer ++ b :: rest)) := by
    rw [utf8_append, utf8_append, utf8_written_cons]
    simp only [List.append_assoc, List.cons_append]
  rw [hbytes, argument?, hstart, hread]
  exact congrArg (fun after => some (_, after)) hend

end Zig

/-! ## Lines without their carriage returns -/

/-- A text without the carriage return at the end of each of its lines, the last one included. -/
def dropReturns : List Char → List Char
  | [] => []
  | c :: cs =>
    if c = '\r' ∧ (cs = [] ∨ cs.head? = some '\n') then dropReturns cs else c :: dropReturns cs

theorem exists_splitLines (cs : List Char) :
    ∃ l lines, splitLines cs = l :: lines ∧ (l = [] ↔ cs = [] ∨ cs.head? = some '\n') := by
  cases cs with
  | nil => exact ⟨[], [], rfl, by simp⟩
  | cons c cs =>
    by_cases hc : c = '\n'
    · exact ⟨[], splitLines cs, by rw [splitLines, if_pos hc], by simp [hc]⟩
    · rw [splitLines, if_neg hc]
      split
      · exact ⟨[c], [], rfl, by simp [hc]⟩
      · next l lines _ => exact ⟨c :: l, lines, rfl, by simp [hc]⟩

theorem verbatimLines_ne_nil (text : String) : verbatimLines text ≠ [] := by
  obtain ⟨l, lines, hsplit, _⟩ := exists_splitLines text.toList
  rw [verbatimLines, rawLines, hsplit]
  exact List.cons_ne_nil _ _

theorem dropReturn_cons {c : Char} {l : List Char} (h : ¬ (c = '\r' ∧ l = [])) :
    dropReturn (c :: l) = c :: dropReturn l := by
  cases l with
  | nil =>
    have hc : c ≠ '\r' := fun heq => h ⟨heq, rfl⟩
    simp [dropReturn, hc]
  | cons d l =>
    rw [dropReturn, dropReturn, List.getLast?_cons_cons, List.dropLast_cons_cons]
    split <;> rfl

theorem intercalate_cons_head (c : Char) (l : List Char) (lines : List (List Char)) :
    ['\n'].intercalate ((c :: l) :: lines) = c :: ['\n'].intercalate (l :: lines) := by
  cases lines with
  | nil => rw [List.intercalate_singleton, List.intercalate_singleton]
  | cons next lines => simp only [List.intercalate_cons_cons, List.cons_append]

theorem intercalate_dropReturn (cs : List Char) :
    ['\n'].intercalate ((splitLines cs).map dropReturn) = dropReturns cs := by
  induction cs with
  | nil => rfl
  | cons c cs ih =>
    obtain ⟨l, lines, hsplit, hend⟩ := exists_splitLines cs
    rw [hsplit, List.map_cons] at ih
    by_cases hc : c = '\n'
    · subst hc
      rw [splitLines, if_pos rfl, hsplit, List.map_cons, List.map_cons, List.intercalate_cons_cons, ih,
        dropReturns, if_neg fun h => absurd h.1 (by decide)]
      rfl
    rw [splitLines, if_neg hc, hsplit, dropReturns]
    by_cases hdrop : c = '\r' ∧ l = []
    · rw [if_pos ⟨hdrop.1, hend.mp hdrop.2⟩, ← ih, hdrop.1, hdrop.2]
      rfl
    · rw [if_neg fun h => hdrop ⟨h.1, hend.mpr h.2⟩, ← ih, ← intercalate_cons_head,
        ← dropReturn_cons hdrop]
      rfl

/-- Verbatim lines, put together again, are the text without its carriage returns. -/
theorem intercalate_verbatimLines (text : String) :
    "\n".intercalate (verbatimLines text) = String.ofList (dropReturns text.toList) := by
  have hlines : (verbatimLines text).map String.toList = (splitLines text.toList).map dropReturn := by
    simp only [verbatimLines, rawLines, List.map_map, Function.comp_def, String.toList_ofList]
  rw [← intercalate_dropReturn, ← String.toList_inj, String.toList_intercalate, hlines,
    String.toList_ofList, String.toList_ofList]

/-! ## Writing -/

namespace Writer

theorem writeAll_line (w : Writer) {s : String} (h : s ≠ "") :
    w.writeAll (line s) = w.put (w.lead ++ s ++ "\n") true := by
  change (w.write (.text s)).write .newline = _
  rw [write_text w h]
  exact put_put ..

theorem writeAll_lines (w : Writer) (text : String) (lines : List String) :
    (w.put text true).writeAll (lines.flatMap fun l => line ("\\\\" ++ l)) =
      w.put (text ++ Zig.written w.margin lines) true := by
  induction lines generalizing text with
  | nil => rw [Zig.written, List.map_nil, String.join_nil, String.append_empty]; rfl
  | cons l lines ih =>
    have hlead : (w.put text true).lead = w.margin := rfl
    rw [List.flatMap_cons, writeAll_append, writeAll_line _ (by simp), hlead, put_put, ih]
    rw [String.append_assoc, Zig.written, Zig.written, List.map_cons, String.join_cons]

theorem writeAll_indented_lines (w : Writer) (text : String) (lines : List String) :
    (w.put text true).writeAll (indented (lines.flatMap fun l => line ("\\\\" ++ l))) =
      w.put (text ++ Zig.written (w.write .indent).margin lines) true := by
  change ((w.write .indent).put text true).writeAll (_ ++ [.dedent]) = _
  rw [writeAll_append, writeAll_lines]
  rfl

/-- A verbatim text of several lines is written as an indented multiline string. -/
theorem writeAll_verbatim (w : Writer) (b : Code.Builder) {content : String}
    (h : '\n' ∈ content.toList) :
    w.writeAll (Code.textPieces b true content) =
      w.put (w.lead ++ (b.call "raw" ++ "(" ++ ("\n" ++
        Zig.written (w.write .indent).margin (verbatimLines content) ++ w.margin) ++ ")")) false := by
  rw [Code.textPieces, if_neg (by simp), if_pos (by simpa using h), writeAll_append,
    writeAll_append, writeAll_line w (by simp), writeAll_indented_lines]
  change (w.put _ true).write (.text ")") = _
  rw [write_text _ (by decide), put_put]
  simp only [String.append_assoc]
  rfl

end Writer

/-- Text that is not escaped is written as the argument of one call, and Zig reads that argument as
the text itself; a text of several lines lacks the carriage returns of its line ends. -/
theorem verbatim_text_read_back {w : Writer} {width : Nat}
    (hbase : ∀ b ∈ utf8 w.base, isMarginByte b = true) (hunit : w.unit = repeated width " ")
    (runtime : String) (b : Code.Builder) (span : Span) (raw content : String)
    (counter : Code.Counter) :
    ∃ e argument,
      (Code.exprOf b (.text span raw .none (some content))).run counter = (e, counter) ∧
        w.writeAll (e.pieces runtime) =
          w.put (w.lead ++ (b.call "raw" ++ "(" ++ argument ++ ")")) false ∧
        ∀ rest, Zig.argument? (utf8 (argument ++ ")") ++ rest) =
          some (utf8 (if '\n' ∈ content.toList then String.ofList (dropReturns content.toList)
            else content), ascii ')' :: rest) := by
  have hblank : w.Blank := ⟨hbase, hunit ▸ (Writer.blank_start hbase width).unit⟩
  by_cases hlines : '\n' ∈ content.toList
  · refine ⟨.text b true content, _, rfl, w.writeAll_verbatim b hlines, fun rest => ?_⟩
    rw [if_pos hlines, ← intercalate_verbatimLines, utf8_append, List.append_assoc]
    exact Zig.argument?_written hblank.margin (hblank.write .indent).margin
      (verbatimLines_ne_nil content) (fun l => not_mem_verbatimLines) (by decide) (by decide) rest
  · refine ⟨.text b true content, Literal.quoted content, rfl, ?_, fun rest => ?_⟩
    · rw [Code.Expr.pieces, Code.textPieces, if_neg (by simp), if_neg (by simpa using hlines)]
      exact w.write_text (by simp)
    · rw [if_neg hlines, utf8_append, List.append_assoc]
      exact Zig.argument?_quoted content (by decide) rest

/-- A writer inside of indented code, at the beginning of a line. -/
def indentedWriter : Writer := ⟨"\t ", repeated 3 " ", "return ", 2, true⟩

/-- The text has quotes, backslashes, blanks ahead, empty lines, and more carriage returns than line
ends take. -/
theorem verbatim_text_read_back_returns :
    (∀ b ∈ utf8 indentedWriter.base, isMarginByte b = true) ∧
      indentedWriter.unit = repeated 3 " " ∧
      ∃ e argument,
        (Code.exprOf ⟨some 4⟩ (.text ⟨0, 0⟩ "" .none
          (some "\r\n  \"a\\\r\r\n\n\t\\\\ //\rb\r"))).run ⟨5, 4⟩ = (e, ⟨5, 4⟩) ∧
          indentedWriter.writeAll (e.pieces "zx") =
            indentedWriter.put ("\t       " ++
              (Code.Builder.call ⟨some 4⟩ "raw" ++ "(" ++ argument ++ ")")) false ∧
          ∀ rest, Zig.argument? (utf8 (argument ++ ")") ++ rest) =
            some (utf8 "\n  \"a\\\r\n\n\t\\\\ //\rb", ascii ')' :: rest) := by
  have hbase : ∀ b ∈ utf8 indentedWriter.base, isMarginByte b = true := by
    have hall : (utf8 indentedWriter.base).all isMarginByte = true := by decide
    exact List.all_eq_true.mp hall
  exact ⟨hbase, rfl, verbatim_text_read_back hbase rfl "zx" ⟨some 4⟩ ⟨0, 0⟩ ""
    "\r\n  \"a\\\r\r\n\n\t\\\\ //\rb\r" ⟨5, 4⟩⟩

end ZigMarkup
