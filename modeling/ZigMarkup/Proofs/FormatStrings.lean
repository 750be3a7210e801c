import ZigMarkup.Proofs.LiteralReading
import ZigMarkup.Proofs.VisibleCode

/-!
What template strings say. Such a string is text with code in braces. It becomes a format string,
in which text is escaped for a literal and braces that are text are written twice, and a list of
arguments. Main statement: read as a literal and then as a format, the format string gives back the
text, byte for byte, with one placeholder for each piece of code and in the same order.
-/
namespace ZigMarkup

namespace Zig

/-- A part of a format: a byte that is copied, or the place of the next argument. -/
inductive FormatItem where
  | byte (b : UInt8)
  | argument
deriving DecidableEq, Repr

/-- Reads a format. Two equal braces stand for one, and `s` in braces for the next argument;
nothing else may stand in braces, and no brace may stand alone. -/
def formatItems? : Bytes → Option (List FormatItem)
  | [] => some []
  | b :: rest =>
    if b = ascii '\x7b' then
      match rest with
      | [] => none
      | c :: rest =>
        if c = ascii '\x7b' then (formatItems? rest).map (.byte c :: ·)
        else
          match rest with
          | [] => none
          | d :: rest =>
            if c = ascii 's' && d = ascii '\x7d' then (formatItems? rest).map (.argument :: ·)
            else none
    else if b = ascii '\x7d' then
      match rest with
      | [] => none
      | c :: rest => if c = ascii '\x7d' then (formatItems? rest).map (.byte c :: ·) else none
    else (formatItems? rest).map (.byte b :: ·)

/-- A format filled with arguments; nothing if there are too few or too many of them. -/
def render? : List FormatItem → List Bytes → Option Bytes
  | [], [] => some []
  | [], _ :: _ => none
  | .byte b :: items, values => (render? items values).map (b :: ·)
  | .argument :: _, [] => none
  | .argument :: items, value :: values => (render? items values).map (value ++ ·)

/-- Text with every brace written twice. -/
def doubled (text : Bytes) : Bytes :=
  text.flatMap fun b => if b = ascii '\x7b' || b = ascii '\x7d' then [b, b] else [b]

theorem formatItems?_brace {b : UInt8} (h : b = ascii '\x7b' ∨ b = ascii '\x7d') (rest : Bytes) :
    formatItems? (b :: b :: rest) = (formatItems? rest).map (.byte b :: ·) := by
  rw [formatItems?.eq_def]
  rcases h with rfl | rfl
  · simp only [if_true]
  · simp only [if_true, show ascii '\x7d' ≠ ascii '\x7b' by decide, if_false]

theorem formatItems?_argument (rest : Bytes) :
    formatItems? (utf8 "\x7bs\x7d" ++ rest) = (formatItems? rest).map (.argument :: ·) := by
  change formatItems? (ascii '\x7b' :: ascii 's' :: ascii '\x7d' :: rest) = _
  rw [formatItems?.eq_def]
  simp only [if_true, show ascii 's' ≠ ascii '\x7b' by decide, if_false, decide_true, Bool.and_self]

/-- Text with its braces doubled stands for itself, whatever follows it. -/
theorem formatItems?_doubled (text rest : Bytes) :
    formatItems? (doubled text ++ rest) = (formatItems? rest).map (text.map .byte ++ ·) := by
  induction text with
  | nil => simp [doubled]
  | cons b text ih =>
    have hnext : (formatItems? (doubled text ++ rest)).map (FormatItem.byte b :: ·) =
        (formatItems? rest).map ((b :: text).map .byte ++ ·) := by
      rw [ih, Option.map_map]
      rfl
    by_cases hb : b = ascii '\x7b' ∨ b = ascii '\x7d'
    · have hcons : doubled (b :: text) = b :: b :: doubled text := by
        rcases hb with rfl | rfl <;> rfl
      rw [hcons, List.cons_append, List.cons_append, formatItems?_brace hb, hnext]
    · have hcons : doubled (b :: text) = b :: doubled text := by
        simp only [doubled, List.flatMap_cons]
        rw [if_neg (by simpa using hb)]
        rfl
      obtain ⟨hopen, hclose⟩ := not_or.mp hb
      rw [hcons, List.cons_append, formatItems?.eq_def]
      simp only [hopen, hclose, if_false]
      exact hnext

theorem render?_bytes (text : Bytes) (items : List FormatItem) (values : List Bytes) :
    render? (text.map .byte ++ items) values = (render? items values).map (text ++ ·) := by
  induction text with
  | nil => simp
  | cons b text ih =>
    change (render? (text.map .byte ++ items) values).map (b :: ·) = _
    rw [ih, Option.map_map]
    rfl

theorem doubled_of_no_brace {text : Bytes}
    (h : ∀ b ∈ text, b ≠ ascii '\x7b' ∧ b ≠ ascii '\x7d') : doubled text = text := by
  induction text with
  | nil => rfl
  | cons b text ih =>
    obtain ⟨⟨hopen, hclose⟩, htext⟩ := List.forall_mem_cons.mp h
    have hcons : doubled (b :: text) = b :: doubled text := by
      simp only [doubled, List.flatMap_cons]
      rw [if_neg (by simp [hopen, hclose])]
      rfl
    rw [hcons, ih htext]

theorem denotes_escapeFormatChar (c : Char) :
    Denotes (utf8 (String.ofList (Literal.escapeFormatChar c)))
      (doubled (String.utf8EncodeChar c)) := by
  have htwice : ∀ b, isLiteralByte b = true → b ≠ ascii '"' → b ≠ ascii '\\' →
      Denotes [b, b] [b, b] := fun b hb hquote hback =>
    (Denotes.byte hb hquote hback).append (.byte hb hquote hback)
  unfold Literal.escapeFormatChar
  split
  · next h =>
    subst h
    exact htwice (ascii '\x7b') (by decide) (by decide) (by decide)
  split
  · next h =>
    subst h
    exact htwice (ascii '\x7d') (by decide) (by decide) (by decide)
  · next hopen hclose =>
    rw [doubled_of_no_brace fun b hb =>
      ⟨IsAsciiChar.ne_of_mem (by decide) hopen hb, IsAsciiChar.ne_of_mem (by decide) hclose hb⟩]
    exact denotes_escapeChar c

/-- A piece of a format string, read as a literal, is its text with the braces doubled. -/
theorem denotes_formatPiece (s : String) :
    Denotes (utf8 (Literal.formatPiece s)) (doubled (utf8 s)) := by
  have hchars := Denotes.chars denotes_escapeFormatChar s.toList
  rwa [show doubled (utf8 s) = s.toList.flatMap fun c => doubled (String.utf8EncodeChar c) by
    rw [doubled, utf8, List.flatMap_assoc]
    rfl]

end Zig

/-! ## Template strings as they are written -/

/-- A part of a template string: text, or code in braces with the blanks around it. -/
inductive Segment where
  | text (s : String)
  | code (inner : String)
deriving DecidableEq, Repr

namespace Segment

/-- What a part adds to the format string. -/
def format : Segment → String
  | text s => Literal.formatPiece s
  | code _ => "\x7bs\x7d"

/-- What a part adds to the format, once the format string is read as a literal. -/
def body : Segment → Bytes
  | text s => Zig.doubled (utf8 s)
  | code _ => utf8 "\x7bs\x7d"

def items : Segment → List Zig.FormatItem
  | text s => (utf8 s).map .byte
  | code _ => [.argument]

def code? : Segment → Option String
  | text _ => none
  | code inner => some inner

theorem denotes_format (segment : Segment) : Zig.Denotes (utf8 segment.format) segment.body := by
  cases segment with
  | text s => exact Zig.denotes_formatPiece s
  | code inner =>
    have hbytes : utf8 "\x7bs\x7d" = [ascii '\x7b'] ++ ([ascii 's'] ++ [ascii '\x7d']) := by decide
    change Zig.Denotes (utf8 "\x7bs\x7d") (utf8 "\x7bs\x7d")
    rw [hbytes]
    exact (Zig.Denotes.byte (by decide) (by decide) (by decide)).append
      ((Zig.Denotes.byte (by decide) (by decide) (by decide)).append
        (.byte (by decide) (by decide) (by decide)))

theorem formatItems?_body (segment : Segment) (rest : Bytes) :
    Zig.formatItems? (segment.body ++ rest) =
      (Zig.formatItems? rest).map (segment.items ++ ·) := by
  cases segment with
  | text s => exact Zig.formatItems?_doubled (utf8 s) rest
  | code inner => exact Zig.formatItems?_argument rest

end Segment

/-- The code in the braces of a template string, in order. -/
def codes (segments : List Segment) : List String := segments.filterMap Segment.code?

/-- The text of a template string with values in the places of its code. -/
def fill : List Segment → List Bytes → Bytes
  | [], _ => []
  | .text s :: segments, values => utf8 s ++ fill segments values
  | .code _ :: segments, values => values.headD [] ++ fill segments values.tail

/-- The parts of a template string between two offsets. Text goes up to the next backquote or
opening brace, and code up to the brace that closes its own. -/
inductive SegmentsBetween (source : Bytes) : Nat → List Segment → Nat → Prop
  | nil (n : Nat) : SegmentsBetween source n [] n
  | text {n k m : Nat} {s : String} {segments : List Segment} (hne : s ≠ "")
      (hslice : Span.slice ⟨n, k⟩ source = utf8 s)
      (hplain : ∀ b ∈ utf8 s, b ≠ ascii '\x60' ∧ b ≠ ascii '\x7b')
      (hends : source[k]? = some (ascii '\x60') ∨ source[k]? = some (ascii '\x7b'))
      (h : SegmentsBetween source k segments m) : SegmentsBetween source n (.text s :: segments) m
  | code {n k m : Nat} {inner : String} {segments : List Segment}
      (hslice : Span.slice ⟨n, k⟩ source = utf8 ("\x7b" ++ inner ++ "\x7d"))
      (hgroup : GroupBetween source n k) (h : SegmentsBetween source k segments m) :
      SegmentsBetween source n (.code inner :: segments) m

/-- A format string and arguments that say what a template string says. -/
structure Formats (segments : List Segment) (format : String) (args : List String) : Prop where
  /-- The arguments are the pieces of code, each without the blanks around it. -/
  trimmed : args = (codes segments).map trim
  /-- They are passed on as they are. -/
  passed : ∀ b : Code.Builder, Code.formatArgs b args =
    Code.inlineRecord (args.map fun arg => b.call "fmt" ++ "(" ++ arg ++ ")")
  /-- In quotes, the format string is one literal, and what it stands for is a format with as many
  placeholders as there are arguments. Filled with that many values it is the text with the values
  in the places of the code. -/
  filled : ∃ body items,
    (∀ rest, Zig.literal? (utf8 ("\"" ++ format ++ "\"") ++ rest) = some (body, rest)) ∧
    Zig.formatItems? body = some items ∧ items.count .argument = args.length ∧
    ∀ values, Zig.render? items values =
      if values.length = args.length then some (fill segments values) else none

/-! ## Formats -/

theorem codes_text (s : String) (segments : List Segment) :
    codes (.text s :: segments) = codes segments := rfl

theorem codes_code (inner : String) (segments : List Segment) :
    codes (.code inner :: segments) = inner :: codes segments := rfl

/-- The parts of a format string are read as a literal one by one. -/
theorem denotes_formats (segments : List Segment) :
    Zig.Denotes (utf8 (String.join (segments.map Segment.format)))
      (segments.flatMap Segment.body) := by
  induction segments with
  | nil => exact .nil
  | cons segment segments ih =>
    rw [List.map_cons, String.join_cons, utf8_append, List.flatMap_cons]
    exact segment.denotes_format.append ih

theorem formatItems?_bodies (segments : List Segment) :
    Zig.formatItems? (segments.flatMap Segment.body) = some (segments.flatMap Segment.items) := by
  induction segments with
  | nil => rfl
  | cons segment segments ih =>
    rw [List.flatMap_cons, segment.formatItems?_body, ih]
    rfl

theorem count_argument (segments : List Segment) :
    (segments.flatMap Segment.items).count .argument = (codes segments).length := by
  induction segments with
  | nil => rfl
  | cons segment segments ih =>
    rw [List.flatMap_cons, List.count_append, ih]
    cases segment with
    | text s =>
      have hnone : ((utf8 s).map Zig.FormatItem.byte).count .argument = 0 :=
        List.count_eq_zero.mpr (by simp)
      rw [codes_text, Segment.items, hnone, Nat.zero_add]
    | code inner =>
      rw [codes_code, List.length_cons, Nat.add_comm]
      rfl

theorem render?_items (segments : List Segment) (values : List Bytes) :
    Zig.render? (segments.flatMap Segment.items) values =
      if values.length = (codes segments).length then some (fill segments values) else none := by
  induction segments generalizing values with
  | nil => cases values <;> rfl
  | cons segment segments ih =>
    rw [List.flatMap_cons]
    cases segment with
    | text s =>
      rw [Segment.items, Zig.render?_bytes, ih, codes_text]
      split <;> rfl
    | code inner =>
      rw [codes_code, List.length_cons]
      cases values with
      | nil => rfl
      | cons value values =>
        change (Zig.render? (segments.flatMap Segment.items) values).map (value ++ ·) = _
        rw [ih, List.length_cons]
        simp only [Nat.add_right_cancel_iff]
        split <;> rfl

theorem trim_trim (s : String) : trim (trim s) = trim s := by
  by_cases hvisible : Visible s
  · have hall : s.toList.all isBlank = false :=
      Bool.eq_false_iff.mpr fun hall => not_visible_iff.mpr hall hvisible
    have hfirst := (trim_parts hall).2
    refine Surface.trim_of_tight ⟨by rwa [trim, String.toList_ofList], ?_⟩
    rw [trim, String.toList_ofList]
    rw [trimEnd] at hfirst ⊢
    rw [List.getLast?_reverse]
    cases hlist : (trimStart s.toList).reverse.dropWhile isBlank with
    | nil =>
      rw [hlist] at hfirst
      cases hfirst
    | cons c rest => simpa using eq_false_of_dropWhile hlist
  · rw [trim_of_blank hvisible]
    decide

/-- The format string and the arguments of the parts of a template string. -/
theorem formats_segments (segments : List Segment) :
    Formats segments (String.join (segments.map Segment.format)) ((codes segments).map trim) := by
  refine ⟨rfl, fun b => ?_, _, _, fun rest => ?_, formatItems?_bodies segments, ?_, fun values => ?_⟩
  · rw [Code.formatArgs, List.map_map, List.map_map]
    refine congrArg Code.inlineRecord (List.map_congr_left fun code _ => ?_)
    exact congrArg (b.call "fmt" ++ "(" ++ · ++ ")") (trim_trim code)
  · have hbytes : utf8 ("\"" ++ String.join (segments.map Segment.format) ++ "\"") ++ rest =
        ascii '"' :: utf8 (String.join (segments.map Segment.format)) ++ ascii '"' :: rest := by
      rw [utf8_append, utf8_append, List.append_assoc]
      rfl
    rw [hbytes]
    exact (denotes_formats segments).literal? rest
  · rw [count_argument, List.length_map]
  · rw [render?_items, List.length_map]

/-! ## Reading template strings -/

open ScanM Parser

variable {source : Bytes} {n m k : Nat}

/-- Reading a group comes to the end that the grammar of groups gives it. -/
theorem ScanM.Goes.groupBetween {α : Type} {R : α → Nat → Prop} {f : Unit → ScanM α}
    {opener closer : UInt8} {rest : Bytes} (hn : Boundary source n)
    (hdrop : source.drop n = opener :: rest) (hopener : closerOf? opener = some closer)
    (h : ∀ m, Boundary source m → GroupBetween source n m → Goes source m (f ()) R) :
    Goes source n (ScanM.group >>= f) R := by
  have hsome : (closerOf? opener).isSome = true := by rw [hopener]; rfl
  have hbyte : source[n]? = some opener := by rw [← List.head?_drop, hdrop]; rfl
  refine Goes.read hn (groupLength_bounded hn.text hdrop (isAscii_of_opener hsome)) ?_
  intro length hlength hm
  have hread : ScanM.group (cursorAt source n) = .ok () (cursorAt source (n + length)) := by
    rw [← cursorAt_skip]
    unfold ScanM.group ScanM.read
    rw [show (cursorAt source n).rest = source.drop n from rfl, hlength]
  obtain ⟨stop, hstop, hgroup⟩ := OpenerAt.group_of_read ⟨opener, hbyte, hopener⟩ hread
  exact h _ hm (cursorAt_inj hstop ▸ hgroup)

theorem SegmentsBetween.le {segments : List Segment} (h : SegmentsBetween source n segments m) :
    n ≤ m := by
  induction h with
  | nil => exact Nat.le_refl _
  | @text n k m s segments hne hslice _ _ _ ih =>
    refine Nat.le_trans (Nat.le_of_not_lt fun hlt => hne ?_) ih
    refine utf8_inj (hslice.symm.trans ?_)
    rw [Span.slice, Span.length, Nat.sub_eq_zero_of_le (Nat.le_of_lt hlt)]
    rfl
  | code _ hgroup _ ih => exact Nat.le_trans (Nat.le_of_lt hgroup.within.1) ih

theorem formatOf_cons (t : Tree) (ts : List Tree) :
    OfTree.formatOf source (t :: ts) =
      OfTree.formatPieceOf source t ++ OfTree.formatOf source ts := by
  rw [OfTree.formatOf, List.map_cons, String.join_cons]
  rfl

/-- Pieces that were read up to the closing backquote, and the parts of the source they are. -/
structure Segmented (source : Bytes) (n : Nat) (pieces : List (Tree × Option Span)) (m : Nat) :
    Prop where
  segments : ∃ segments, SegmentsBetween source n segments m ∧
    OfTree.formatOf source (pieces.map (·.1)) = String.join (segments.map Segment.format) ∧
    OfTree.argsOf source (pieces.map (·.1)) = (codes segments).map trim
  ends : source[m]? = some (ascii '\x60')

/-- Code in braces is read as a part of its own. -/
theorem Segmented.code {fault : Option Span} {pieces : List (Tree × Option Span)}
    (htext : IsText source) (hopener : source[n]? = some (ascii '\x7b'))
    (hgroup : GroupBetween source n k) (h : Segmented source k pieces m) :
    Segmented source n
      ((.leaf .hostExpr (trimmed (cursorAt source (n + 1)) (k - 1)), fault) :: pieces) m := by
  obtain ⟨segments, hsegments, hformat, hargs⟩ := h.segments
  obtain ⟨hle, hcloser⟩ : n + 1 ≤ k - 1 ∧ source[k - 1]? = some (ascii '\x7d') :=
    hgroup.ends hopener rfl
  obtain ⟨inner, hinner, hbraces⟩ := exists_inner htext hle hopener hcloser
  have hcode : (trimmed (cursorAt source (n + 1)) (k - 1)).text source = trim inner :=
    text_trimmed hle (Nat.le_of_lt (List.getElem?_eq_some_iff.mp hcloser).1) hinner
  refine ⟨⟨.code inner :: segments, .code hbraces hgroup hsegments, ?_, ?_⟩, h.ends⟩
  · rw [List.map_cons, formatOf_cons, hformat, List.map_cons, String.join_cons]
    rfl
  · rw [codes_code, List.map_cons, List.map_cons, ← hargs, ← hcode]
    rfl

/-- Text up to the next backquote or brace is read as a part of its own. -/
theorem Segmented.text {pieces : List (Tree × Option Span)} (hn : Boundary source n)
    (hk : Boundary source k) (hlt : n < k)
    (hplain : ∀ b ∈ Span.slice ⟨n, k⟩ source, b ≠ ascii '\x60' ∧ b ≠ ascii '\x7b')
    (hends : source[k]? = some (ascii '\x60') ∨ source[k]? = some (ascii '\x7b'))
    (h : Segmented source k pieces m) :
    Segmented source n ((.leaf .templateText ⟨n, k⟩, none) :: pieces) m := by
  obtain ⟨segments, hsegments, hformat, hargs⟩ := h.segments
  obtain ⟨s, hs⟩ := (⟨Nat.le_of_lt hlt, hn, hk⟩ : Span.Cuts source ⟨n, k⟩).isText_slice
  have htext : Span.text ⟨n, k⟩ source = s := by rw [Span.text, hs, decode_utf8]
  have hne : s ≠ "" := by
    rintro rfl
    have hlength := Span.length_slice (Nat.le_of_lt hlt) hk.le
    rw [hs] at hlength
    change 0 = k - n at hlength
    omega
  refine ⟨⟨.text s :: segments, .text hne hs (hs ▸ hplain) hends hsegments, ?_, ?_⟩, h.ends⟩
  · rw [List.map_cons, formatOf_cons, hformat, List.map_cons, String.join_cons]
    exact congrArg (Literal.formatPiece · ++ _) htext
  · rw [codes_text, ← hargs]
    rfl

/-- A byte of the text of a template string. -/
def isTemplateByte (b : UInt8) : Bool := b != ascii '\x60' && b != ascii '\x7b'

theorem isTemplateByte_iff {b : UInt8} :
    isTemplateByte b = true ↔ b ≠ ascii '\x60' ∧ b ≠ ascii '\x7b' := by
  simp [isTemplateByte]

theorem isTemplateByte_eq_false {b : UInt8} :
    isTemplateByte b = false ↔ b = ascii '\x60' ∨ b = ascii '\x7b' := by
  rw [isTemplateByte, Bool.and_eq_false_iff, bne_eq_false_iff_eq, bne_eq_false_iff_eq]

/-- A run of bytes that does not end the source ends at one that is not of its sort. -/
theorem exists_stop {p : UInt8 → Bool}
    (h : n + ((source.drop n).takeWhile p).length < source.length) :
    ∃ b, source[n + ((source.drop n).takeWhile p).length]? = some b ∧ p b = false := by
  have hrest : source.drop (n + ((source.drop n).takeWhile p).length) =
      (source.drop n).dropWhile p := by
    rw [← List.drop_drop]
    exact Cursor.skipWhile_rest p (cursorAt source n)
  cases hafter : (source.drop n).dropWhile p with
  | nil =>
    rw [hafter, List.drop_eq_nil_iff] at hrest
    omega
  | cons b after =>
    rw [hafter] at hrest
    exact ⟨b, by rw [← List.head?_drop, hrest]; rfl, eq_false_of_dropWhile hafter⟩

theorem goes_segment (htext : IsText source) (hopening : Span.Cuts source ⟨k, k + 1⟩)
    (hn : Boundary source n) :
    Goes source n (templatePiece (cursorAt source k)) (Adds (Segmented source) n) := by
  refine Goes.get ?_
  split
  · exact goes_fail hn hopening
  · next b hpeek =>
    obtain ⟨rest, hdrop⟩ := exists_drop_of_peek hpeek
    have hbyte : source[n]? = some b := by rw [← List.head?_drop, hdrop]; rfl
    refine Goes.ite (fun hb => ?_) fun hend => .ite (fun hb => ?_) fun hbrace => ?_
    · subst hb
      exact .pure hn ⟨⟨[], .nil n, rfl, rfl⟩, hbyte⟩
    · subst hb
      refine Goes.groupBetween hn hdrop rfl fun m hm hgroup => ?_
      refine Goes.get (.pure hm ⟨hgroup.within.1, fun pieces l hpieces => ?_⟩)
      rw [cursorAt_skip]
      exact .code htext hbyte hgroup hpieces
    · have hstops : ∀ x, isTemplateByte x = false → isAscii x = true := by
        intro x hx
        rcases isTemplateByte_eq_false.mp hx with rfl | rfl <;> decide
      have hstop := hn.shift (boundary_before hstops hn.text)
      have hlt : 0 < ((source.drop n).takeWhile isTemplateByte).length := by
        rw [hdrop, List.takeWhile_cons, if_pos (isTemplateByte_iff.mpr ⟨hend, hbrace⟩)]
        exact Nat.succ_pos _
      have hsplit : source.drop n = (source.drop n).takeWhile isTemplateByte ++
          (source.drop n).dropWhile isTemplateByte := List.takeWhile_append_dropWhile.symm
      have hslice := Span.slice_of_drop hsplit
      have hmore := Nat.lt_add_of_pos_right (n := n) hlt
      refine Goes.set (cursorAt_skip source n _)
        (Goes.get (.pure hstop ⟨hmore, fun pieces l hpieces => ?_⟩))
      refine .text hn hstop hmore (fun b hb => ?_) ?_ hpieces
      · have hkept : b ∈ (source.drop n).takeWhile isTemplateByte := hslice ▸ hb
        exact isTemplateByte_iff.mp (List.all_eq_true.mp List.all_takeWhile b hkept)
      · -- The string goes on to its closing backquote, so the text does not end the source.
        obtain ⟨segments, hsegments, _⟩ := hpieces.segments
        have hwithin := Nat.lt_of_le_of_lt hsegments.le (List.getElem?_eq_some_iff.mp hpieces.ends).1
        obtain ⟨x, hx, hstop⟩ := exists_stop hwithin
        rcases isTemplateByte_eq_false.mp hstop with rfl | rfl
        · exact .inl hx
        · exact .inr hx

theorem staticOf_templateString (span : Span) (name : String) (label : Tree) (inner : Span)
    (pieces : List Tree) :
    OfTree.staticOf source span name [label, .node .templateString inner pieces] =
      .ok (.formatted span name (OfTree.formatOf source pieces) (OfTree.argsOf source pieces)) := by
  rw [Tree.node, OfTree.staticOf]

/-- Template strings say what is written in them. Wherever a backquote begins one that is read
without an error, its parts lie between that backquote and the one behind which reading stops. An
attribute with this value is formatted, and its format string and arguments say what the parts say. -/
theorem template_string_formats {source : String} {n : Nat} {tree : Tree} {next : Cursor}
    (hopener : (utf8 source)[n]? = some (ascii '\x60'))
    (hread : templateString (cursorAt (utf8 source) n) = .ok tree next) :
    ∃ segments stop, SegmentsBetween (utf8 source) (n + 1) segments stop ∧
      (utf8 source)[stop]? = some (ascii '\x60') ∧ next = cursorAt (utf8 source) (stop + 1) ∧
      (∀ span name label, OfTree.staticOf (utf8 source) span name [label, tree] =
        .ok (.formatted span name (OfTree.formatOf (utf8 source) tree.children)
          (OfTree.argsOf (utf8 source) tree.children))) ∧
      Formats segments (OfTree.formatOf (utf8 source) tree.children)
        (OfTree.argsOf (utf8 source) tree.children) := by
  have htext : IsText (utf8 source) := ⟨source, rfl⟩
  obtain ⟨hn, hfirst⟩ := Boundary.of_getElem? htext hopener (by decide)
  obtain ⟨rest, hdrop⟩ := drop_of_getElem? hopener
  have hopening : Span.Cuts (utf8 source) ⟨n, n + 1⟩ := ⟨Nat.le_succ n, hn, hfirst⟩
  unfold templateString at hread
  obtain ⟨_, _, hget, hread⟩ := ok_of_bind hread
  cases hget
  obtain ⟨_, _, hset, hread⟩ := ok_of_bind hread
  cases hset
  rw [cursorAt_bump hdrop] at hread
  obtain ⟨pieces, _, hmany, hread⟩ := ok_of_bind hread
  have hgoes := goes_many (fun k hk => goes_segment htext hopening hk) hfirst
  unfold Goes at hgoes
  rw [hmany] at hgoes
  obtain ⟨stop, rfl, _, hpieces⟩ := hgoes
  obtain ⟨segments, hsegments, hformat, hargs⟩ := hpieces.segments
  obtain ⟨_, _, hmodify, hread⟩ := ok_of_bind hread
  cases hmodify
  cases hfault : pieces.findSome? (·.2) with
  | some span =>
    rw [hfault] at hread
    cases hread
  | none =>
    rw [hfault] at hread
    obtain ⟨after, hafter⟩ := drop_of_getElem? hpieces.ends
    cases hread
    refine ⟨segments, stop, hsegments, hpieces.ends, cursorAt_bump hafter,
      fun span name label => staticOf_templateString span name label _ _, ?_⟩
    change Formats segments (OfTree.formatOf (utf8 source) (pieces.map (·.1)))
      (OfTree.argsOf (utf8 source) (pieces.map (·.1)))
    rw [hformat, hargs]
    exact formats_segments segments

/-- Braces, quotes and backslashes at the seams between text and code. -/
def seamSource : String := "\x60\x7d\\\"\x7b x \x7d\x7d\x7bf(\"\x7d\")\x7d\x60"

theorem template_string_formats_seams : ∃ segments tree,
    (utf8 seamSource)[0]? = some (ascii '\x60') ∧
    templateString (cursorAt (utf8 seamSource) 0) = .ok tree ⟨19, []⟩ ∧
    SegmentsBetween (utf8 seamSource) 1 segments 18 ∧
    Formats segments "\x7d\x7d\\\\\\\"\x7bs\x7d\x7d\x7d\x7bs\x7d" ["x", "f(\"\x7d\")"] := by
  have hopener : (utf8 seamSource)[0]? = some (ascii '\x60') := by decide +kernel
  have hrun : (templateString >>= fun tree => pure (OfTree.formatOf (utf8 seamSource) tree.children,
      OfTree.argsOf (utf8 seamSource) tree.children) : ScanM (String × List String))
        (cursorAt (utf8 seamSource) 0) =
      .ok ("\x7d\x7d\\\\\\\"\x7bs\x7d\x7d\x7d\x7bs\x7d", ["x", "f(\"\x7d\")"]) ⟨19, []⟩ := by
    decide +kernel
  obtain ⟨tree, next, hread, hvalue⟩ := ok_of_bind hrun
  injection hvalue with hvalue hnext
  subst hnext
  obtain ⟨hformat, hargs⟩ := Prod.mk.inj hvalue
  obtain ⟨segments, stop, hsegments, _, hstop, _, hformats⟩ := template_string_formats hopener hread
  obtain rfl : 18 = stop := Nat.succ.inj (congrArg Cursor.pos hstop)
  exact ⟨segments, tree, hopener, hread, hsegments, hformat ▸ hargs ▸ hformats⟩

end ZigMarkup
