import ZigMarkup.Diagnostic.Basic
import ZigMarkup.Text.Blank

/-!
A diagnostic as a report with an excerpt of the source. Every label lies within one line; under
the line its extent is drawn, and a tail leads from its middle to its message. Labels are taken
as offsets of characters.
-/
namespace ZigMarkup

namespace Report

/-- A span within the source, with something to point at: an empty one takes in the next
character. -/
def widen (source : Bytes) (span : Span) : Span :=
  let start := min span.start source.length
  let stop := min (max span.stop start) source.length
  if start = stop then
    match source.drop stop with
    | [] => ⟨start, stop⟩
    | lead :: _ => ⟨start, min (stop + sequenceLength lead) source.length⟩
  else ⟨start, stop⟩

/-- Lines with the characters that end them. -/
def splitAfter (ends : Char → Bool) : List Char → List (List Char)
  | [] => []
  | c :: cs =>
    if ends c then [c] :: splitAfter ends cs
    else match splitAfter ends cs with
      | [] => [[c]]
      | line :: lines => (c :: line) :: lines

/-- The characters that end a line of a source. -/
def isLineEnd (c : Char) : Bool :=
  (0x0A ≤ c.toNat && c.toNat ≤ 0x0D) || c = '\u0085' || c = '\u2028' || c = '\u2029'

/-- A carriage return and a line feed end one line together. -/
def joinReturns : List (List Char) → List (List Char)
  | line :: next :: lines =>
    if line.getLast? = some '\r' && next = ['\n'] then (line ++ next) :: joinReturns lines
    else line :: joinReturns (next :: lines)
  | lines => lines

/-- A line without its end, which is a line feed after an optional carriage return. -/
def dropLineEnd (line : List Char) : List Char :=
  match line.reverse with
  | '\n' :: '\r' :: rest => rest.reverse
  | '\n' :: rest => rest.reverse
  | _ => line

structure SourceLine where
  number : Nat
  start : Nat
  text : List Char

namespace SourceLine

def stop (line : SourceLine) : Nat := line.start + line.text.length

def numberFrom (number start : Nat) : List (List Char) → List SourceLine
  | [] => []
  | text :: texts => ⟨number, start, text⟩ :: numberFrom (number + 1) (start + text.length) texts

/-- The lines of a source; an empty source has one empty line. -/
def ofText (source : String) : List SourceLine :=
  match joinReturns (splitAfter isLineEnd source.toList) with
  | [] => [⟨1, 0, []⟩]
  | texts => numberFrom 1 0 texts

/-- The last line that begins at or before an offset. -/
def containing (lines : List SourceLine) (offset : Nat) : SourceLine :=
  ((lines.filter (·.start ≤ offset)).getLast?).getD ⟨1, 0, []⟩

end SourceLine

/-- A label under its line, with columns from zero. -/
structure Mark where
  start : Nat
  stop : Nat
  message : String

namespace Mark

/-- Where the tail of the label is drawn. -/
def column (m : Mark) : Nat := (m.start + m.stop) / 2

/-- By tail from left to right; of those that share one, the later beginning comes first. -/
def before (a b : Mark) : Bool :=
  a.column < b.column || (a.column = b.column && b.start ≤ a.start)

def ofLabel? (line : SourceLine) (label : Label) : Option Mark :=
  if line.start ≤ label.span.start && label.span.stop ≤ line.stop then
    some ⟨label.span.start - line.start, label.span.stop - line.start, label.message⟩
  else none

def extentRow (width : Nat) (marks pending : List Mark) (first : Bool) : List Char :=
  (List.range width).map fun k =>
    let tail := pending.any (·.column = k)
    let extent := first && marks.any fun m => m.start ≤ k && k < m.stop
    if tail && extent then '┬' else if tail then '│' else if extent then '─' else ' '

def tailRow (width : Nat) (mark : Mark) (pending : List Mark) : List Char :=
  (List.range width).map fun k =>
    if k = mark.column then '╰'
    else if mark.column < k then '─'
    else if pending.any (·.column = k) then '│' else ' '

/-- Two rows for each mark; the marks that follow it are drawn through. -/
def rowsFrom (width : Nat) (marks : List Mark) (first : Bool) : List Mark → List String
  | [] => []
  | mark :: rest =>
    String.ofList (extentRow width marks (mark :: rest) first) ::
      (String.ofList (tailRow width mark (mark :: rest)) ++ " " ++ mark.message) ::
      rowsFrom width marks false rest

def rows (marks : List Mark) : List String :=
  let width := ((marks.map (·.stop)).max?.getD 0) + 2
  rowsFrom width marks true (marks.mergeSort before)

end Mark

def spaces (count : Nat) : String := String.ofList (List.replicate count ' ')

/-- A number, right-aligned. -/
def alignNumber (width n : Nat) : String := spaces (width - (toString n).length) ++ toString n

/-- A line as it is shown: nothing blank at its end, and a space for every other blank. -/
def shownText (line : SourceLine) : String :=
  String.ofList ((trimEnd line.text).map fun c => if isBlank c then ' ' else c)

def lineRows (numberWidth : Nat) (line : SourceLine) (marks : List Mark) : List String :=
  (" " ++ alignNumber numberWidth line.number ++ " │ " ++ shownText line) ::
    (Mark.rows marks).map fun row => spaces (numberWidth + 2) ++ "│ " ++ row

/-- The lines of the excerpt. Of lines without labels in a row only one gap is shown. -/
def excerpt (numberWidth : Nat) (labels : List Label) : Bool → List SourceLine → List String
  | _, [] => []
  | inGap, line :: lines =>
    match labels.filterMap (Mark.ofLabel? line) with
    | [] =>
      (if inGap then [] else [spaces (numberWidth + 2) ++ "│ "]) ++
        excerpt numberWidth labels true lines
    | marks => lineRows numberWidth line marks ++ excerpt numberWidth labels false lines

def helpRows (numberWidth : Nat) (help : String) : List String :=
  let margin := spaces (numberWidth + 2) ++ "│ "
  let rows := (splitAfter (· = '\n') help.toList).map fun l => String.ofList (dropLineEnd l)
  margin :: match rows with
    | [] => []
    | first :: rest => (margin ++ "Help: " ++ first) :: rest.map (margin ++ "      " ++ ·)

end Report

def Diagnostic.reportLines (d : Diagnostic) (source : String) : List String :=
  let bytes := utf8 source
  let primary := Report.widen bytes d.span
  let labels := ⟨primary, d.message⟩ :: d.labels.map fun l => ⟨Report.widen bytes l.span, l.message⟩
  let lines := Report.SourceLine.ofText source
  let lowest := ((labels.map (·.span.start)).min?).getD 0
  let highest := ((labels.map (·.span.stop)).max?).getD 0
  let first := Report.SourceLine.containing lines lowest
  let last := Report.SourceLine.containing lines (max (highest - 1) lowest)
  let home := Report.SourceLine.containing lines primary.start
  let width := (toString last.number).length
  let shown := lines.filter fun l => first.number ≤ l.number && l.number ≤ last.number
  ["Error: " ++ d.title,
    Report.spaces (width + 2) ++
      s!"╭─[ {d.place.file}:{home.number}:{primary.start - home.start + 1} ]",
    Report.spaces (width + 2) ++ "│"] ++
    Report.excerpt width labels false shown ++
    (match d.help with
    | some help => Report.helpRows width help
    | none => []) ++
    [String.ofList (List.replicate (width + 2) '─') ++ "╯"]

/-- The report, each line ended by a line feed. -/
def Diagnostic.report (d : Diagnostic) (source : String) : String :=
  String.join ((d.reportLines source).map (· ++ "\n"))

end ZigMarkup
