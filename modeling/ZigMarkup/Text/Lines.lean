import ZigMarkup.Text.Blank

/-!
Runs of template text as lines. `verbatimLines` keeps the layout; `dedent` drops the blank
lines at both ends and the indentation that all other lines share.
-/
namespace ZigMarkup

/-- The pieces of a text between line feeds; always at least one. -/
def splitLines : List Char → List (List Char)
  | [] => [[]]
  | c :: cs =>
    if c = '\n' then [] :: splitLines cs
    else match splitLines cs with
      | [] => [[c]]
      | line :: lines => (c :: line) :: lines

/-- A line without the carriage return of a two-character line end. -/
def dropReturn (line : List Char) : List Char :=
  if line.getLast? = some '\r' then line.dropLast else line

def rawLines (raw : String) : List (List Char) := (splitLines raw.toList).map dropReturn

def verbatimLines (raw : String) : List String := (rawLines raw).map String.ofList

def isBlankLine (line : List Char) : Bool := line.all isBlank

/-- How many spaces and tabs a line begins with. -/
def indentation (line : List Char) : Nat := (line.takeWhile (fun c => c = ' ' || c = '\t')).length

def sharedIndentation (lines : List (List Char)) : Nat :=
  ((lines.filter (!isBlankLine ·)).map indentation).min?.getD 0

def shiftLeft (count : Nat) (line : List Char) : List Char :=
  if isBlankLine line then [] else line.drop count

def dropEmptyEnds (lines : List (List Char)) : List (List Char) :=
  ((lines.dropWhile List.isEmpty).reverse.dropWhile List.isEmpty).reverse

def dedentLines (lines : List (List Char)) : List (List Char) :=
  dropEmptyEnds (lines.map (shiftLeft (sharedIndentation lines)))

/-- The text of a run of escaped template text, or nothing if it is layout only. A run
without a line feed is kept as it is. -/
def dedent (raw : String) : Option String :=
  if raw.toList.contains '\n' then
    match dedentLines (rawLines raw) with
    | [] => none
    | lines => some (String.ofList (['\n'].intercalate lines))
  else if raw.isEmpty then none
  else some raw

end ZigMarkup
