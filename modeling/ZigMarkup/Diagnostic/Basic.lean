import ZigMarkup.Span

/-!
Errors as they are reported: what is wrong, where, and what else to look at.
-/
namespace ZigMarkup

/-- Whether a source is malformed, or well-formed and still not valid. -/
inductive ErrorClass where
  | malformed
  | invalid
deriving DecidableEq, Repr

def ErrorClass.name : ErrorClass → String
  | malformed => "syntax"
  | invalid => "validation"

structure Label where
  span : Span
  message : String
deriving DecidableEq, Repr

structure Location where
  file : String
  line : Nat
  column : Nat
deriving DecidableEq, Repr

structure Diagnostic where
  errorClass : ErrorClass
  span : Span
  message : String
  help : Option String := none
  labels : List Label := []
  location : Option Location := none
deriving DecidableEq, Repr

namespace Diagnostic

/-- The place shown for a diagnostic that was never given one. -/
def nowhere : Location := ⟨"", 0, 0⟩

def place (d : Diagnostic) : Location := d.location.getD nowhere

/-- The diagnostic with the place in `source` where its span begins. -/
def locate (d : Diagnostic) (file : String) (source : Bytes) : Diagnostic :=
  let (line, column) := (LineIndex.ofBytes source).lineCol source d.span.start
  { d with location := some ⟨file, line, column⟩ }

def title (d : Diagnostic) : String := d.errorClass.name ++ " error: " ++ d.message

def display (d : Diagnostic) : String :=
  let place := d.place
  s!"{place.file}:{place.line}:{place.column}: {d.title}"

end Diagnostic

end ZigMarkup
