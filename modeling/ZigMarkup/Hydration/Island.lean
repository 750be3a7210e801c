import ZigMarkup.Hydration.Marker
import ZigMarkup.Json.Reader
import ZigMarkup.Source.Walk
import ZigMarkup.Span
import ZigMarkup.Text.Blank

/-!
Islands of a page: what lies between an opening marker and the first closing marker of the same
identity after it. Openings that cannot be read or are not closed are passed over, and islands
may lie within others.
-/
namespace ZigMarkup

structure Island where
  marker : Marker
  content : Span

namespace Island

/-- A text before and after its first space. -/
def splitSpace? (text : Bytes) : Option (Bytes × Bytes) :=
  match text.dropWhile (· != ascii ' ') with
  | [] => none
  | _ :: rest => some (text.takeWhile (· != ascii ' '), rest)

/-- The marker that the inside of an opening comment spells. -/
def markerOf? (header : Bytes) : Option Marker := do
  let (id, rest) ← splitSpace? header
  let (name, props) ← splitSpace? rest
  if id.isEmpty || name.isEmpty then none
  else return ⟨decode id, decode name, ← JsonValue.ofText? (trim (decode props))⟩

/-- The island that the header opens, given where its content begins and what lies ahead. -/
def ofHeader? (header : Bytes) (start : Nat) (ahead : Bytes) : Option Island := do
  let marker ← markerOf? header
  let length ← indexOf? (utf8 marker.closeText) ahead
  return ⟨marker, ⟨start, start + length⟩⟩

/-- Collects islands, the latest first. Without the end of a comment ahead there are no more. -/
def visit (found : List Island) (offset : Nat) (b : UInt8) (rest : Bytes) :
    Move (List Island) (List Island) :=
  let text := b :: rest
  let opening := utf8 Marker.openBegin
  if opening.isPrefixOf text then
    match indexOf? (utf8 Marker.commentEnd) (text.drop opening.length) with
    | none => .stop found.reverse
    | some length =>
      let header := (text.drop opening.length).take length
      let used := opening.length + length + (utf8 Marker.commentEnd).length
      .go used ((ofHeader? header (offset + used) (text.drop used)).toList ++ found)
  else .go 1 found

end Island

def islandsOf (page : Bytes) : List Island :=
  walk Island.visit (fun found _ => found.reverse) [] page

end ZigMarkup
