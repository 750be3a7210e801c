import ZigMarkup.Json.Value

/-!
Markers of islands: the comments around the part of a page that the client brings to life. The
opening one carries an identity, the name of the client module and its props.
-/
namespace ZigMarkup

structure Marker where
  id : String
  name : String
  props : JsonValue

/-- A text in which nothing ends a comment. In JSON `>` occurs in strings only, where an escape
may stand for it. -/
def commentSafe : List Char → List Char
  | '-' :: '-' :: '>' :: rest => "--\\u003e".toList ++ commentSafe rest
  | c :: rest => c :: commentSafe rest
  | [] => []

namespace Marker

def openBegin : String := "<!--$"

def closeBegin : String := "<!--/$"

def commentEnd : String := "-->"

def closeOf (id : String) : String := closeBegin ++ id ++ commentEnd

def propsText (m : Marker) : String := String.ofList (commentSafe m.props.render.toList)

def openText (m : Marker) : String :=
  openBegin ++ m.id ++ " " ++ m.name ++ " " ++ m.propsText ++ commentEnd

def closeText (m : Marker) : String := closeOf m.id

def wrap (m : Marker) (markup : String) : String := m.openText ++ markup ++ m.closeText

end Marker

end ZigMarkup
