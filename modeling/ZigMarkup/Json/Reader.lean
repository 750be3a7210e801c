import ZigMarkup.Json.Token

/-!
JSON values from tokens, one token at a time, with a stack of the arrays and objects that are
still open. Of two fields with one name the later one counts. Values nest at most 127 deep.
-/
namespace ZigMarkup

namespace JsonReader

/-- An open array or object. -/
inductive Frame where
  /-- The items so far, the latest first. -/
  | array (items : List JsonValue)
  | object (fields : List (String × JsonValue))
  /-- An object with a field whose value is still to come. -/
  | field (fields : List (String × JsonValue)) (name : String)

/-- What may come next. -/
inductive State where
  | value (mayClose : Bool)
  | name (mayClose : Bool)
  | colon
  | separator
  | finished (v : JsonValue)

abbrev Machine := State × List Frame

def start : Machine := (.value false, [])

def depthLimit : Nat := 127

/-- Goes on after a complete value. -/
def complete (v : JsonValue) : List Frame → Option Machine
  | [] => some (.finished v, [])
  | .array items :: stack => some (.separator, .array (v :: items) :: stack)
  | .field fields name :: stack =>
    some (.separator, .object (JsonValue.setField name v fields) :: stack)
  | .object _ :: _ => none

def openFrame (state : State) (frame : Frame) (stack : List Frame) : Option Machine :=
  if stack.length < depthLimit then some (state, frame :: stack) else none

def step : Machine → JsonToken → Option Machine
  | (.value _, stack), .scalar v => complete v stack
  | (.value _, stack), .string s => complete (.string s) stack
  | (.value _, stack), .openArray => openFrame (.value true) (.array []) stack
  | (.value _, stack), .openObject => openFrame (.name true) (.object []) stack
  | (.value true, .array _ :: stack), .closeArray => complete (.array []) stack
  | (.name _, .object fields :: stack), .string s => some (.colon, .field fields s :: stack)
  | (.name true, .object _ :: stack), .closeObject => complete (.object []) stack
  | (.colon, stack), .colon => some (.value false, stack)
  | (.separator, .array items :: stack), .comma => some (.value false, .array items :: stack)
  | (.separator, .object fields :: stack), .comma => some (.name false, .object fields :: stack)
  | (.separator, .array items :: stack), .closeArray => complete (.array items.reverse) stack
  | (.separator, .object fields :: stack), .closeObject => complete (.object fields) stack
  | _, _ => none

end JsonReader

/-- The value that a text spells. -/
def JsonValue.ofText? (text : String) : Option JsonValue := do
  let tokens ← JsonToken.tokens? text.toList
  match ← tokens.foldlM JsonReader.step JsonReader.start with
  | (.finished v, _) => some v
  | _ => none

end ZigMarkup
