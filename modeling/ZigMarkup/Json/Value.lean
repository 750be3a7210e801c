import ZigMarkup.Json.Number
import ZigMarkup.Zig.Literal

/-!
JSON values and how they are written: without blanks, the fields of an object in the order of
their names.
-/
namespace ZigMarkup

inductive JsonValue where
  | null
  | bool (b : Bool)
  | number (n : JsonNumber)
  | string (s : String)
  | array (items : List JsonValue)
  | object (fields : List (String × JsonValue))

namespace JsonValue

/-- Sets a field of an object whose fields are ordered by name. -/
def setField (name : String) (value : JsonValue) :
    List (String × JsonValue) → List (String × JsonValue)
  | [] => [(name, value)]
  | (n, v) :: fields =>
    if name = n then (name, value) :: fields
    else if name < n then (name, value) :: (n, v) :: fields
    else (n, v) :: setField name value fields

def escapeChar (c : Char) : List Char :=
  if c = '"' then ['\\', '"']
  else if c = '\\' then ['\\', '\\']
  else if c = '\x08' then ['\\', 'b']
  else if c = '\x0c' then ['\\', 'f']
  else if c = '\n' then ['\\', 'n']
  else if c = '\r' then ['\\', 'r']
  else if c = '\t' then ['\\', 't']
  else if c.toNat < 0x20 then
    ['\\', 'u', '0', '0', Literal.hexDigit (c.toNat / 16), Literal.hexDigit (c.toNat % 16)]
  else [c]

def quote (s : String) : String := String.ofList (['"'] ++ s.toList.flatMap escapeChar ++ ['"'])

mutual
def render : JsonValue → String
  | null => "null"
  | bool b => if b then "true" else "false"
  | number n => n.text
  | string s => quote s
  | array items => "[" ++ ",".intercalate (renderAll items) ++ "]"
  | object fields => "\x7b" ++ ",".intercalate (renderFields fields) ++ "\x7d"

def renderAll : List JsonValue → List String
  | [] => []
  | v :: vs => render v :: renderAll vs

def renderFields : List (String × JsonValue) → List String
  | [] => []
  | (name, v) :: fields => (quote name ++ ":" ++ render v) :: renderFields fields
end

end JsonValue

end ZigMarkup
