import ZigMarkup.Text.Utf8

/-!
Which names are components, void elements and identifiers. A tag is a component when its
first character is an ASCII capital.
-/
namespace ZigMarkup

def isIdentStart (b : UInt8) : Bool :=
  (ascii 'a' ≤ b && b ≤ ascii 'z') || (ascii 'A' ≤ b && b ≤ ascii 'Z') || b == ascii '_'

def isIdentByte (b : UInt8) : Bool :=
  isIdentStart b || (ascii '0' ≤ b && b ≤ ascii '9')

/-- Names of tags and attributes also hold `-`, `.` and `:`. -/
def isNameByte (b : UInt8) : Bool :=
  isIdentByte b || b == ascii '-' || b == ascii '.' || b == ascii ':'

def isComponentName (name : String) : Bool :=
  match name.toList with
  | [] => false
  | c :: _ => c.isUpper

def voidElements : List String :=
  ["area", "base", "br", "col", "embed", "hr", "img", "input", "keygen", "link", "meta",
    "param", "source", "track", "wbr"]

/-- An element that never has children or a closing tag. -/
def isVoidElement (name : String) : Bool :=
  !isComponentName name && voidElements.contains name

/-- Words that Zig reserves. -/
def zigKeywords : List String :=
  ["addrspace", "align", "allowzero", "and", "anyframe", "anytype", "asm", "async", "await",
    "break", "callconv", "catch", "comptime", "const", "continue", "defer", "else", "enum",
    "errdefer", "error", "export", "extern", "false", "fn", "for", "if", "inline",
    "linksection", "noalias", "noinline", "nosuspend", "null", "opaque", "or", "orelse",
    "packed", "pub", "resume", "return", "struct", "suspend", "switch", "test",
    "threadlocal", "true", "try", "type", "undefined", "union", "unreachable",
    "usingnamespace", "var", "volatile", "while"]

/-- Whether Zig reads `name` as an identifier without quoting. -/
def isPlainIdentifier (name : String) : Bool :=
  match utf8 name with
  | [] => false
  | b :: rest => isIdentStart b && rest.all isIdentByte && !zigKeywords.contains name

/-- The attributes that steer generation instead of being rendered. -/
inductive Builtin where
  | allocator
  | escaping
  | rendering
deriving DecidableEq, Repr

namespace Builtin

def name : Builtin → String
  | allocator => "allocator"
  | escaping => "escaping"
  | rendering => "rendering"

def ofName? (name : String) : Option Builtin :=
  [allocator, escaping, rendering].find? (·.name == name)

end Builtin

end ZigMarkup
