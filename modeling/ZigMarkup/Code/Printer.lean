import ZigMarkup.Code.Basic
import ZigMarkup.Code.Layout
import ZigMarkup.Text.Lines
import ZigMarkup.Zig.Literal

/-!
Generated code as pieces of text.
-/
namespace ZigMarkup.Code

def Builder.text (b : Builder) : String :=
  match b.block with
  | none => ""
  | some id => s!"__zx_b{id}"

/-- A method of a builder. -/
def Builder.call (b : Builder) (method : String) : String := b.text ++ "." ++ method

def BlockLabel.text : BlockLabel → String
  | block id => s!"__zx_blk{id}"
  | named name => name

def ListVar.text : ListVar → String
  | fresh id => s!"__zx_list{id}"
  | named name => name

/-- An anonymous struct on one line. -/
def inlineRecord (fields : List String) : String :=
  if fields.isEmpty then ".\x7b\x7d" else ".\x7b " ++ ", ".intercalate fields ++ " \x7d"

def formatArgs (b : Builder) (args : List String) : String :=
  inlineRecord (args.map fun arg => b.call "fmt" ++ "(" ++ trim arg ++ ")")

def optionFields (options : List (String × String)) : String :=
  inlineRecord (options.map fun o => "." ++ o.1 ++ " = " ++ o.2)

/-- Text, as a string literal, or as a multiline one where raw text has several lines. -/
def textPieces (b : Builder) (raw : Bool) (content : String) : List Piece :=
  if !raw then [.text (b.call "text" ++ "(" ++ Literal.quoted content ++ ")")]
  else if content.toList.contains '\n' then
    line (b.call "raw" ++ "(") ++
      indented ((verbatimLines content).flatMap fun l => line ("\\\\" ++ l)) ++ [.text ")"]
  else [.text (b.call "raw" ++ "(" ++ Literal.quoted content ++ ")")]

/-- The first lines of an element. -/
def headPieces (head : Head) (method : String) : List Piece :=
  line (head.builder.call method ++ "(" ++ Literal.enumLiteral head.tag ++ ", .\x7b") ++
    [.indent] ++
    (match head.allocator with
    | some allocator => line (".allocator = " ++ allocator ++ ",")
    | none => []) ++
    (if head.raw then line ".escaping = .none," else [])

/-- A list of values, one on each line. -/
def listPieces (items : List (List Piece)) : List Piece :=
  if items.isEmpty then [.text "&.\x7b\x7d"]
  else line "&.\x7b" ++ indented (items.flatMap (· ++ line ",")) ++ [.text "\x7d"]

def attributesPieces (head : Head) (items : List (List Piece)) : List Piece :=
  [.text ".attributes = "] ++
    (if head.merged then [.text (head.builder.call "mergeAttrs" ++ "(")] else []) ++
    listPieces items ++ (if head.merged then [.text ")"] else []) ++ line ","

/-- Records and spreads merged from left to right. -/
def mergedPieces (b : Builder) : List (List Piece) → List Piece
  | [] => [.text ".\x7b\x7d"]
  | first :: rest =>
    rest.map (fun _ => Piece.text (b.call "mergeProps" ++ "(")) ++ first ++
      rest.flatMap fun group => [.text ", "] ++ group ++ [.text ")"]

/-- A body of statements in braces. -/
def bodyPieces (body : List (List Piece)) : List Piece :=
  if body.isEmpty then [.text "\x7b\x7d"]
  else line "\x7b" ++ indented body.flatten ++ [.text "\x7d"]

def captureText (capture : Option String) : String :=
  match capture with
  | some capture => capture ++ " "
  | none => ""

/-- What stands before the body of an arm of an `if`. -/
def armOpening (first : Bool) (head capture : Option String) : String :=
  match head with
  | some head => (if first then "if " else " else if ") ++ head ++ " "
  | none => " else " ++ captureText capture

def sinkPieces (sink : Sink) (value : List Piece) : List Piece :=
  match sink with
  | .breakTo label => [.text ("break :" ++ label.text ++ " ")] ++ value ++ line ";"
  | .appendTo list => [.text (list.text ++ ".append(")] ++ value ++ line ");"

variable (runtime : String)

mutual
def Expr.pieces : Expr → List Piece
  | .element head attributes children =>
    headPieces head "element" ++ attributesPieces head (attrsPieces attributes) ++
      [.text ".children = "] ++ listPieces (exprsPieces children) ++ line "," ++
      [.dedent, .text "\x7d)"]
  | .selfClosing head attributes =>
    headPieces head "selfClosing" ++ attributesPieces head (attrsPieces attributes) ++
      [.dedent, .text "\x7d)"]
  | .component b name options props =>
    [.text (b.call "component" ++ "(" ++ name ++ ", " ++ optionFields options ++ ", ")] ++
      mergedPieces b (groupsPieces props) ++ [.text ")"]
  | .fragment b children =>
    [.text (b.call "fragment" ++ "(")] ++ listPieces (exprsPieces children) ++ [.text ")"]
  | .collected b list => [.text (b.call "fragment" ++ "(" ++ list.text ++ ".items())")]
  | .empty b => [.text (b.call "empty" ++ "()")]
  | .value b raw code => [.text (b.call (if raw then "exprRaw" else "expr") ++ "(" ++ code ++ ")")]
  | .text b raw content => textPieces b raw content
  | .block id allocator body =>
    line ((BlockLabel.block id).text ++ ": \x7b") ++
      indented (line ("var " ++ (Builder.mk (some id)).text ++ " = " ++ runtime ++
        ".Builder.init(" ++ allocator ++ ");") ++ (stmtsPieces body).flatten) ++ [.text "\x7d"]

def exprsPieces : List Expr → List (List Piece)
  | [] => []
  | e :: es => Expr.pieces e :: exprsPieces es

def Value.pieces : Value → List Piece
  | .code text => [.text text]
  | .expr e => Expr.pieces e

def Attr.pieces : Attr → List Piece
  | .pair b name value =>
    [.text (b.call "attr" ++ "(" ++ Literal.quoted name ++ ", ")] ++ Value.pieces value ++
      [.text ")"]
  | .format b name format args =>
    [.text (b.call "attrf" ++ "(" ++ Literal.quoted name ++ ", \"" ++ format ++ "\", " ++
      formatArgs b args ++ ")")]
  | .spread b code => [.text (b.call "spread" ++ "(" ++ code ++ ")")]

def attrsPieces : List Attr → List (List Piece)
  | [] => []
  | a :: as => Attr.pieces a :: attrsPieces as

def PropGroup.pieces : PropGroup → List Piece
  | .record props => line ".\x7b" ++ indented (entriesPieces props).flatten ++ [.text "\x7d"]
  | .spread code => [.text code]

def groupsPieces : List PropGroup → List (List Piece)
  | [] => []
  | g :: gs => PropGroup.pieces g :: groupsPieces gs

def PropEntry.pieces : PropEntry → List Piece
  | .field name value =>
    [.text (Literal.enumLiteral name ++ " = ")] ++ Value.pieces value ++ line ","
  | .format b name format args =>
    line (Literal.enumLiteral name ++ " = " ++ b.call "format" ++ "(\"" ++ format ++ "\", " ++
      formatArgs b args ++ "),")
  | .children nodes => [.text ".children = "] ++ listPieces (exprsPieces nodes) ++ line ","

def entriesPieces : List PropEntry → List (List Piece)
  | [] => []
  | p :: ps => PropEntry.pieces p :: entriesPieces ps

def Stmt.pieces : Stmt → List Piece
  | .deliver sink value => sinkPieces sink (Expr.pieces value)
  | .declare list b => line ("var " ++ list.text ++ " = " ++ b.call "list" ++ "();")
  | .ifChain arms => armsPieces true arms ++ [.newline]
  | .loop keyword head body =>
    [.text (keyword ++ " " ++ head ++ " ")] ++ bodyPieces (stmtsPieces body) ++ [.newline]
  | .switch subject arms =>
    line ("switch " ++ subject ++ " \x7b") ++ indented (prongsPieces arms) ++ line "\x7d"
  | .blank => [.newline]

def stmtsPieces : List Stmt → List (List Piece)
  | [] => []
  | s :: ss => Stmt.pieces s :: stmtsPieces ss

def armsPieces (first : Bool) : List Arm → List Piece
  | [] => []
  | ⟨head, capture, body⟩ :: arms =>
    [.text (armOpening first head capture)] ++ bodyPieces (stmtsPieces body) ++
      armsPieces false arms

def prongsPieces : List Arm → List Piece
  | [] => []
  | ⟨head, capture, body⟩ :: arms =>
    [.text (head.getD "else" ++ " => " ++ captureText capture)] ++ bodyPieces (stmtsPieces body) ++
      line "," ++ prongsPieces arms
end

end ZigMarkup.Code
