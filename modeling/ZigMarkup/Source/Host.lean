import ZigMarkup.Name
import ZigMarkup.Source.Token
import ZigMarkup.Source.Walk
import ZigMarkup.Text.Blank

/-!
Templates inside host code. A template root is a `(` followed, after optional blanks, by `<`
and the beginning of a name or `>`, so that comparisons are not taken for templates.
-/
namespace ZigMarkup

def beginsTemplate (text : Bytes) : Bool :=
  match text with
  | [] => false
  | b :: rest =>
    b == ascii '(' &&
      match rest.dropWhile isAsciiBlank with
      | lt :: next :: _ => lt == ascii '<' && (next == ascii '>' || isIdentStart next)
      | _ => false

/-- A string that its line breaks off is left to the Zig compiler; the search goes on after it. -/
def templateVisit (_ : Unit) (offset : Nat) (b : UInt8) (rest : Bytes) : Move Unit (Option Nat) :=
  match lexeme b rest with
  | .trivia length => .go length ()
  | .broken length => .go length ()
  | .plain => if beginsTemplate (b :: rest) then .stop (some offset) else .go 1 ()

/-- How far ahead the next template root of host code lies. -/
def nextTemplate? (text : Bytes) : Option Nat := walk templateVisit (fun _ _ => none) () text

end ZigMarkup
