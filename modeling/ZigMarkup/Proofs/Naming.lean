import ZigMarkup.Code.OfTemplate
import ZigMarkup.Proofs.Written

/-!
The names of generated code. A block brings its label and its builder, a loop in the place of a
value brings a list, and all of them are told apart by one number. `opened` lists them in the
order in which they are written; `Scoped` says that code uses no others than those it may use:
the builder and the label of the innermost block, and lists declared before in that block.
Whatever is opened is written where the code is printed.
-/
namespace ZigMarkup.Code

/-- A block with its allocator, or a list, by its number. -/
inductive Opened where
  | block (id : Nat) (allocator : String)
  | list (id : Nat)
deriving DecidableEq, Repr

namespace Opened

def id : Opened → Nat
  | block id _ => id
  | list id => id

def allocator? : Opened → Option String
  | block _ allocator => some allocator
  | list _ => none

end Opened

def ListVar.opened : ListVar → List Opened
  | .fresh id => [.list id]
  | .named _ => []

mutual
/-- The blocks and lists in an expression, in the order in which they are written. -/
def Expr.opened : Expr → List Opened
  | .element _ attributes children => attrsOpened attributes ++ exprsOpened children
  | .selfClosing _ attributes => attrsOpened attributes
  | .component _ _ _ props => groupsOpened props
  | .fragment _ children => exprsOpened children
  | .collected _ _ => []
  | .empty _ => []
  | .value _ _ _ => []
  | .text _ _ _ => []
  | .block id allocator body => .block id allocator :: stmtsOpened body

def exprsOpened : List Expr → List Opened
  | [] => []
  | e :: es => Expr.opened e ++ exprsOpened es

def Value.opened : Value → List Opened
  | .code _ => []
  | .expr e => Expr.opened e

def Attr.opened : Attr → List Opened
  | .pair _ _ value => Value.opened value
  | .format _ _ _ _ => []
  | .spread _ _ => []

def attrsOpened : List Attr → List Opened
  | [] => []
  | a :: as => Attr.opened a ++ attrsOpened as

def PropGroup.opened : PropGroup → List Opened
  | .record props => entriesOpened props
  | .spread _ => []

def groupsOpened : List PropGroup → List Opened
  | [] => []
  | g :: gs => PropGroup.opened g ++ groupsOpened gs

def PropEntry.opened : PropEntry → List Opened
  | .field _ value => Value.opened value
  | .format _ _ _ _ => []
  | .children nodes => exprsOpened nodes

def entriesOpened : List PropEntry → List Opened
  | [] => []
  | p :: ps => PropEntry.opened p ++ entriesOpened ps

def Stmt.opened : Stmt → List Opened
  | .deliver _ value => Expr.opened value
  | .declare list _ => list.opened
  | .ifChain arms => armsOpened arms
  | .loop _ _ body => stmtsOpened body
  | .switch _ arms => armsOpened arms
  | .blank => []

def stmtsOpened : List Stmt → List Opened
  | [] => []
  | s :: ss => Stmt.opened s ++ stmtsOpened ss

def armsOpened : List Arm → List Opened
  | [] => []
  | ⟨_, _, body⟩ :: arms => stmtsOpened body ++ armsOpened arms
end

/-- A sink that may be used in a block where some lists are declared. -/
def Sink.Scoped (block : Option Nat) (lists : List ListVar) : Sink → Prop
  | .breakTo label => ∃ id, block = some id ∧ label = .block id
  | .appendTo list => list ∈ lists

mutual
/-- An expression inside a block, behind the declarations of some lists of that block. -/
def Expr.Scoped (block : Option Nat) (lists : List ListVar) : Expr → Prop
  | .element head attributes children =>
    head.builder = ⟨block⟩ ∧ attrsScoped block lists attributes ∧ exprsScoped block lists children
  | .selfClosing head attributes => head.builder = ⟨block⟩ ∧ attrsScoped block lists attributes
  | .component b _ _ props => b = ⟨block⟩ ∧ groupsScoped block lists props
  | .fragment b children => b = ⟨block⟩ ∧ exprsScoped block lists children
  | .collected b list => b = ⟨block⟩ ∧ list ∈ lists
  | .empty b => b = ⟨block⟩
  | .value b _ _ => b = ⟨block⟩
  | .text b _ _ => b = ⟨block⟩
  | .block id _ body => stmtsScoped (some id) [] body

def exprsScoped (block : Option Nat) (lists : List ListVar) : List Expr → Prop
  | [] => True
  | e :: es => Expr.Scoped block lists e ∧ exprsScoped block lists es

def Value.Scoped (block : Option Nat) (lists : List ListVar) : Value → Prop
  | .code _ => True
  | .expr e => Expr.Scoped block lists e

def Attr.Scoped (block : Option Nat) (lists : List ListVar) : Attr → Prop
  | .pair b _ value => b = ⟨block⟩ ∧ Value.Scoped block lists value
  | .format b _ _ _ => b = ⟨block⟩
  | .spread b _ => b = ⟨block⟩

def attrsScoped (block : Option Nat) (lists : List ListVar) : List Attr → Prop
  | [] => True
  | a :: as => Attr.Scoped block lists a ∧ attrsScoped block lists as

def PropGroup.Scoped (block : Option Nat) (lists : List ListVar) : PropGroup → Prop
  | .record props => entriesScoped block lists props
  | .spread _ => True

def groupsScoped (block : Option Nat) (lists : List ListVar) : List PropGroup → Prop
  | [] => True
  | g :: gs => PropGroup.Scoped block lists g ∧ groupsScoped block lists gs

def PropEntry.Scoped (block : Option Nat) (lists : List ListVar) : PropEntry → Prop
  | .field _ value => Value.Scoped block lists value
  | .format b _ _ _ => b = ⟨block⟩
  | .children nodes => exprsScoped block lists nodes

def entriesScoped (block : Option Nat) (lists : List ListVar) : List PropEntry → Prop
  | [] => True
  | p :: ps => PropEntry.Scoped block lists p ∧ entriesScoped block lists ps

def Stmt.Scoped (block : Option Nat) (lists : List ListVar) : Stmt → Prop
  | .deliver sink value => sink.Scoped block lists ∧ Expr.Scoped block lists value
  | .declare _ b => b = ⟨block⟩
  | .ifChain arms => armsScoped block lists arms
  | .loop _ _ body => stmtsScoped block lists body
  | .switch _ arms => armsScoped block lists arms
  | .blank => True

/-- Each statement sees the lists that those before it declare. -/
def stmtsScoped (block : Option Nat) (lists : List ListVar) : List Stmt → Prop
  | [] => True
  | .declare list b :: ss => b = ⟨block⟩ ∧ stmtsScoped block (list :: lists) ss
  | s :: ss => Stmt.Scoped block lists s ∧ stmtsScoped block lists ss

def armsScoped (block : Option Nat) (lists : List ListVar) : List Arm → Prop
  | [] => True
  | ⟨_, _, body⟩ :: arms => stmtsScoped block lists body ∧ armsScoped block lists arms
end

/-! ## Printing -/

variable {runtime : String}

/-- What opens a block or a list stands among the pieces: the label of the block and the
declaration of its builder, or the declaration of the list. -/
def Opened.Written (runtime : String) (pieces : List Piece) : Opened → Prop
  | .block id allocator =>
    line ((BlockLabel.block id).text ++ ": \x7b") ++ [.indent] ++
      line ("var " ++ (Builder.ofBlock id).text ++ " = " ++ runtime ++ ".Builder.init(" ++
        allocator ++ ");") <:+: pieces
  | .list id => ∃ b : Builder,
    line ("var " ++ (ListVar.fresh id).text ++ " = " ++ b.call "list" ++ "();") <:+: pieces

theorem Opened.Written.mono {pieces more : List Piece} {o : Opened} (h : o.Written runtime pieces)
    (hin : pieces <:+: more) : o.Written runtime more := by
  cases o with
  | block id allocator => exact List.IsInfix.trans h hin
  | list id =>
    obtain ⟨b, hb⟩ := h
    exact ⟨b, hb.trans hin⟩

mutual
/-- What an expression opens is written when it is printed. -/
theorem Expr.opened_written : ∀ e : Expr, ∀ o ∈ e.opened, o.Written runtime (e.pieces runtime)
  | .element head attributes children, o, ho => by
    rw [Expr.opened] at ho
    rw [Expr.pieces]
    rcases List.mem_append.mp ho with ho | ho
    · obtain ⟨item, hitem, hwritten⟩ := attrs_opened_written attributes o ho
      refine hwritten.mono ((infix_attributesPieces head hitem).trans ?_)
      simp only [List.append_assoc]
      exact infix_middle _ _ _
    · obtain ⟨item, hitem, hwritten⟩ := exprs_opened_written children o ho
      refine hwritten.mono ((infix_listPieces hitem).trans ?_)
      rw [List.append_assoc]
      exact List.infix_append _ _ _
  | .selfClosing head attributes, o, ho => by
    obtain ⟨item, hitem, hwritten⟩ := attrs_opened_written attributes o ho
    rw [Expr.pieces]
    exact hwritten.mono ((infix_attributesPieces head hitem).trans (List.infix_append _ _ _))
  | .component b name options props, o, ho => by
    obtain ⟨group, hgroup, hwritten⟩ := groups_opened_written props o ho
    rw [Expr.pieces]
    exact hwritten.mono ((infix_mergedPieces hgroup).trans (List.infix_append _ _ _))
  | .fragment b children, o, ho => by
    obtain ⟨item, hitem, hwritten⟩ := exprs_opened_written children o ho
    rw [Expr.pieces]
    exact hwritten.mono ((infix_listPieces hitem).trans (List.infix_append _ _ _))
  | .collected _ _, _, ho => by cases ho
  | .empty _, _, ho => by cases ho
  | .value _ _ _, _, ho => by cases ho
  | .text _ _ _, _, ho => by cases ho
  | .block id allocator body, o, ho => by
    rw [Expr.opened] at ho
    rw [Expr.pieces]
    rcases List.mem_cons.mp ho with rfl | ho
    · refine ⟨[], (stmtsPieces runtime body).flatten ++ [.dedent] ++ [.text "\x7d"], ?_⟩
      simp [indented, Builder.ofBlock, line]
    · obtain ⟨stmt, hstmt, hwritten⟩ := stmts_opened_written body o ho
      refine hwritten.mono ((List.infix_of_mem_flatten hstmt).trans ?_)
      have hinner := List.suffix_append (line ("var " ++ (Builder.mk (some id)).text ++ " = " ++
        runtime ++ ".Builder.init(" ++ allocator ++ ");")) (stmtsPieces runtime body).flatten
      exact (hinner.isInfix.trans (infix_indented _)).trans (List.infix_append _ _ _)

theorem exprs_opened_written : ∀ es : List Expr, ∀ o ∈ exprsOpened es,
    ∃ pieces ∈ exprsPieces runtime es, o.Written runtime pieces
  | [], _, ho => by cases ho
  | e :: es, o, ho => by
    rcases List.mem_append.mp ho with ho | ho
    · exact ⟨_, List.mem_cons_self .., Expr.opened_written e o ho⟩
    · obtain ⟨pieces, hpieces, hwritten⟩ := exprs_opened_written es o ho
      exact ⟨pieces, List.mem_cons_of_mem _ hpieces, hwritten⟩

theorem Value.opened_written : ∀ v : Value, ∀ o ∈ v.opened, o.Written runtime (v.pieces runtime)
  | .code _, _, ho => by cases ho
  | .expr e, o, ho => Expr.opened_written e o ho

theorem Attr.opened_written : ∀ a : Attr, ∀ o ∈ a.opened, o.Written runtime (a.pieces runtime)
  | .pair b name value, o, ho => by
    rw [Attr.pieces]
    exact (Value.opened_written value o ho).mono (List.infix_append _ _ _)
  | .format _ _ _ _, _, ho => by cases ho
  | .spread _ _, _, ho => by cases ho

theorem attrs_opened_written : ∀ as : List Attr, ∀ o ∈ attrsOpened as,
    ∃ pieces ∈ attrsPieces runtime as, o.Written runtime pieces
  | [], _, ho => by cases ho
  | a :: as, o, ho => by
    rcases List.mem_append.mp ho with ho | ho
    · exact ⟨_, List.mem_cons_self .., Attr.opened_written a o ho⟩
    · obtain ⟨pieces, hpieces, hwritten⟩ := attrs_opened_written as o ho
      exact ⟨pieces, List.mem_cons_of_mem _ hpieces, hwritten⟩

theorem PropGroup.opened_written : ∀ g : PropGroup, ∀ o ∈ g.opened,
    o.Written runtime (g.pieces runtime)
  | .record props, o, ho => by
    obtain ⟨entry, hentry, hwritten⟩ := entries_opened_written props o ho
    rw [PropGroup.pieces]
    refine hwritten.mono ((List.infix_of_mem_flatten hentry).trans ((infix_indented _).trans ?_))
    exact List.infix_append _ _ _
  | .spread _, _, ho => by cases ho

theorem groups_opened_written : ∀ gs : List PropGroup, ∀ o ∈ groupsOpened gs,
    ∃ pieces ∈ groupsPieces runtime gs, o.Written runtime pieces
  | [], _, ho => by cases ho
  | g :: gs, o, ho => by
    rcases List.mem_append.mp ho with ho | ho
    · exact ⟨_, List.mem_cons_self .., PropGroup.opened_written g o ho⟩
    · obtain ⟨pieces, hpieces, hwritten⟩ := groups_opened_written gs o ho
      exact ⟨pieces, List.mem_cons_of_mem _ hpieces, hwritten⟩

theorem PropEntry.opened_written : ∀ p : PropEntry, ∀ o ∈ p.opened,
    o.Written runtime (p.pieces runtime)
  | .field name value, o, ho => by
    rw [PropEntry.pieces]
    exact (Value.opened_written value o ho).mono (List.infix_append _ _ _)
  | .format _ _ _ _, _, ho => by cases ho
  | .children nodes, o, ho => by
    obtain ⟨item, hitem, hwritten⟩ := exprs_opened_written nodes o ho
    rw [PropEntry.pieces]
    exact hwritten.mono ((infix_listPieces hitem).trans (List.infix_append _ _ _))

theorem entries_opened_written : ∀ ps : List PropEntry, ∀ o ∈ entriesOpened ps,
    ∃ pieces ∈ entriesPieces runtime ps, o.Written runtime pieces
  | [], _, ho => by cases ho
  | p :: ps, o, ho => by
    rcases List.mem_append.mp ho with ho | ho
    · exact ⟨_, List.mem_cons_self .., PropEntry.opened_written p o ho⟩
    · obtain ⟨pieces, hpieces, hwritten⟩ := entries_opened_written ps o ho
      exact ⟨pieces, List.mem_cons_of_mem _ hpieces, hwritten⟩

theorem Stmt.opened_written : ∀ s : Stmt, ∀ o ∈ s.opened, o.Written runtime (s.pieces runtime)
  | .deliver sink value, o, ho => by
    rw [Stmt.pieces]
    refine (Expr.opened_written value o ho).mono ?_
    cases sink <;> exact List.infix_append _ _ _
  | .declare (.fresh id) b, o, ho => by
    rw [List.mem_singleton.mp ho]
    exact ⟨b, List.infix_refl _⟩
  | .declare (.named _) _, _, ho => by cases ho
  | .ifChain arms, o, ho => by
    rw [Stmt.pieces]
    exact (arms_opened_written true arms o ho).mono (List.prefix_append _ _).isInfix
  | .loop keyword head body, o, ho => by
    obtain ⟨stmt, hstmt, hwritten⟩ := stmts_opened_written body o ho
    rw [Stmt.pieces]
    exact hwritten.mono ((infix_bodyPieces hstmt).trans (List.infix_append _ _ _))
  | .switch subject arms, o, ho => by
    rw [Stmt.pieces]
    refine (prongs_opened_written arms o ho).mono ((infix_indented _).trans ?_)
    exact List.infix_append _ _ _
  | .blank, _, ho => by cases ho

theorem stmts_opened_written : ∀ ss : List Stmt, ∀ o ∈ stmtsOpened ss,
    ∃ pieces ∈ stmtsPieces runtime ss, o.Written runtime pieces
  | [], _, ho => by cases ho
  | s :: ss, o, ho => by
    rcases List.mem_append.mp ho with ho | ho
    · exact ⟨_, List.mem_cons_self .., Stmt.opened_written s o ho⟩
    · obtain ⟨pieces, hpieces, hwritten⟩ := stmts_opened_written ss o ho
      exact ⟨pieces, List.mem_cons_of_mem _ hpieces, hwritten⟩

theorem arms_opened_written : ∀ (first : Bool) (arms : List Arm), ∀ o ∈ armsOpened arms,
    o.Written runtime (armsPieces runtime first arms)
  | _, [], _, ho => by cases ho
  | first, ⟨head, capture, body⟩ :: arms, o, ho => by
    rw [armsPieces]
    rcases List.mem_append.mp ho with ho | ho
    · obtain ⟨stmt, hstmt, hwritten⟩ := stmts_opened_written body o ho
      exact hwritten.mono ((infix_bodyPieces hstmt).trans (List.infix_append _ _ _))
    · exact (arms_opened_written false arms o ho).mono (List.suffix_append _ _).isInfix

theorem prongs_opened_written : ∀ arms : List Arm, ∀ o ∈ armsOpened arms,
    o.Written runtime (prongsPieces runtime arms)
  | [], _, ho => by cases ho
  | ⟨head, capture, body⟩ :: arms, o, ho => by
    rw [prongsPieces]
    rcases List.mem_append.mp ho with ho | ho
    · obtain ⟨stmt, hstmt, hwritten⟩ := stmts_opened_written body o ho
      refine hwritten.mono ((infix_bodyPieces hstmt).trans ?_)
      simp only [List.append_assoc]
      exact infix_middle _ _ _
    · exact (prongs_opened_written arms o ho).mono (List.suffix_append _ _).isInfix
end

end ZigMarkup.Code
