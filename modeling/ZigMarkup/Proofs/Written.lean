import ZigMarkup.Code.Printer
import ZigMarkup.Proofs.Calls

/-!
Every call that writes text or a value stands in the printed code, with the method that its
mode asks for.
-/
namespace ZigMarkup

/-- The call as code on a builder. -/
def Call.expr (b : Code.Builder) : Call → Code.Expr
  | .text raw content => .text b raw content
  | .value raw code => .value b raw code

namespace Code

variable {runtime : String} {call : Call}

/-- The call is somewhere among the pieces. -/
def Written (runtime : String) (call : Call) (pieces : List Piece) : Prop :=
  ∃ b, (call.expr b).pieces runtime <:+: pieces

theorem Written.mono {pieces more : List Piece} (h : Written runtime call pieces)
    (hin : pieces <:+: more) : Written runtime call more := by
  obtain ⟨b, hb⟩ := h
  exact ⟨b, hb.trans hin⟩

/-- A printed call begins with the name of its method. -/
theorem pieces_call (runtime : String) (b : Builder) (call : Call) :
    ∃ argument rest, (call.expr b).pieces runtime =
      .text (b.call call.method ++ "(" ++ argument) :: rest := by
  cases call with
  | text raw content =>
    cases raw with
    | false => exact ⟨Literal.quoted content ++ ")", [], by
        simp [Call.expr, Expr.pieces, textPieces, Call.method, String.append_assoc]⟩
    | true =>
      rw [Call.expr, Expr.pieces, textPieces]
      split
      · next h => cases h
      · split
        · refine ⟨"", .newline :: (indented ((verbatimLines content).flatMap fun l =>
            line ("\\\\" ++ l)) ++ [.text ")"]), ?_⟩
          simp [line, Call.method]
        · exact ⟨Literal.quoted content ++ ")", [], by simp [Call.method, String.append_assoc]⟩
  | value raw code =>
    exact ⟨code ++ ")", [], by
      cases raw <;> simp [Call.expr, Expr.pieces, Call.method, String.append_assoc]⟩

theorem infix_indented (pieces : List Piece) : pieces <:+: indented pieces :=
  ⟨[.indent], [.dedent], rfl⟩

theorem infix_listPieces {items : List (List Piece)} {item : List Piece} (h : item ∈ items) :
    item <:+: listPieces items := by
  have hne : items.isEmpty = false := by
    cases items with
    | nil => cases h
    | cons => rfl
  rw [listPieces, if_neg (by simp [hne])]
  have hitem : item <:+: items.flatMap (· ++ line ",") := by
    rw [List.flatMap_def]
    have hin := List.infix_of_mem_flatten (List.mem_map_of_mem (f := (· ++ line ",")) h)
    exact (List.prefix_append item (line ",")).isInfix.trans hin
  refine (hitem.trans (infix_indented _)).trans ?_
  exact List.infix_append _ _ _

theorem infix_middle (before middle after : List Piece) : middle <:+: before ++ (middle ++ after) :=
  ⟨before, after, List.append_assoc ..⟩

theorem infix_attributesPieces (head : Head) {items : List (List Piece)} {item : List Piece}
    (h : item ∈ items) : item <:+: attributesPieces head items := by
  refine (infix_listPieces h).trans ?_
  rw [attributesPieces, List.append_assoc]
  exact List.infix_append _ _ _

theorem infix_bodyPieces {body : List (List Piece)} {stmt : List Piece} (h : stmt ∈ body) :
    stmt <:+: bodyPieces body := by
  have hne : body.isEmpty = false := by
    cases body with
    | nil => cases h
    | cons => rfl
  rw [bodyPieces, if_neg (by simp [hne])]
  refine ((List.infix_of_mem_flatten h).trans (infix_indented _)).trans ?_
  exact List.infix_append _ _ _

theorem infix_mergedPieces {b : Builder} {groups : List (List Piece)} {group : List Piece}
    (h : group ∈ groups) : group <:+: mergedPieces b groups := by
  cases groups with
  | nil => cases h
  | cons first rest =>
    rw [mergedPieces]
    rcases List.mem_cons.mp h with rfl | h
    · exact List.infix_append _ _ _
    · have hrest : group <:+: rest.flatMap fun g => [Piece.text ", "] ++ g ++ [.text ")"] := by
        rw [List.flatMap_def]
        have hin := List.infix_of_mem_flatten
          (List.mem_map_of_mem (f := fun g => [Piece.text ", "] ++ g ++ [.text ")"]) h)
        exact (List.infix_append _ _ _).trans hin
      exact hrest.trans (List.suffix_append _ _).isInfix

mutual
/-- The calls of an expression are written when it is printed. -/
theorem Expr.written : ∀ e : Expr, ∀ call ∈ e.calls, Written runtime call (e.pieces runtime)
  | .element head attributes children, call, hcall => by
    rw [Expr.calls] at hcall
    rw [Expr.pieces]
    rcases List.mem_append.mp hcall with hcall | hcall
    · obtain ⟨item, hitem, hwritten⟩ := attrs_written attributes call hcall
      refine hwritten.mono ((infix_attributesPieces head hitem).trans ?_)
      simp only [List.append_assoc]
      exact infix_middle _ _ _
    · obtain ⟨item, hitem, hwritten⟩ := exprs_written children call hcall
      refine hwritten.mono ((infix_listPieces hitem).trans ?_)
      rw [List.append_assoc]
      exact List.infix_append _ _ _
  | .selfClosing head attributes, call, hcall => by
    obtain ⟨item, hitem, hwritten⟩ := attrs_written attributes call hcall
    rw [Expr.pieces]
    exact hwritten.mono ((infix_attributesPieces head hitem).trans (List.infix_append _ _ _))
  | .component b name options props, call, hcall => by
    obtain ⟨group, hgroup, hwritten⟩ := groups_written props call hcall
    rw [Expr.pieces]
    exact hwritten.mono ((infix_mergedPieces hgroup).trans (List.infix_append _ _ _))
  | .fragment b children, call, hcall => by
    obtain ⟨item, hitem, hwritten⟩ := exprs_written children call hcall
    rw [Expr.pieces]
    exact hwritten.mono ((infix_listPieces hitem).trans (List.infix_append _ _ _))
  | .collected _ _, _, hcall => by cases hcall
  | .empty _, _, hcall => by cases hcall
  | .value b raw code, call, hcall => by
    rw [List.mem_singleton.mp hcall]
    exact ⟨b, List.infix_refl _⟩
  | .text b raw content, call, hcall => by
    rw [List.mem_singleton.mp hcall]
    exact ⟨b, List.infix_refl _⟩
  | .block id allocator body, call, hcall => by
    obtain ⟨stmt, hstmt, hwritten⟩ := stmts_written body call hcall
    rw [Expr.pieces]
    refine hwritten.mono ((List.infix_of_mem_flatten hstmt).trans ?_)
    have hinner := List.suffix_append (line ("var " ++ (Builder.mk (some id)).text ++ " = " ++
      runtime ++ ".Builder.init(" ++ allocator ++ ");")) (stmtsPieces runtime body).flatten
    exact (hinner.isInfix.trans (infix_indented _)).trans (List.infix_append _ _ _)

theorem exprs_written : ∀ es : List Expr, ∀ call ∈ exprsCalls es,
    ∃ pieces ∈ exprsPieces runtime es, Written runtime call pieces
  | [], _, hcall => by cases hcall
  | e :: es, call, hcall => by
    rcases List.mem_append.mp hcall with hcall | hcall
    · exact ⟨_, List.mem_cons_self .., Expr.written e call hcall⟩
    · obtain ⟨pieces, hpieces, hwritten⟩ := exprs_written es call hcall
      exact ⟨pieces, List.mem_cons_of_mem _ hpieces, hwritten⟩

theorem Value.written : ∀ v : Value, ∀ call ∈ v.calls, Written runtime call (v.pieces runtime)
  | .code _, _, hcall => by cases hcall
  | .expr e, call, hcall => Expr.written e call hcall

theorem Attr.written : ∀ a : Attr, ∀ call ∈ a.calls, Written runtime call (a.pieces runtime)
  | .pair b name value, call, hcall => by
    rw [Attr.pieces]
    exact (Value.written value call hcall).mono (List.infix_append _ _ _)
  | .format _ _ _ _, _, hcall => by cases hcall
  | .spread _ _, _, hcall => by cases hcall

theorem attrs_written : ∀ as : List Attr, ∀ call ∈ attrsCalls as,
    ∃ pieces ∈ attrsPieces runtime as, Written runtime call pieces
  | [], _, hcall => by cases hcall
  | a :: as, call, hcall => by
    rcases List.mem_append.mp hcall with hcall | hcall
    · exact ⟨_, List.mem_cons_self .., Attr.written a call hcall⟩
    · obtain ⟨pieces, hpieces, hwritten⟩ := attrs_written as call hcall
      exact ⟨pieces, List.mem_cons_of_mem _ hpieces, hwritten⟩

theorem PropGroup.written : ∀ g : PropGroup, ∀ call ∈ g.calls,
    Written runtime call (g.pieces runtime)
  | .record props, call, hcall => by
    obtain ⟨entry, hentry, hwritten⟩ := entries_written props call hcall
    rw [PropGroup.pieces]
    refine hwritten.mono ((List.infix_of_mem_flatten hentry).trans ((infix_indented _).trans ?_))
    exact List.infix_append _ _ _
  | .spread _, _, hcall => by cases hcall

theorem groups_written : ∀ gs : List PropGroup, ∀ call ∈ groupsCalls gs,
    ∃ pieces ∈ groupsPieces runtime gs, Written runtime call pieces
  | [], _, hcall => by cases hcall
  | g :: gs, call, hcall => by
    rcases List.mem_append.mp hcall with hcall | hcall
    · exact ⟨_, List.mem_cons_self .., PropGroup.written g call hcall⟩
    · obtain ⟨pieces, hpieces, hwritten⟩ := groups_written gs call hcall
      exact ⟨pieces, List.mem_cons_of_mem _ hpieces, hwritten⟩

theorem PropEntry.written : ∀ p : PropEntry, ∀ call ∈ p.calls,
    Written runtime call (p.pieces runtime)
  | .field name value, call, hcall => by
    rw [PropEntry.pieces]
    exact (Value.written value call hcall).mono (List.infix_append _ _ _)
  | .format _ _ _ _, _, hcall => by cases hcall
  | .children nodes, call, hcall => by
    obtain ⟨item, hitem, hwritten⟩ := exprs_written nodes call hcall
    rw [PropEntry.pieces]
    exact hwritten.mono ((infix_listPieces hitem).trans (List.infix_append _ _ _))

theorem entries_written : ∀ ps : List PropEntry, ∀ call ∈ entriesCalls ps,
    ∃ pieces ∈ entriesPieces runtime ps, Written runtime call pieces
  | [], _, hcall => by cases hcall
  | p :: ps, call, hcall => by
    rcases List.mem_append.mp hcall with hcall | hcall
    · exact ⟨_, List.mem_cons_self .., PropEntry.written p call hcall⟩
    · obtain ⟨pieces, hpieces, hwritten⟩ := entries_written ps call hcall
      exact ⟨pieces, List.mem_cons_of_mem _ hpieces, hwritten⟩

theorem Stmt.written : ∀ s : Stmt, ∀ call ∈ s.calls, Written runtime call (s.pieces runtime)
  | .deliver sink value, call, hcall => by
    rw [Stmt.pieces]
    refine (Expr.written value call hcall).mono ?_
    cases sink <;> exact List.infix_append _ _ _
  | .declare _ _, _, hcall => by cases hcall
  | .ifChain arms, call, hcall => by
    rw [Stmt.pieces]
    exact (arms_written true arms call hcall).mono (List.prefix_append _ _).isInfix
  | .loop keyword head body, call, hcall => by
    obtain ⟨stmt, hstmt, hwritten⟩ := stmts_written body call hcall
    rw [Stmt.pieces]
    exact hwritten.mono ((infix_bodyPieces hstmt).trans (List.infix_append _ _ _))
  | .switch subject arms, call, hcall => by
    rw [Stmt.pieces]
    refine (prongs_written arms call hcall).mono ((infix_indented _).trans ?_)
    exact List.infix_append _ _ _
  | .blank, _, hcall => by cases hcall

theorem stmts_written : ∀ ss : List Stmt, ∀ call ∈ stmtsCalls ss,
    ∃ pieces ∈ stmtsPieces runtime ss, Written runtime call pieces
  | [], _, hcall => by cases hcall
  | s :: ss, call, hcall => by
    rcases List.mem_append.mp hcall with hcall | hcall
    · exact ⟨_, List.mem_cons_self .., Stmt.written s call hcall⟩
    · obtain ⟨pieces, hpieces, hwritten⟩ := stmts_written ss call hcall
      exact ⟨pieces, List.mem_cons_of_mem _ hpieces, hwritten⟩

theorem arms_written : ∀ (first : Bool) (arms : List Arm), ∀ call ∈ armsCalls arms,
    Written runtime call (armsPieces runtime first arms)
  | _, [], _, hcall => by cases hcall
  | first, ⟨head, capture, body⟩ :: arms, call, hcall => by
    rw [armsPieces]
    rcases List.mem_append.mp hcall with hcall | hcall
    · obtain ⟨stmt, hstmt, hwritten⟩ := stmts_written body call hcall
      exact hwritten.mono ((infix_bodyPieces hstmt).trans (List.infix_append _ _ _))
    · exact (arms_written false arms call hcall).mono (List.suffix_append _ _).isInfix

theorem prongs_written : ∀ arms : List Arm, ∀ call ∈ armsCalls arms,
    Written runtime call (prongsPieces runtime arms)
  | [], _, hcall => by cases hcall
  | ⟨head, capture, body⟩ :: arms, call, hcall => by
    rw [prongsPieces]
    rcases List.mem_append.mp hcall with hcall | hcall
    · obtain ⟨stmt, hstmt, hwritten⟩ := stmts_written body call hcall
      refine hwritten.mono ((infix_bodyPieces hstmt).trans ?_)
      simp only [List.append_assoc]
      exact infix_middle _ _ _
    · exact (prongs_written arms call hcall).mono (List.suffix_append _ _).isInfix
end

end Code

end ZigMarkup
