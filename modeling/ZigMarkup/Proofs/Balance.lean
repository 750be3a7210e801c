import ZigMarkup.Proofs.Brackets
import ZigMarkup.Proofs.NoRoots

/-!
Generated code is balanced. If host code, allocators and the runtime are sealed, then every
bracket that the code of a template opens is closed by its own closer: read from its first
brace, the code is one group and nothing follows it.
-/
namespace ZigMarkup

/-! ## Layout -/

/-- Pieces that leave the closers `after` to come where there were `before`, whatever their
indentation. -/
def Nests (before after : List UInt8) (pieces : List Piece) : Prop :=
  ∀ w : Writer, w.Blank →
    ∃ text, (w.writeAll pieces).out = w.out ++ text ∧ Moves before after (utf8 text)

theorem Writer.Blank.sealed_margin {w : Writer} (h : w.Blank) : Sealed w.margin := by
  have hplain : ∀ b, isMarginByte b = true → Surface.isPlainByte b = true := by
    intro b hb
    simp only [isMarginByte, Bool.or_eq_true, decide_eq_true_eq] at hb
    rcases hb with rfl | rfl <;> decide
  exact Surface.selfContained_of_plain fun b hb => hplain b (h.margin b hb)

namespace Nests

variable {a b c : List UInt8} {pieces more : List Piece}

theorem nil : Nests a a [] := fun w _ => ⟨"", by simp [Writer.writeAll], .nil⟩

theorem append (h : Nests a b pieces) (hmore : Nests b c more) : Nests a c (pieces ++ more) := by
  intro w hw
  obtain ⟨first, hout, hfirst⟩ := h w hw
  obtain ⟨second, hout', hsecond⟩ := hmore (w.writeAll pieces) (hw.writeAll pieces)
  refine ⟨first ++ second, ?_, hfirst.concat hsecond⟩
  rw [Writer.writeAll, List.foldl_append]
  change ((w.writeAll pieces).writeAll more).out = _
  rw [hout', hout, String.append_assoc]

/-- Balanced pieces may stand in any brackets. -/
theorem inside (h : Nests [] [] pieces) : Nests a a pieces := by
  intro w hw
  obtain ⟨text, hout, hmoves⟩ := h w hw
  exact ⟨text, hout, hmoves.frame a⟩

theorem newline : Nests a a [.newline] :=
  fun _ _ => ⟨"\n", rfl, .of_selfContained selfContained_newline⟩

theorem indent : Nests a a [.indent] :=
  fun w _ => ⟨"", by simp [Writer.writeAll, Writer.write], .nil⟩

theorem dedent : Nests a a [.dedent] :=
  fun w _ => ⟨"", by simp [Writer.writeAll, Writer.write], .nil⟩

theorem text {s : String} (h : Moves a b (utf8 s)) : Nests a b [.text s] := by
  intro w hw
  simp only [Writer.writeAll, List.foldl_cons, List.foldl_nil, Writer.write]
  split
  · next hempty =>
    rw [String.isEmpty_iff.mp hempty] at h
    exact ⟨"", String.append_empty.symm, h⟩
  split
  · exact ⟨w.margin ++ s, String.append_assoc .., hw.sealed_margin.moves.concat h⟩
  · exact ⟨s, rfl, h⟩

theorem glue {s : String} (h : closersAfter a (utf8 s) = some b) : Nests a b [.text s] :=
  text (.glue h)

theorem sealed {s : String} (h : Sealed s) : Nests a a [.text s] := text h.moves

theorem line {s : String} (h : Moves a b (utf8 s)) : Nests a b (ZigMarkup.line s) :=
  (text h).append newline

theorem glue_line {s : String} (h : closersAfter a (utf8 s) = some b) :
    Nests a b (ZigMarkup.line s) := line (.glue h)

theorem indented (h : Nests a b pieces) : Nests a b (indented pieces) :=
  (indent.append h).append dedent

theorem flatten {items : List (List Piece)} (h : ∀ item ∈ items, Nests a a item) :
    Nests a a items.flatten := by
  induction items with
  | nil => exact nil
  | cons item items ih =>
    rw [List.flatten_cons]
    exact (h item (List.mem_cons_self ..)).append (ih fun i hi => h i (List.mem_cons_of_mem _ hi))

/-- A line of a multiline string is a token up to its end, which ends it. -/
theorem verbatim {l : String} (h : '\n' ∉ l.toList) : Nests a a (ZigMarkup.line ("\\\\" ++ l)) := by
  intro w hw
  have hne : ("\\\\" ++ l).isEmpty = false := by
    rw [← Bool.not_eq_true, String.isEmpty_iff]
    intro hempty
    simpa using congrArg String.toList hempty
  have hline := Sealed.verbatim h
  simp only [ZigMarkup.line, Writer.writeAll, List.foldl_cons, List.foldl_nil, Writer.write, hne,
    Bool.false_eq_true, if_false]
  split
  · refine ⟨w.margin ++ ("\\\\" ++ l ++ "\n"), ?_, hw.sealed_margin.moves.concat hline.moves⟩
    simp only [String.append_assoc]
  · exact ⟨"\\\\" ++ l ++ "\n", String.append_assoc .., hline.moves⟩

end Nests

namespace Code

/-! ## Printing -/

variable {runtime : String}

theorem listPieces_nests {items : List (List Piece)} (h : ∀ item ∈ items, Nests [] [] item) :
    Nests [] [] (listPieces items) := by
  unfold listPieces
  split
  · exact .glue rfl
  · have hitems : Nests [] [] (items.flatMap (· ++ line ",")) := by
      rw [List.flatMap_def]
      refine .flatten fun item hitem => ?_
      obtain ⟨item, hmem, rfl⟩ := List.mem_map.mp hitem
      exact (h item hmem).append (.glue_line rfl)
    exact ((Nests.glue_line rfl).append hitems.inside.indented).append (.glue rfl)

theorem attributesPieces_nests (head : Head) {items : List (List Piece)}
    (h : ∀ item ∈ items, Nests [] [] item) : Nests [] [] (attributesPieces head items) := by
  have hlist := listPieces_nests h
  unfold attributesPieces
  split
  · have hcall : Moves [] [ascii ')'] (utf8 (head.builder.call "mergeAttrs" ++ "(")) :=
      (head.builder.sealed_call (by decide)).moves.concat (.glue rfl)
    exact ((((Nests.glue rfl).append (.text hcall)).append hlist.inside).append (.glue rfl)).append
      (.glue_line rfl)
  · exact ((((Nests.glue rfl).append .nil).append hlist).append .nil).append (.glue_line rfl)

/-- A call of `mergeProps` is opened for each group but the first, and closed behind it. -/
theorem mergedPieces_nests (builder : Builder) {groups : List (List Piece)}
    (h : ∀ group ∈ groups, Nests [] [] group) : Nests [] [] (mergedPieces builder groups) := by
  cases groups with
  | nil => exact .glue rfl
  | cons first rest =>
    rw [List.forall_mem_cons] at h
    have hopen : ∀ (rest : List (List Piece)) (s : List UInt8),
        Nests s (List.replicate rest.length (ascii ')') ++ s)
          (rest.map fun _ => Piece.text (builder.call "mergeProps" ++ "(")) := by
      intro rest
      induction rest with
      | nil => exact fun s => .nil
      | cons group rest ih =>
        intro s
        have hcall : Moves s (ascii ')' :: s) (utf8 (builder.call "mergeProps" ++ "(")) :=
          (builder.sealed_call (by decide)).moves.concat (.glue rfl)
        have hrest := (Nests.text hcall).append (ih (ascii ')' :: s))
        rw [List.length_cons, List.replicate_succ', List.append_assoc]
        exact hrest
    have hclose : Nests (List.replicate rest.length (ascii ')')) []
        (rest.flatMap fun group => [.text ", "] ++ group ++ [.text ")"]) := by
      have hrest := h.2
      clear h hopen
      induction rest with
      | nil => exact .nil
      | cons group rest ih =>
        rw [List.forall_mem_cons] at hrest
        rw [List.flatMap_cons, List.length_cons, List.replicate_succ]
        exact (((Nests.glue rfl).append hrest.1.inside).append (.glue rfl)).append (ih hrest.2)
    have hopen := hopen rest []
    rw [List.append_nil] at hopen
    exact (hopen.append h.1.inside).append hclose

theorem bodyPieces_nests {body : List (List Piece)} (h : ∀ stmt ∈ body, Nests [] [] stmt) :
    Nests [] [] (bodyPieces body) := by
  unfold bodyPieces
  split
  · exact .glue rfl
  · exact ((Nests.glue_line rfl).append (Nests.flatten h).inside.indented).append (.glue rfl)

theorem sinkPieces_nests {sink : Sink} (hsink : sink.Worded Sealed) {value : List Piece}
    (h : Nests [] [] value) : Nests [] [] (sinkPieces sink value) := by
  cases sink with
  | breakTo label =>
    have hlabel : Sealed ("break :" ++ label.text ++ " ") :=
      ((Sealed.of_plain (by decide)).append hsink).append (.of_plain (by decide))
    exact ((Nests.sealed hlabel).append h).append (.glue_line rfl)
  | appendTo list =>
    have hlist : Moves [] [ascii ')'] (utf8 (list.text ++ ".append(")) :=
      (Sealed.moves hsink).concat (.glue rfl)
    exact ((Nests.text hlist).append h.inside).append (.glue_line rfl)

/-- The first lines of an element leave its call and its record open. -/
theorem headPieces_nests {head : Head} (h : head.Worded Sealed) {method : String}
    (hmethod : (utf8 method).all isNameByte = true) :
    Nests [] [ascii '\x7d', ascii ')'] (headPieces head method) := by
  have hopening : Moves [] [ascii '\x7d', ascii ')']
      (utf8 (head.builder.call method ++ "(" ++ Literal.enumLiteral head.tag ++ ", .\x7b")) :=
    (((head.builder.sealed_call hmethod).moves.concat (.glue rfl)).concat
      (sealed_enumLiteral head.tag).moves).concat (.glue rfl)
  have hallocator : ∀ allocator ∈ head.allocator,
      Nests [] [] (line (".allocator = " ++ allocator ++ ",")) := fun allocator hmem =>
    .line (((Moves.glue rfl).concat (h allocator hmem).moves).concat (.glue rfl))
  have hraw : Nests [] [] (if head.raw then line ".escaping = .none," else []) := by
    split
    · exact .glue_line rfl
    · exact .nil
  have hfirst := (Nests.line hopening).append .indent
  unfold headPieces
  cases hown : head.allocator with
  | none => exact (hfirst.append .nil).append hraw.inside
  | some allocator => exact (hfirst.append (hallocator allocator hown).inside).append hraw.inside

theorem textPieces_nests (builder : Builder) (raw : Bool) (content : String) :
    Nests [] [] (textPieces builder raw content) := by
  unfold textPieces
  split
  · exact .sealed (sealed_callWith builder (by decide) (.quoted content))
  split
  · have hlines : Nests [] [] ((verbatimLines content).flatMap fun l => line ("\\\\" ++ l)) := by
      rw [List.flatMap_def]
      refine .flatten fun item hitem => ?_
      obtain ⟨l, hl, rfl⟩ := List.mem_map.mp hitem
      exact .verbatim (not_mem_verbatimLines hl)
    have hopening : Moves [] [ascii ')'] (utf8 (builder.call "raw" ++ "(")) :=
      (builder.sealed_call (by decide)).moves.concat (.glue rfl)
    exact ((Nests.line hopening).append hlines.inside.indented).append (.glue rfl)
  · exact .sealed (sealed_callWith builder (by decide) (.quoted content))

/-- A format string and its arguments, as they stand in a call. -/
theorem sealed_formatted (builder : Builder) {format : String} {args : List String}
    (h : FormatWorded Sealed format args) :
    Sealed ("\"" ++ format ++ "\", " ++ formatArgs builder args) := by
  have hall := (h.1.append (Sealed.of_plain (s := ", ") (by decide))).append
    (sealed_formatArgs builder h.2)
  have heq : "\"" ++ format ++ "\"" ++ ", " ++ formatArgs builder args =
      "\"" ++ format ++ "\", " ++ formatArgs builder args := by
    rw [show "\", " = "\"" ++ ", " by decide]
    simp only [String.append_assoc]
  rwa [heq] at hall

/-- What stands between the braces of a block. -/
def blockInside (runtime : String) (id : Nat) (allocator : String) (body : List Stmt) : List Piece :=
  indented (line ("var " ++ (Builder.mk (some id)).text ++ " = " ++ runtime ++
    ".Builder.init(" ++ allocator ++ ");") ++ (stmtsPieces runtime body).flatten)

theorem blockInside_nests (hruntime : Sealed runtime) (id : Nat) {allocator : String}
    (hallocator : Sealed allocator) {body : List Stmt}
    (hbody : ∀ stmt ∈ stmtsPieces runtime body, Nests [] [] stmt) :
    Nests [] [] (blockInside runtime id allocator body) := by
  have hinit : Moves [] [] (utf8 ("var " ++ (Builder.mk (some id)).text ++ " = " ++ runtime ++
      ".Builder.init(" ++ allocator ++ ");")) :=
    ((((((Moves.glue rfl).concat (Builder.sealed_text _).moves).concat (.glue rfl)).concat
      hruntime.moves).concat (.glue rfl)).concat hallocator.moves).concat (.glue rfl)
  exact ((Nests.line hinit).append (.flatten hbody)).indented

/-- A label opens the brace that ends its block. -/
theorem moves_label (id : Nat) :
    Moves [] [ascii '\x7d'] (utf8 ((BlockLabel.block id).text ++ ": \x7b")) :=
  (Sealed.moves (BlockLabel.worded admits_sealed id)).concat (.glue rfl)

mutual
/-- Code that takes over only sealed texts is balanced. -/
theorem Expr.nests (hruntime : Sealed runtime) : ∀ e : Expr, e.Worded Sealed →
    Nests [] [] (e.pieces runtime)
  | .element head attributes children, h => by
    obtain ⟨hhead, hattributes, hchildren⟩ := h
    rw [Expr.pieces]
    have hlist := listPieces_nests (exprs_nest hruntime children hchildren)
    have hitems := attributesPieces_nests head (attrs_nest hruntime attributes hattributes)
    exact (((((headPieces_nests hhead (by decide)).append hitems.inside).append (.glue rfl)).append
      hlist.inside).append (.glue_line rfl)).append (Nests.dedent.append (.glue rfl))
  | .selfClosing head attributes, h => by
    obtain ⟨hhead, hattributes⟩ := h
    rw [Expr.pieces]
    have hitems := attributesPieces_nests head (attrs_nest hruntime attributes hattributes)
    exact ((headPieces_nests hhead (by decide)).append hitems.inside).append
      (Nests.dedent.append (.glue rfl))
  | .component builder name options props, h => by
    obtain ⟨hname, hoptions, hprops⟩ := h
    rw [Expr.pieces]
    have hopening : Moves [] [ascii ')'] (utf8 (builder.call "component" ++ "(" ++ name ++ ", " ++
        optionFields options ++ ", ")) :=
      (((((builder.sealed_call (by decide)).moves.concat (.glue rfl)).concat hname.moves).concat
        (.glue rfl)).concat (sealed_optionFields hoptions).moves).concat (.glue rfl)
    exact ((Nests.text hopening).append
      (mergedPieces_nests builder (groups_nest hruntime props hprops)).inside).append (.glue rfl)
  | .fragment builder children, h => by
    rw [Expr.pieces]
    have hopening : Moves [] [ascii ')'] (utf8 (builder.call "fragment" ++ "(")) :=
      (builder.sealed_call (by decide)).moves.concat (.glue rfl)
    exact ((Nests.text hopening).append
      (listPieces_nests (exprs_nest hruntime children h)).inside).append (.glue rfl)
  | .collected builder list, h => by
    have hlist : Sealed list.text := h
    rw [Expr.pieces]
    exact .text ((((builder.sealed_call (by decide)).moves.concat (.glue rfl)).concat
      hlist.moves).concat (.glue rfl))
  | .empty builder, _ => by
    rw [Expr.pieces]
    exact .text ((builder.sealed_call (by decide)).moves.concat (.glue rfl))
  | .value builder raw code, h => by
    have hmethod : (utf8 (if raw then "exprRaw" else "expr")).all isNameByte = true := by
      cases raw <;> decide
    rw [Expr.pieces]
    exact .sealed (sealed_callWith builder hmethod h)
  | .text builder raw content, _ => by
    rw [Expr.pieces]
    exact textPieces_nests builder raw content
  | .block id allocator body, h => by
    have hinside := blockInside_nests hruntime id h.1 (stmts_nest hruntime body h.2)
    rw [Expr.pieces]
    exact ((Nests.line (moves_label id)).append hinside.inside).append (.glue rfl)

theorem exprs_nest (hruntime : Sealed runtime) : ∀ es : List Expr, exprsWorded Sealed es →
    ∀ item ∈ exprsPieces runtime es, Nests [] [] item
  | [], _ => by simp [exprsPieces]
  | e :: es, h => by
    rw [exprsPieces]
    exact List.forall_mem_cons.mpr ⟨Expr.nests hruntime e h.1, exprs_nest hruntime es h.2⟩

theorem Value.nests (hruntime : Sealed runtime) : ∀ v : Value, v.Worded Sealed →
    Nests [] [] (v.pieces runtime)
  | .code text, h => by
    rw [Value.pieces]
    exact .sealed h
  | .expr e, h => by
    rw [Value.pieces]
    exact Expr.nests hruntime e h

theorem Attr.nests (hruntime : Sealed runtime) : ∀ a : Attr, a.Worded Sealed →
    Nests [] [] (a.pieces runtime)
  | .pair builder name value, h => by
    have hopening : Moves [] [ascii ')']
        (utf8 (builder.call "attr" ++ "(" ++ Literal.quoted name ++ ", ")) :=
      (((builder.sealed_call (by decide)).moves.concat (.glue rfl)).concat
        (Sealed.quoted name).moves).concat (.glue rfl)
    rw [Attr.pieces]
    exact ((Nests.text hopening).append (Value.nests hruntime value h).inside).append (.glue rfl)
  | .format builder name format args, h => by
    have hopening : Moves [] [ascii ')']
        (utf8 (builder.call "attrf" ++ "(" ++ Literal.quoted name ++ ", ")) :=
      (((builder.sealed_call (by decide)).moves.concat (.glue rfl)).concat
        (Sealed.quoted name).moves).concat (.glue rfl)
    have hall := (hopening.concat (sealed_formatted builder h).moves).concat (.glue (s := ")") rfl)
    have heq : builder.call "attrf" ++ "(" ++ Literal.quoted name ++ ", \"" ++ format ++ "\", " ++
        formatArgs builder args ++ ")" = builder.call "attrf" ++ "(" ++ Literal.quoted name ++ ", " ++
          ("\"" ++ format ++ "\", " ++ formatArgs builder args) ++ ")" := by
      rw [show ", \"" = ", " ++ "\"" by decide]
      simp only [String.append_assoc]
    rw [Attr.pieces, heq]
    exact .text hall
  | .spread builder code, h => by
    rw [Attr.pieces]
    exact .sealed (sealed_callWith builder (by decide) h)

theorem attrs_nest (hruntime : Sealed runtime) : ∀ as : List Attr, attrsWorded Sealed as →
    ∀ item ∈ attrsPieces runtime as, Nests [] [] item
  | [], _ => by simp [attrsPieces]
  | a :: as, h => by
    rw [attrsPieces]
    exact List.forall_mem_cons.mpr ⟨Attr.nests hruntime a h.1, attrs_nest hruntime as h.2⟩

theorem PropGroup.nests (hruntime : Sealed runtime) : ∀ g : PropGroup, g.Worded Sealed →
    Nests [] [] (g.pieces runtime)
  | .record props, h => by
    rw [PropGroup.pieces]
    exact ((Nests.glue_line rfl).append
      (Nests.flatten (entries_nest hruntime props h)).inside.indented).append (.glue rfl)
  | .spread code, h => by
    rw [PropGroup.pieces]
    exact .sealed h

theorem groups_nest (hruntime : Sealed runtime) : ∀ gs : List PropGroup, groupsWorded Sealed gs →
    ∀ item ∈ groupsPieces runtime gs, Nests [] [] item
  | [], _ => by simp [groupsPieces]
  | g :: gs, h => by
    rw [groupsPieces]
    exact List.forall_mem_cons.mpr ⟨PropGroup.nests hruntime g h.1, groups_nest hruntime gs h.2⟩

theorem PropEntry.nests (hruntime : Sealed runtime) : ∀ p : PropEntry, p.Worded Sealed →
    Nests [] [] (p.pieces runtime)
  | .field name value, h => by
    have hopening : Sealed (Literal.enumLiteral name ++ " = ") :=
      (sealed_enumLiteral name).append (.of_plain (by decide))
    rw [PropEntry.pieces]
    exact ((Nests.sealed hopening).append (Value.nests hruntime value h)).append (.glue_line rfl)
  | .format builder name format args, h => by
    have hopening : Moves [] [ascii ')']
        (utf8 (Literal.enumLiteral name ++ " = " ++ builder.call "format" ++ "(")) :=
      (((sealed_enumLiteral name).moves.concat (.glue rfl)).concat
        (builder.sealed_call (by decide)).moves).concat (.glue rfl)
    have hall := (hopening.concat (sealed_formatted builder h).moves).concat (.glue (s := "),") rfl)
    have heq : Literal.enumLiteral name ++ " = " ++ builder.call "format" ++ "(\"" ++ format ++
        "\", " ++ formatArgs builder args ++ ")," = Literal.enumLiteral name ++ " = " ++
          builder.call "format" ++ "(" ++
            ("\"" ++ format ++ "\", " ++ formatArgs builder args) ++ ")," := by
      rw [show "(\"" = "(" ++ "\"" by decide]
      simp only [String.append_assoc]
    rw [PropEntry.pieces, heq]
    exact .line hall
  | .children nodes, h => by
    rw [PropEntry.pieces]
    exact ((Nests.glue rfl).append (listPieces_nests (exprs_nest hruntime nodes h))).append
      (.glue_line rfl)

theorem entries_nest (hruntime : Sealed runtime) : ∀ ps : List PropEntry, entriesWorded Sealed ps →
    ∀ item ∈ entriesPieces runtime ps, Nests [] [] item
  | [], _ => by simp [entriesPieces]
  | p :: ps, h => by
    rw [entriesPieces]
    exact List.forall_mem_cons.mpr ⟨PropEntry.nests hruntime p h.1, entries_nest hruntime ps h.2⟩

theorem Stmt.nests (hruntime : Sealed runtime) : ∀ s : Stmt, s.Worded Sealed →
    Nests [] [] (s.pieces runtime)
  | .deliver sink value, h => by
    rw [Stmt.pieces]
    exact sinkPieces_nests h.1 (Expr.nests hruntime value h.2)
  | .declare list builder, h => by
    have hlist : Sealed list.text := h
    rw [Stmt.pieces]
    exact .line (((((Moves.glue rfl).concat hlist.moves).concat (.glue rfl)).concat
      (builder.sealed_call (by decide)).moves).concat (.glue rfl))
  | .ifChain arms, h => by
    rw [Stmt.pieces]
    exact (arms_nest hruntime true arms h).append .newline
  | .loop keyword head body, h => by
    obtain ⟨hkeyword, hhead, hbody⟩ := h
    have hopening : Sealed (keyword ++ " " ++ head ++ " ") :=
      ((hkeyword.append (.of_plain (by decide))).append hhead).append (.of_plain (by decide))
    rw [Stmt.pieces]
    exact ((Nests.sealed hopening).append
      (bodyPieces_nests (stmts_nest hruntime body hbody))).append .newline
  | .switch subject arms, h => by
    obtain ⟨hsubject, harms⟩ := h
    have hopening : Moves [] [ascii '\x7d'] (utf8 ("switch " ++ subject ++ " \x7b")) :=
      ((Moves.glue rfl).concat hsubject.moves).concat (.glue rfl)
    rw [Stmt.pieces]
    exact ((Nests.line hopening).append (prongs_nest hruntime arms harms).inside.indented).append
      (.glue_line rfl)
  | .blank, _ => by
    rw [Stmt.pieces]
    exact .newline

theorem stmts_nest (hruntime : Sealed runtime) : ∀ ss : List Stmt, stmtsWorded Sealed ss →
    ∀ stmt ∈ stmtsPieces runtime ss, Nests [] [] stmt
  | [], _ => by simp [stmtsPieces]
  | s :: ss, h => by
    rw [stmtsPieces]
    exact List.forall_mem_cons.mpr ⟨Stmt.nests hruntime s h.1, stmts_nest hruntime ss h.2⟩

theorem arms_nest (hruntime : Sealed runtime) : ∀ (first : Bool) (arms : List Arm),
    armsWorded Sealed arms → Nests [] [] (armsPieces runtime first arms)
  | _, [], _ => by
    rw [armsPieces]
    exact .nil
  | first, ⟨head, capture, body⟩ :: arms, h => by
    obtain ⟨hhead, hcapture, hbody, harms⟩ := h
    rw [armsPieces]
    exact ((Nests.sealed (sealed_armOpening first hhead hcapture)).append
      (bodyPieces_nests (stmts_nest hruntime body hbody))).append (arms_nest hruntime false arms harms)

theorem prongs_nest (hruntime : Sealed runtime) : ∀ arms : List Arm, armsWorded Sealed arms →
    Nests [] [] (prongsPieces runtime arms)
  | [], _ => by
    rw [prongsPieces]
    exact .nil
  | ⟨head, capture, body⟩ :: arms, h => by
    obtain ⟨hhead, hcapture, hbody, harms⟩ := h
    have hpattern : Sealed (head.getD "else") := by
      cases head with
      | none => exact .of_word (by decide)
      | some pattern => exact hhead pattern rfl
    -- The arrow is no bracket, so a pattern and its capture may stand around it.
    have hopening : Sealed (head.getD "else" ++ " => " ++ captureText capture) :=
      (hpattern.append (.of_plain (by decide))).append (sealed_captureText hcapture)
    rw [prongsPieces]
    exact (((Nests.sealed hopening).append
      (bodyPieces_nests (stmts_nest hruntime body hbody))).append (.glue_line rfl)).append
        (prongs_nest hruntime arms harms)
end

/-- A block is laid out as its label and one group. -/
theorem layout_block (hruntime : Sealed runtime) {base : String}
    (hbase : ∀ b ∈ utf8 base, isMarginByte b = true) (width id : Nat) {allocator : String}
    (hallocator : Sealed allocator) {body : List Stmt} (hbody : stmtsWorded Sealed body) :
    ∃ inner, layout base width ((Expr.block id allocator body).pieces runtime) =
      (BlockLabel.block id).text ++ ": " ++ ("\x7b" ++ inner ++ "\x7d") ∧ Sealed inner := by
  have hinside := blockInside_nests hruntime id hallocator (stmts_nest hruntime body hbody)
  have hblank := (Writer.blank_start hbase width).writeAll
    (line ((BlockLabel.block id).text ++ ": \x7b"))
  obtain ⟨text, hout, htext⟩ := hinside _ hblank
  rw [Writer.out_line] at hout
  obtain ⟨pad, hlast, hpad⟩ : ∃ pad, ((((Writer.start base width).writeAll
      (line ((BlockLabel.block id).text ++ ": \x7b"))).writeAll
        (blockInside runtime id allocator body)).write (.text "\x7d")).out =
      (BlockLabel.block id).text ++ ": \x7b" ++ "\n" ++ text ++ (pad ++ "\x7d") ∧ Sealed pad := by
    simp only [Writer.write, hout]
    split
    · next hempty => cases hempty
    split
    · exact ⟨_, String.append_assoc .., (hblank.writeAll _).sealed_margin⟩
    · exact ⟨"", rfl, .of_word rfl⟩
  refine ⟨"\n" ++ text ++ pad, ?_, ?_⟩
  · rw [layout, Expr.pieces, Writer.writeAll, List.foldl_append, List.foldl_append]
    refine hlast.trans ?_
    rw [show ": \x7b" = ": " ++ "\x7b" by decide]
    simp only [String.append_assoc]
  · have hnewline : Sealed "\n" := selfContained_newline
    exact (hnewline.append htext).append hpad

end Code

open Code

/-- The code of a template, read from its first brace, is one group that ends with the code. -/
theorem emitted_code_balanced {source : Bytes} {templates : List Template}
    (h : templatesOf source (parse source) = .ok templates) {template : Template}
    (ht : template ∈ templates) (hcode : ∀ code ∈ template.node.hostCode, Sealed code)
    {allocator : String} (hallocator : Sealed allocator) {options : Options}
    (hruntime : Sealed options.runtime) {base : String}
    (hbase : ∀ b ∈ utf8 base, isMarginByte b = true) (c : Counter) :
    let code := utf8 ((emitTemplate options base (template.resolve allocator)).run c).1
    ∃ start, (code.drop start).head? = some (ascii '\x7b') ∧ ascii '\x7b' ∉ code.take start ∧
      ScanM.group ⟨start, code.drop start⟩ = .ok () ⟨code.length, []⟩ := by
  intro code
  have hnode := worded_of_hostCode admits_sealed h ht hcode
  have hown : Sealed (template.resolve allocator).allocator :=
    Node.worded_rootAllocator admits_sealed hnode.here hallocator .html
  have hresolved : (template.resolve allocator).node.Everywhere (Node.Worded Sealed) :=
    Node.worded_resolve admits_sealed template.node .html hallocator hnode
  obtain ⟨id, body, hblock, hbody⟩ := ofTemplate_worded admits_sealed hresolved c
  obtain ⟨inner, hlayout, hinner⟩ := layout_block hruntime hbase options.indentWidth id hown hbody
  have hbytes : code = utf8 ((BlockLabel.block id).text ++ ": ") ++
      (utf8 "\x7b" ++ (utf8 inner ++ (utf8 "\x7d" ++ []))) := by
    have hcode : code = utf8 (layout base options.indentWidth
        ((ofTemplate (template.resolve allocator) c).1.pieces options.runtime)) := rfl
    rw [hcode, hblock, hlayout]
    simp only [utf8_append, List.append_assoc, List.append_nil]
  have hlabel : ascii '\x7b' ∉ utf8 ((BlockLabel.block id).text ++ ": ") := by
    have hname := all_isNameByte_numbered (s := "__zx_blk") (by decide) id
    rw [utf8_append, List.mem_append, not_or]
    refine ⟨fun hmem => ?_, by decide⟩
    have hbrace : isNameByte (ascii '\x7b') = true := List.all_eq_true.mp hname _ hmem
    cases hbrace
  refine ⟨(utf8 ((BlockLabel.block id).text ++ ": ")).length, ?_, ?_, ?_⟩
  · rw [hbytes, List.drop_left]
    rfl
  · rwa [hbytes, List.take_left]
  · rw [hbytes, List.drop_left, List.length_append]
    have hgroup := Surface.group_braces hinner (utf8 ((BlockLabel.block id).text ++ ": ")).length []
    rw [hgroup]
    simp [Surface.width]
    omega

/-- Brackets in a literal, in a text, on a verbatim line and in a string of host code. -/
def bracketSource : String :=
  "(<p title=\"\x7d\">) \x7bshow(\"(\")\x7d<pre @escaping=\x7b.none\x7d>]\n)</pre></p>)"

theorem emitted_code_balanced_brackets : ∃ templates template,
    templatesOf (utf8 bracketSource) (parse (utf8 bracketSource)) = .ok templates ∧
    template ∈ templates ∧ (∀ code ∈ template.node.hostCode, Sealed code) ∧
    Sealed "gpa" ∧ Sealed "zigx" ∧ (∀ b ∈ utf8 "\t", isMarginByte b = true) ∧
    let code := utf8 ((emitTemplate {} "\t" (template.resolve "gpa")).run {}).1
    ∃ start, (code.drop start).head? = some (ascii '\x7b') ∧ ascii '\x7b' ∉ code.take start ∧
      ScanM.group ⟨start, code.drop start⟩ = .ok () ⟨code.length, []⟩ := by
  have hread : ((templatesOf (utf8 bracketSource) (parse (utf8 bracketSource))).toOption.map
      fun templates => templates.map (·.node.hostCode)) = some [["show(" ++ Literal.quoted "(" ++ ")"]] := by
    decide +kernel
  have hshow : Sealed ("show(" ++ Literal.quoted "(" ++ ")") :=
    .of_moves (((Moves.glue (s := "show(") rfl).concat (Sealed.quoted "(").moves).concat
      (.glue (s := ")") rfl))
  have hgpa : Sealed "gpa" := .of_word (by decide)
  have hzigx : Sealed "zigx" := .of_word (by decide)
  have hbase : ∀ b ∈ utf8 "\t", isMarginByte b = true := List.all_eq_true.mp (by decide)
  have hbool : (templatesOf (utf8 bracketSource) (parse (utf8 bracketSource))).toBool = true := by
    decide +kernel
  obtain ⟨templates, hok⟩ := Checked.exists_of_toBool hbool
  rw [hok] at hread
  have hcodes : templates.map (·.node.hostCode) = [["show(" ++ Literal.quoted "(" ++ ")"]] :=
    Option.some.inj hread
  obtain ⟨template, ht, hown⟩ := List.mem_map.mp (hcodes ▸ List.mem_singleton_self _)
  have hcode : ∀ code ∈ template.node.hostCode, Sealed code := by
    rw [hown, List.forall_mem_singleton]
    exact hshow
  exact ⟨templates, template, hok, ht, hcode, hgpa, hzigx, hbase,
    emitted_code_balanced hok ht hcode hgpa hzigx hbase {}⟩

end ZigMarkup
