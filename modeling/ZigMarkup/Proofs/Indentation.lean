import ZigMarkup.Compile
import ZigMarkup.Proofs.LineLayout
import ZigMarkup.Proofs.Wording

/-!
Indentation is no part of generated code. The code of a template is a list of lines that is the
same for every base and every width, and a line feed inside of a line belongs to a text that is
copied into it. All code is printed with indents and dedents that are paired, so the depth of the
writer never has to be kept from falling below zero, and zero is where it ends.
-/
namespace ZigMarkup

/-! ## Texts with copied parts -/

/-- A text put together from texts without a line feed and from whole texts in `C`. -/
inductive Woven (C : String → Prop) : String → Prop
  | plain {s : String} : '\n' ∉ s.toList → Woven C s
  | copied {s : String} : C s → Woven C s
  | append {s t : String} : Woven C s → Woven C t → Woven C (s ++ t)

namespace Woven

variable {C : String → Prop}

theorem of_steady {s : String} (h : Steady s) : Woven C s := by
  refine .plain fun hmem => h.on_line ?_
  have hbyte : ascii '\n' ∈ String.utf8EncodeChar '\n' := by decide
  exact List.mem_flatMap.mpr ⟨'\n', hmem, hbyte⟩

theorem glue {s : String} (h : (utf8 s).all isGlue = true) : Woven C s := of_steady (.of_glue h)

theorem weaves (C : String → Prop) : Weaves (Woven C) := ⟨of_steady, .append⟩

theorem admits (C : String → Prop) : Admits (Woven C) C where
  word h := of_steady (steady_of_name h)
  quoted h := of_steady (.literal h)
  literal := .copied

/-- A call as it is opened. -/
theorem opening (b : Code.Builder) {method : String} (h : (utf8 method).all isGlue = true) :
    Woven C (b.call method ++ "(") :=
  of_steady ((b.steady_call h).append (.of_glue (by decide)))

end Woven

/-- The texts that are copied into the code of a template: its host code and its string literals,
the allocator that is handed in, and the runtime. -/
inductive Template.Copies (template : Template) (allocator runtime : String) : String → Prop
  | code {node : Node} {s : String} : node.Within template.node → s ∈ node.ownCode →
      Copies template allocator runtime s
  | literal {node : Node} {s : String} : node.Within template.node → s ∈ node.ownLiterals →
      Copies template allocator runtime s
  | allocator : Copies template allocator runtime allocator
  | runtime : Copies template allocator runtime runtime

/-! ## Printing -/

namespace Code

variable {C : String → Prop} {runtime : String}

theorem listPieces_paired {items : List (List Piece)} (h : ∀ item ∈ items, Paired (Woven C) item) :
    Paired (Woven C) (listPieces items) := by
  unfold listPieces
  split
  · exact .text (.glue (by decide))
  · have hitems : Paired (Woven C) (items.flatMap (· ++ line ",")) :=
      .flatMap fun item hitem => (h item hitem).append (.line (.glue (by decide)))
    exact ((Paired.line (.glue (by decide))).append hitems.indented).append
      (.text (.glue (by decide)))

theorem attributesPieces_paired (head : Head) {items : List (List Piece)}
    (h : ∀ item ∈ items, Paired (Woven C) item) :
    Paired (Woven C) (attributesPieces head items) := by
  have hopen : Paired (Woven C)
      (if head.merged then [.text (head.builder.call "mergeAttrs" ++ "(")] else []) := by
    split
    · exact .text (.opening _ (by decide))
    · exact .nil
  have hclose : Paired (Woven C) (if head.merged then [.text ")"] else []) := by
    split
    · exact .text (.glue (by decide))
    · exact .nil
  exact ((((Paired.text (.glue (by decide))).append hopen).append (listPieces_paired h)).append
    hclose).append (.line (.glue (by decide)))

theorem mergedPieces_paired (b : Builder) {groups : List (List Piece)}
    (h : ∀ group ∈ groups, Paired (Woven C) group) : Paired (Woven C) (mergedPieces b groups) := by
  cases groups with
  | nil => exact .text (.glue (by decide))
  | cons first rest =>
    rw [List.forall_mem_cons] at h
    have hopen : Paired (Woven C) (rest.map fun _ => Piece.text (b.call "mergeProps" ++ "(")) := by
      rw [List.map_eq_flatMap]
      exact .flatMap fun _ _ => .text (.opening b (by decide))
    have hrest : Paired (Woven C) (rest.flatMap fun group => [.text ", "] ++ group ++ [.text ")"]) :=
      .flatMap fun group hgroup => ((Paired.text (.glue (by decide))).append
        (h.2 group hgroup)).append (.text (.glue (by decide)))
    exact (hopen.append h.1).append hrest

theorem bodyPieces_paired {body : List (List Piece)} (h : ∀ stmt ∈ body, Paired (Woven C) stmt) :
    Paired (Woven C) (bodyPieces body) := by
  unfold bodyPieces
  split
  · exact .text (.glue (by decide))
  · exact ((Paired.line (.glue (by decide))).append (Paired.flatten h).indented).append
      (.text (.glue (by decide)))

theorem sinkPieces_paired {sink : Sink} (hsink : sink.Worded (Woven C)) {value : List Piece}
    (h : Paired (Woven C) value) : Paired (Woven C) (sinkPieces sink value) := by
  cases sink with
  | breakTo label =>
    have hlabel : Woven C ("break :" ++ label.text ++ " ") :=
      ((Woven.glue (by decide)).append hsink).append (.glue (by decide))
    exact ((Paired.text hlabel).append h).append (.line (.glue (by decide)))
  | appendTo list =>
    have hlist : Woven C (list.text ++ ".append(") := .append hsink (.glue (by decide))
    exact ((Paired.text hlist).append h).append (.line (.glue (by decide)))

/-- The indent with which the record of an element begins is taken back behind its fields. -/
theorem headPieces_paired {head : Head} (h : head.Worded (Woven C)) (method : String)
    (hmethod : (utf8 method).all isGlue = true) {fields : List Piece}
    (hfields : Paired (Woven C) fields) :
    Paired (Woven C) (headPieces head method ++ fields ++ [.dedent, .text "\x7d)"]) := by
  have hopening : Woven C
      (head.builder.call method ++ "(" ++ Literal.enumLiteral head.tag ++ ", .\x7b") :=
    ((Woven.opening _ hmethod).append (.of_steady (steady_enumLiteral head.tag))).append
      (.glue (by decide))
  have hraw : Paired (Woven C) (if head.raw then line ".escaping = .none," else []) := by
    split
    · exact .line (.glue (by decide))
    · exact .nil
  have hrecord : ∀ {first : List Piece}, Paired (Woven C) first → Paired (Woven C)
      (line (head.builder.call method ++ "(" ++ Literal.enumLiteral head.tag ++ ", .\x7b") ++
        [.indent] ++ first ++ (if head.raw then line ".escaping = .none," else []) ++ fields ++
          [.dedent, .text "\x7d)"]) := by
    intro first hfirst
    have hall := ((Paired.line hopening).append ((hfirst.append hraw).append hfields).indented).append
      (.text (.glue (s := "\x7d)") (by decide)))
    simpa only [indented, List.append_assoc, List.cons_append, List.nil_append] using hall
  unfold headPieces
  cases hown : head.allocator with
  | none => exact hrecord .nil
  | some allocator =>
    exact hrecord (.line (((Woven.glue (by decide)).append (h allocator hown)).append
      (.glue (by decide))))

theorem textPieces_paired (b : Builder) (raw : Bool) (content : String) :
    Paired (Woven C) (textPieces b raw content) := by
  have hcall : ∀ method : String, (utf8 method).all isGlue = true →
      Paired (Woven C) [.text (b.call method ++ "(" ++ Literal.quoted content ++ ")")] :=
    fun _ hmethod => .text ((Woven.weaves C).callWith b hmethod (.of_steady (.quoted content)))
  unfold textPieces
  split
  · exact hcall "text" (by decide)
  split
  · have hlines : Paired (Woven C) ((verbatimLines content).flatMap fun l => line ("\\\\" ++ l)) :=
      .flatMap fun l hl => .line (.append (.plain (by decide)) (.plain (not_mem_verbatimLines hl)))
    exact ((Paired.line (.opening b (by decide))).append hlines.indented).append
      (.text (.glue (by decide)))
  · exact hcall "raw" (by decide)

mutual
/-- Code that takes over woven texts is printed as paired pieces with woven texts. -/
theorem Expr.paired (hruntime : Woven C runtime) : ∀ e : Expr, e.Worded (Woven C) →
    Paired (Woven C) (e.pieces runtime)
  | .element head attributes children, h => by
    obtain ⟨hhead, hattributes, hchildren⟩ := h
    have hitems := attributesPieces_paired head (attrs_paired hruntime attributes hattributes)
    have hlist := listPieces_paired (exprs_paired hruntime children hchildren)
    have hfields := ((hitems.append (.text (.glue (s := ".children = ") (by decide)))).append
      hlist).append (.line (.glue (s := ",") (by decide)))
    have hall := headPieces_paired hhead "element" (by decide) hfields
    rw [Expr.pieces]
    simpa only [List.append_assoc] using hall
  | .selfClosing head attributes, h => by
    obtain ⟨hhead, hattributes⟩ := h
    rw [Expr.pieces]
    exact headPieces_paired hhead "selfClosing" (by decide)
      (attributesPieces_paired head (attrs_paired hruntime attributes hattributes))
  | .component b name options props, h => by
    obtain ⟨hname, hoptions, hprops⟩ := h
    have hopening : Woven C (b.call "component" ++ "(" ++ name ++ ", " ++ optionFields options ++
        ", ") :=
      ((((Woven.opening b (by decide)).append hname).append (.glue (by decide))).append
        ((Woven.weaves C).optionFields hoptions)).append (.glue (by decide))
    rw [Expr.pieces]
    exact ((Paired.text hopening).append
      (mergedPieces_paired b (groups_paired hruntime props hprops))).append
        (.text (.glue (by decide)))
  | .fragment b children, h => by
    rw [Expr.pieces]
    exact ((Paired.text (.opening b (by decide))).append
      (listPieces_paired (exprs_paired hruntime children h))).append (.text (.glue (by decide)))
  | .collected b list, h => by
    rw [Expr.pieces]
    exact .text (((Woven.opening b (by decide)).append h).append (.glue (by decide)))
  | .empty b, _ => by
    rw [Expr.pieces]
    exact .text (.of_steady ((b.steady_call (by decide)).append (.of_glue (by decide))))
  | .value b raw code, h => by
    have hmethod : (utf8 (if raw then "exprRaw" else "expr")).all isGlue = true := by
      cases raw <;> decide
    rw [Expr.pieces]
    exact .text ((Woven.weaves C).callWith b hmethod h)
  | .text b raw content, _ => by
    rw [Expr.pieces]
    exact textPieces_paired b raw content
  | .block id allocator body, h => by
    have hlabel : Woven C ((BlockLabel.block id).text ++ ": \x7b") :=
      .of_steady ((BlockLabel.steady_text id).append (.of_glue (by decide)))
    have hbuilder : Woven C ("var " ++ (Builder.mk (some id)).text ++ " = ") :=
      .of_steady (((Steady.of_glue (by decide)).append (Builder.steady_text _)).append
        (.of_glue (by decide)))
    have hinit : Woven C ("var " ++ (Builder.mk (some id)).text ++ " = " ++ runtime ++
        ".Builder.init(" ++ allocator ++ ");") :=
      (((hbuilder.append hruntime).append (.glue (by decide))).append h.1).append
        (.glue (by decide))
    rw [Expr.pieces]
    exact ((Paired.line hlabel).append ((Paired.line hinit).append
      (.flatten (stmts_paired hruntime body h.2))).indented).append (.text (.glue (by decide)))

theorem exprs_paired (hruntime : Woven C runtime) : ∀ es : List Expr, exprsWorded (Woven C) es →
    ∀ item ∈ exprsPieces runtime es, Paired (Woven C) item
  | [], _ => by simp [exprsPieces]
  | e :: es, h => by
    rw [exprsPieces]
    exact List.forall_mem_cons.mpr ⟨Expr.paired hruntime e h.1, exprs_paired hruntime es h.2⟩

theorem Value.paired (hruntime : Woven C runtime) : ∀ v : Value, v.Worded (Woven C) →
    Paired (Woven C) (v.pieces runtime)
  | .code text, h => by
    rw [Value.pieces]
    exact .text h
  | .expr e, h => by
    rw [Value.pieces]
    exact Expr.paired hruntime e h

theorem Attr.paired (hruntime : Woven C runtime) : ∀ a : Attr, a.Worded (Woven C) →
    Paired (Woven C) (a.pieces runtime)
  | .pair b name value, h => by
    have hopening : Woven C (b.call "attr" ++ "(" ++ Literal.quoted name ++ ", ") :=
      ((Woven.opening b (by decide)).append (.of_steady (.quoted name))).append (.glue (by decide))
    rw [Attr.pieces]
    exact ((Paired.text hopening).append (Value.paired hruntime value h)).append
      (.text (.glue (by decide)))
  | .format b name format args, h => by
    have hopening : Woven C (b.call "attrf" ++ "(" ++ Literal.quoted name ++ ", ") :=
      ((Woven.opening b (by decide)).append (.of_steady (.quoted name))).append (.glue (by decide))
    rw [Attr.pieces, show ", \"" = ", " ++ "\"" by decide, ← String.append_assoc]
    exact .text (((Woven.weaves C).formatted b hopening h.1 h.2).append (.glue (by decide)))
  | .spread b code, h => by
    rw [Attr.pieces]
    exact .text ((Woven.weaves C).callWith b (by decide) h)

theorem attrs_paired (hruntime : Woven C runtime) : ∀ as : List Attr, attrsWorded (Woven C) as →
    ∀ item ∈ attrsPieces runtime as, Paired (Woven C) item
  | [], _ => by simp [attrsPieces]
  | a :: as, h => by
    rw [attrsPieces]
    exact List.forall_mem_cons.mpr ⟨Attr.paired hruntime a h.1, attrs_paired hruntime as h.2⟩

theorem PropGroup.paired (hruntime : Woven C runtime) : ∀ g : PropGroup, g.Worded (Woven C) →
    Paired (Woven C) (g.pieces runtime)
  | .record props, h => by
    rw [PropGroup.pieces]
    exact ((Paired.line (.glue (by decide))).append
      (Paired.flatten (entries_paired hruntime props h)).indented).append (.text (.glue (by decide)))
  | .spread code, h => by
    rw [PropGroup.pieces]
    exact .text h

theorem groups_paired (hruntime : Woven C runtime) : ∀ gs : List PropGroup,
    groupsWorded (Woven C) gs → ∀ item ∈ groupsPieces runtime gs, Paired (Woven C) item
  | [], _ => by simp [groupsPieces]
  | g :: gs, h => by
    rw [groupsPieces]
    exact List.forall_mem_cons.mpr ⟨PropGroup.paired hruntime g h.1, groups_paired hruntime gs h.2⟩

theorem PropEntry.paired (hruntime : Woven C runtime) : ∀ p : PropEntry, p.Worded (Woven C) →
    Paired (Woven C) (p.pieces runtime)
  | .field name value, h => by
    have hopening : Woven C (Literal.enumLiteral name ++ " = ") :=
      .of_steady ((steady_enumLiteral name).append (.of_glue (by decide)))
    rw [PropEntry.pieces]
    exact ((Paired.text hopening).append (Value.paired hruntime value h)).append
      (.line (.glue (by decide)))
  | .format b name format args, h => by
    have hopening : Woven C (Literal.enumLiteral name ++ " = " ++ b.call "format" ++ "(") :=
      .of_steady ((((steady_enumLiteral name).append (.of_glue (by decide))).append
        (b.steady_call (by decide))).append (.of_glue (by decide)))
    rw [PropEntry.pieces, show "(\"" = "(" ++ "\"" by decide, ← String.append_assoc]
    exact .line (((Woven.weaves C).formatted b hopening h.1 h.2).append (.glue (by decide)))
  | .children nodes, h => by
    rw [PropEntry.pieces]
    exact ((Paired.text (.glue (by decide))).append
      (listPieces_paired (exprs_paired hruntime nodes h))).append (.line (.glue (by decide)))

theorem entries_paired (hruntime : Woven C runtime) : ∀ ps : List PropEntry,
    entriesWorded (Woven C) ps → ∀ item ∈ entriesPieces runtime ps, Paired (Woven C) item
  | [], _ => by simp [entriesPieces]
  | p :: ps, h => by
    rw [entriesPieces]
    exact List.forall_mem_cons.mpr
      ⟨PropEntry.paired hruntime p h.1, entries_paired hruntime ps h.2⟩

theorem Stmt.paired (hruntime : Woven C runtime) : ∀ s : Stmt, s.Worded (Woven C) →
    Paired (Woven C) (s.pieces runtime)
  | .deliver sink value, h => by
    rw [Stmt.pieces]
    exact sinkPieces_paired h.1 (Expr.paired hruntime value h.2)
  | .declare list b, h => by
    have hcall : Woven C (b.call "list") := .of_steady (b.steady_call (by decide))
    rw [Stmt.pieces]
    exact .line ((((Woven.append (.glue (by decide)) h).append (.glue (by decide))).append
      hcall).append (.glue (by decide)))
  | .ifChain arms, h => by
    rw [Stmt.pieces]
    exact (arms_paired hruntime true arms h).append .newline
  | .loop keyword head body, h => by
    obtain ⟨hkeyword, hhead, hbody⟩ := h
    have hopening : Woven C (keyword ++ " " ++ head ++ " ") :=
      ((hkeyword.append (.glue (by decide))).append hhead).append (.glue (by decide))
    rw [Stmt.pieces]
    exact ((Paired.text hopening).append
      (bodyPieces_paired (stmts_paired hruntime body hbody))).append .newline
  | .switch subject arms, h => by
    obtain ⟨hsubject, harms⟩ := h
    have hopening : Woven C ("switch " ++ subject ++ " \x7b") :=
      ((Woven.glue (by decide)).append hsubject).append (.glue (by decide))
    rw [Stmt.pieces]
    exact ((Paired.line hopening).append (prongs_paired hruntime arms harms).indented).append
      (.line (.glue (by decide)))
  | .blank, _ => by
    rw [Stmt.pieces]
    exact .newline

theorem stmts_paired (hruntime : Woven C runtime) : ∀ ss : List Stmt, stmtsWorded (Woven C) ss →
    ∀ stmt ∈ stmtsPieces runtime ss, Paired (Woven C) stmt
  | [], _ => by simp [stmtsPieces]
  | s :: ss, h => by
    rw [stmtsPieces]
    exact List.forall_mem_cons.mpr ⟨Stmt.paired hruntime s h.1, stmts_paired hruntime ss h.2⟩

theorem arms_paired (hruntime : Woven C runtime) : ∀ (first : Bool) (arms : List Arm),
    armsWorded (Woven C) arms → Paired (Woven C) (armsPieces runtime first arms)
  | _, [], _ => by
    rw [armsPieces]
    exact .nil
  | first, ⟨head, capture, body⟩ :: arms, h => by
    obtain ⟨hhead, hcapture, hbody, harms⟩ := h
    rw [armsPieces]
    exact ((Paired.text ((Woven.weaves C).armOpening first hhead hcapture)).append
      (bodyPieces_paired (stmts_paired hruntime body hbody))).append
        (arms_paired hruntime false arms harms)

theorem prongs_paired (hruntime : Woven C runtime) : ∀ arms : List Arm,
    armsWorded (Woven C) arms → Paired (Woven C) (prongsPieces runtime arms)
  | [], _ => by
    rw [prongsPieces]
    exact .nil
  | ⟨head, capture, body⟩ :: arms, h => by
    obtain ⟨hhead, hcapture, hbody, harms⟩ := h
    rw [prongsPieces]
    exact (((Paired.text ((Woven.weaves C).prongOpening hhead hcapture)).append
      (bodyPieces_paired (stmts_paired hruntime body hbody))).append
        (.line (.glue (by decide)))).append (prongs_paired hruntime arms harms)
end

end Code

open Code

/-- The code of an accepted template is printed as paired pieces, in which line feeds stand only in
texts that are copied. -/
theorem ofTemplate_paired {source : Bytes} {templates : List Template}
    (h : templatesOf source (parse source) = .ok templates) {template : Template}
    (ht : template ∈ templates) (allocator runtime : String) :
    Makes (ofTemplate (template.resolve allocator)) fun code =>
      Paired (Woven (template.Copies allocator runtime)) (code.pieces runtime) := by
  have hadmits := Woven.admits (template.Copies allocator runtime)
  have hallocator : Woven (template.Copies allocator runtime) allocator := .copied .allocator
  have hruntime : Woven (template.Copies allocator runtime) runtime := .copied .runtime
  have hread : template.node.Everywhere
      (Node.Worded (Woven (template.Copies allocator runtime))) := fun node hnode =>
    (lexed_of_templatesOf h ht node hnode).worded hadmits
      (fun _ hliteral _ => .literal hnode hliteral) (fun _ hcode => .copied (.code hnode hcode))
  have hresolved : (template.resolve allocator).node.Everywhere
      (Node.Worded (Woven (template.Copies allocator runtime))) :=
    Node.worded_resolve hadmits template.node .html hallocator hread
  have hown : Woven (template.Copies allocator runtime) (template.resolve allocator).allocator :=
    Node.worded_rootAllocator hadmits hread.here hallocator .html
  intro c
  obtain ⟨id, body, hblock, hbody⟩ := ofTemplate_worded hadmits hresolved c
  rw [hblock]
  exact Expr.paired hruntime _ ⟨hown, hbody⟩

theorem emitTemplate_run (options : Options) (base : String) {template : Template} {c after : Counter}
    {code : Expr} (h : (ofTemplate template).run c = (code, after)) :
    (emitTemplate options base template).run c =
      (joinLines base options.indentWidth (linesOf (code.pieces options.runtime)), after) := by
  rw [← layout_eq_joinLines, emitTemplate, StateT.run_bind, h]
  rfl

/-- Indentation never changes the code of a template. Its lines, each a depth and a text, are the
same for every base and width, and so is the counter it leaves behind; what is written is their
texts joined by line feeds, each but the first and the empty ones behind the base and the spaces
of its depth. A line feed in a text is part of a copied text. Writing it down, a dedent never
finds the depth at zero, and at zero the depth ends. -/
theorem indentation_frames_lines {source : Bytes} {templates : List Template}
    (h : templatesOf source (parse source) = .ok templates) {template : Template}
    (ht : template ∈ templates) (allocator : String) (options : Options) (c : Counter) :
    ∃ (lines : List Line) (after : Counter),
      (∀ base width, (emitTemplate { options with indentWidth := width } base
        (template.resolve allocator)).run c = (joinLines base width lines, after)) ∧
      (∀ l ∈ lines, Woven (template.Copies allocator options.runtime) l.text) ∧
      ∃ code, (ofTemplate (template.resolve allocator)).run c = (code, after) ∧
        ∀ base width,
          (∀ done rest, code.pieces options.runtime = done ++ .dedent :: rest →
            0 < ((Writer.start base width).writeAll done).depth) ∧
          ((Writer.start base width).writeAll (code.pieces options.runtime)).depth = 0 := by
  rcases hrun : (ofTemplate (template.resolve allocator)).run c with ⟨code, after⟩
  have hpaired := (ofTemplate_paired h ht allocator options.runtime).of_run hrun
  refine ⟨linesOf (code.pieces options.runtime), after, fun base width => ?_, ?_, code, rfl,
    fun base width => ⟨fun done rest hsplit => ?_, ?_⟩⟩
  · exact emitTemplate_run { options with indentWidth := width } base hrun
  · exact forall_mem_linesOf (.plain (by decide)) .append hpaired.texts
  · exact hpaired.lt_depth_of_dedent hsplit (Writer.start base width)
  · exact hpaired.depth_writeAll (Writer.start base width)

/-- Host code and a literal with line feeds, text that is kept line by line, and a loop. -/
def layeredSource : String :=
  "(<ul id=\"a\\\nb\">\x7bfor (f(\n\ty)) |x| (<li @escaping=\x7b.none\x7d>p\n q</li>)\x7d</ul>)"

theorem indentation_frames_lines_layered : ∃ (templates : List Template) (template : Template),
    templatesOf (utf8 layeredSource) (parse (utf8 layeredSource)) = .ok templates ∧
    template ∈ templates ∧ template.Copies "gpa" "zigx" "\"a\\\nb\"" ∧
    ∃ (lines : List Line) (after : Counter),
      (∀ base width, (emitTemplate { indentWidth := width } base (template.resolve "gpa")).run {} =
        (joinLines base width lines, after)) ∧
      (∀ l ∈ lines, Woven (template.Copies "gpa" "zigx") l.text) ∧
      ∃ code, (ofTemplate (template.resolve "gpa")).run {} = (code, after) ∧
        ∀ base width,
          (∀ done rest, code.pieces "zigx" = done ++ .dedent :: rest →
            0 < ((Writer.start base width).writeAll done).depth) ∧
          ((Writer.start base width).writeAll (code.pieces "zigx")).depth = 0 := by
  have hread : ((templatesOf (utf8 layeredSource) (parse (utf8 layeredSource))).toOption.map
      fun templates => templates.map (·.node.ownLiterals)) = some [["\"a\\\nb\""]] := by
    decide +kernel
  have hbool : (templatesOf (utf8 layeredSource) (parse (utf8 layeredSource))).toBool = true := by
    decide +kernel
  obtain ⟨templates, hok⟩ := Checked.exists_of_toBool hbool
  rw [hok] at hread
  obtain ⟨template, ht, hliterals⟩ := List.mem_map.mp
    (Option.some.inj hread ▸ List.mem_singleton_self _)
  have hliteral : template.Copies "gpa" "zigx" "\"a\\\nb\"" :=
    .literal (.refl _) (hliterals ▸ List.mem_singleton_self _)
  exact ⟨templates, template, hok, ht, hliteral, indentation_frames_lines hok ht "gpa" {} {}⟩

end ZigMarkup
