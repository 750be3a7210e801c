import ZigMarkup.Proofs.QuietText

/-!
Generated code that brings no root. The host code in it is quiet, names are names, and literals
are literals; then the printed code is without a root wherever it is put, whatever its
indentation.
-/
namespace ZigMarkup

/-! ## Layout -/

/-- A writer that indents with spaces and tabs. -/
structure Writer.Blank (w : Writer) : Prop where
  base : ∀ b ∈ utf8 w.base, isMarginByte b = true
  unit : ∀ b ∈ utf8 w.unit, isMarginByte b = true

theorem isGlue_of_isMarginByte {b : UInt8} (h : isMarginByte b = true) : isGlue b = true := by
  simp only [isMarginByte, Bool.or_eq_true, decide_eq_true_eq] at h
  rcases h with rfl | rfl <;> rfl

theorem Writer.Blank.write {w : Writer} (h : w.Blank) (piece : Piece) : (w.write piece).Blank := by
  cases piece with
  | text s =>
    rw [Writer.write]
    split
    · exact h
    · split <;> exact ⟨h.base, h.unit⟩
  | newline | indent | dedent => exact ⟨h.base, h.unit⟩

theorem Writer.Blank.writeAll {w : Writer} (h : w.Blank) (pieces : List Piece) :
    (w.writeAll pieces).Blank := by
  induction pieces generalizing w with
  | nil => exact h
  | cons piece pieces ih => exact ih (h.write piece)

theorem mem_utf8_repeated {s : String} {count : Nat} {b : UInt8}
    (h : b ∈ utf8 (repeated count s)) : b ∈ utf8 s := by
  induction count with
  | zero => cases h
  | succ count ih =>
    rw [repeated, List.replicate_succ, String.join_cons, utf8_append] at h
    exact (List.mem_append.mp h).elim id ih

theorem Writer.blank_start {base : String} (h : ∀ b ∈ utf8 base, isMarginByte b = true)
    (width : Nat) : (Writer.start base width).Blank := by
  refine ⟨h, fun b hb => ?_⟩
  have hspace : (utf8 " ").all isMarginByte = true := by decide
  exact List.all_eq_true.mp hspace b (mem_utf8_repeated hb)

theorem Writer.Blank.margin {w : Writer} (h : w.Blank) :
    ∀ b ∈ utf8 w.margin, isMarginByte b = true := by
  intro b hb
  rw [Writer.margin, utf8_append] at hb
  rcases List.mem_append.mp hb with hb | hb
  · exact h.base b hb
  · exact h.unit b (mem_utf8_repeated hb)

/-- Pieces that may be printed at a place, whatever their indentation. -/
def Prints (p q : Spot) (pieces : List Piece) : Prop :=
  ∀ w : Writer, w.Blank → ∃ text, (w.writeAll pieces).out = w.out ++ text ∧ Leads p q (utf8 text)

namespace Prints

variable {p q r : Spot} {pieces more : List Piece}

theorem nil : Prints p p [] := fun w _ => ⟨"", by simp [Writer.writeAll], Leads.nil⟩

theorem append (h : Prints p q pieces) (hmore : Prints q r more) : Prints p r (pieces ++ more) := by
  intro w hw
  obtain ⟨first, hout, hfirst⟩ := h w hw
  obtain ⟨second, hout', hsecond⟩ := hmore (w.writeAll pieces) (hw.writeAll pieces)
  refine ⟨first ++ second, ?_, ?_⟩
  · rw [Writer.writeAll, List.foldl_append]
    change ((w.writeAll pieces).writeAll more).out = _
    rw [hout', hout, String.append_assoc]
  · rw [utf8_append]
    exact hfirst.append hsecond

theorem to_line (h : Prints p .code pieces) : Prints p .line pieces := by
  intro w hw
  obtain ⟨text, hout, hlead⟩ := h w hw
  exact ⟨text, hout, hlead.to_line⟩

theorem of_host (h : Prints p .host pieces) : Prints p q pieces := by
  intro w hw
  obtain ⟨text, hout, hlead⟩ := h w hw
  exact ⟨text, hout, hlead.of_host⟩

theorem in_code (h : Prints .line q pieces) : Prints .code q pieces := by
  intro w hw
  obtain ⟨text, hout, hlead⟩ := h w hw
  exact ⟨text, hout, hlead.in_code⟩

theorem newline : Prints .line .code [.newline] := fun _ _ => ⟨"\n", rfl, leads_newline⟩

theorem indent : Prints p p [.indent] := fun w _ => ⟨"", by simp [Writer.writeAll, Writer.write],
  Leads.nil⟩

theorem dedent : Prints p p [.dedent] := fun w _ => ⟨"", by simp [Writer.writeAll, Writer.write],
  Leads.nil⟩

/-- A text may begin a line or go on with one. -/
theorem text {s : String} (hp : p ≠ .host) (h : Leads p q (utf8 s)) : Prints p q [.text s] := by
  intro w hw
  simp only [Writer.writeAll, List.foldl_cons, List.foldl_nil, Writer.write]
  split
  · next hempty =>
    rw [String.isEmpty_iff.mp hempty] at h
    exact ⟨"", (String.append_empty).symm, h⟩
  split
  · refine ⟨w.margin ++ s, String.append_assoc .., ?_⟩
    rw [utf8_append]
    exact (leads_glue_at hp fun b hb => isGlue_of_isMarginByte (hw.margin b hb)).append h
  · exact ⟨s, rfl, h⟩

theorem quiet {s : String} (h : Quiet s) : Prints .line .line [.text s] := text (by simp) h

theorem steady {s : String} (hp : p ≠ .host) (h : Steady s) : Prints p p [.text s] := by
  cases p with
  | host => exact absurd rfl hp
  | code => exact text hp h.code
  | line => exact quiet h.quiet

theorem glue {s : String} (hp : p ≠ .host) (h : (utf8 s).all isGlue = true) :
    Prints p p [.text s] := steady hp (.of_glue h)

theorem line {s : String} (h : Quiet s) : Prints .line .code (ZigMarkup.line s) :=
  (quiet h).append newline

theorem glue_line {s : String} (h : (utf8 s).all isGlue = true) :
    Prints .line .code (ZigMarkup.line s) := line (Steady.of_glue h).quiet

theorem indented (h : Prints p q pieces) : Prints p q (indented pieces) :=
  (indent.append h).append dedent

theorem flatten {items : List (List Piece)} (h : ∀ item ∈ items, Prints p p item) :
    Prints p p items.flatten := by
  induction items with
  | nil => exact nil
  | cons item items ih =>
    rw [List.flatten_cons]
    exact (h item (List.mem_cons_self ..)).append (ih fun i hi => h i (List.mem_cons_of_mem _ hi))

/-- The brace that closes a block of code may also close a template. -/
theorem close : Prints .code .host [.text "\x7d"] := text (by simp) leads_close

end Prints

namespace Code

/-! ## Code with quiet host code -/

def Head.Tidy (head : Head) : Prop := ∀ allocator ∈ head.allocator, Quiet allocator

def Sink.Tidy : Sink → Prop
  | .breakTo label => Steady label.text
  | .appendTo list => Steady list.text

/-- A format string and its arguments. -/
def FormatTidy (format : String) (args : List String) : Prop :=
  Escaped (utf8 format) ∧ ∀ arg ∈ args, Quiet (trim arg)

mutual
/-- Code whose names and host code are quiet. -/
def Expr.Tidy : Expr → Prop
  | .element head attributes children => head.Tidy ∧ attrsTidy attributes ∧ exprsTidy children
  | .selfClosing head attributes => head.Tidy ∧ attrsTidy attributes
  | .component _ name options props =>
    Steady name ∧ (∀ o ∈ options, Steady o.1 ∧ Quiet o.2) ∧ groupsTidy props
  | .fragment _ children => exprsTidy children
  | .collected _ list => Steady list.text
  | .empty _ => True
  | .value _ _ code => Quiet code
  | .text _ _ _ => True
  | .block _ allocator body => Quiet allocator ∧ stmtsTidy body

def exprsTidy : List Expr → Prop
  | [] => True
  | e :: es => Expr.Tidy e ∧ exprsTidy es

/-- A value may also be a string literal, which begins where code begins. -/
def Value.Tidy : Value → Prop
  | .code text => Leads .code .line (utf8 text)
  | .expr e => Expr.Tidy e

def Attr.Tidy : Attr → Prop
  | .pair _ _ value => Value.Tidy value
  | .format _ _ format args => FormatTidy format args
  | .spread _ code => Quiet code

def attrsTidy : List Attr → Prop
  | [] => True
  | a :: as => Attr.Tidy a ∧ attrsTidy as

def PropGroup.Tidy : PropGroup → Prop
  | .record props => entriesTidy props
  | .spread code => Quiet code

def groupsTidy : List PropGroup → Prop
  | [] => True
  | g :: gs => PropGroup.Tidy g ∧ groupsTidy gs

def PropEntry.Tidy : PropEntry → Prop
  | .field _ value => Value.Tidy value
  | .format _ _ format args => FormatTidy format args
  | .children nodes => exprsTidy nodes

def entriesTidy : List PropEntry → Prop
  | [] => True
  | p :: ps => PropEntry.Tidy p ∧ entriesTidy ps

def Stmt.Tidy : Stmt → Prop
  | .deliver sink value => sink.Tidy ∧ Expr.Tidy value
  | .declare list _ => Steady list.text
  | .ifChain arms => armsTidy arms
  | .loop keyword head body => Steady keyword ∧ Quiet head ∧ stmtsTidy body
  | .switch subject arms => Quiet subject ∧ armsTidy arms
  | .blank => True

def stmtsTidy : List Stmt → Prop
  | [] => True
  | s :: ss => Stmt.Tidy s ∧ stmtsTidy ss

def armsTidy : List Arm → Prop
  | [] => True
  | ⟨head, capture, body⟩ :: arms =>
    (∀ h ∈ head, Quiet h) ∧ (∀ c ∈ capture, Quiet c) ∧ stmtsTidy body ∧ armsTidy arms
end

/-! ## Printing -/

variable {runtime : String}

theorem listPieces_prints {items : List (List Piece)} (h : ∀ item ∈ items, Prints .code .line item) :
    Prints .line .line (listPieces items) := by
  unfold listPieces
  split
  · exact .glue (by simp) (by decide)
  · have hitems : Prints .code .code (items.flatMap (· ++ line ",")) := by
      rw [List.flatMap_def]
      refine .flatten fun item hitem => ?_
      obtain ⟨item, hmem, rfl⟩ := List.mem_map.mp hitem
      exact (h item hmem).append (.glue_line (by decide))
    exact ((Prints.glue_line (by decide)).append hitems.indented).append
      (Prints.glue (by simp) (by decide)).to_line

theorem attributesPieces_prints (head : Head) {items : List (List Piece)}
    (h : ∀ item ∈ items, Prints .code .line item) :
    Prints .code .code (attributesPieces head items) := by
  have hopen : Prints .line .line
      (if head.merged then [.text (head.builder.call "mergeAttrs" ++ "(")] else []) := by
    split
    · exact .steady (by simp) ((head.builder.steady_call (by decide)).append (.of_glue (by decide)))
    · exact .nil
  have hclose : Prints .line .line (if head.merged then [.text ")"] else []) := by
    split
    · exact .glue (by simp) (by decide)
    · exact .nil
  have hline : Prints .line .code (attributesPieces head items) :=
    ((((Prints.glue (by simp) (by decide)).append hopen).append (listPieces_prints h)).append
      hclose).append (.glue_line (by decide))
  exact hline.in_code

theorem mergedPieces_prints (b : Builder) {groups : List (List Piece)}
    (h : ∀ group ∈ groups, Prints .line .line group) : Prints .line .line (mergedPieces b groups) := by
  cases groups with
  | nil => exact .glue (by simp) (by decide)
  | cons first rest =>
    have hopen : Prints .line .line
        (rest.map fun _ => Piece.text (b.call "mergeProps" ++ "(")) := by
      rw [List.map_eq_flatMap, List.flatMap_def]
      refine .flatten fun item hitem => ?_
      obtain ⟨_, _, rfl⟩ := List.mem_map.mp hitem
      exact .steady (by simp) ((b.steady_call (by decide)).append (.of_glue (by decide)))
    have hrest : Prints .line .line (rest.flatMap fun group => [.text ", "] ++ group ++ [.text ")"]) := by
      rw [List.flatMap_def]
      refine .flatten fun item hitem => ?_
      obtain ⟨group, hgroup, rfl⟩ := List.mem_map.mp hitem
      exact ((Prints.glue (by simp) (by decide)).append
        (h group (List.mem_cons_of_mem _ hgroup))).append (.glue (by simp) (by decide))
    exact (hopen.append (h first (List.mem_cons_self ..))).append hrest

theorem bodyPieces_prints {body : List (List Piece)} (h : ∀ stmt ∈ body, Prints .code .code stmt) :
    Prints .line .line (bodyPieces body) := by
  unfold bodyPieces
  split
  · exact .glue (by simp) (by decide)
  · exact ((Prints.glue_line (by decide)).append (Prints.flatten h).indented).append
      (Prints.glue (by simp) (by decide)).to_line

theorem sinkPieces_prints {sink : Sink} (hsink : sink.Tidy) {value : List Piece}
    (h : Prints .code .line value) : Prints .code .code (sinkPieces sink value) := by
  cases sink with
  | breakTo label =>
    have hlabel : Steady ("break :" ++ label.text ++ " ") :=
      ((Steady.of_glue (by decide)).append hsink).append (.of_glue (by decide))
    exact ((Prints.steady (by simp) hlabel).append h).append (.glue_line (by decide))
  | appendTo list =>
    have hlist : Steady (list.text ++ ".append(") := Steady.append hsink (.of_glue (by decide))
    exact ((Prints.steady (by simp) hlist).append h).append (.glue_line (by decide))

theorem headPieces_prints {head : Head} (h : head.Tidy) {method : String}
    (hmethod : (utf8 method).all isGlue = true) : Prints .code .code (headPieces head method) := by
  have hopening : Steady (head.builder.call method ++ "(" ++ Literal.enumLiteral head.tag ++ ", .\x7b") :=
    (((head.builder.steady_call hmethod).append (.of_glue (by decide))).append
      (steady_enumLiteral head.tag)).append (.of_glue (by decide))
  have hallocator : ∀ allocator ∈ head.allocator,
      Prints .code .code (line (".allocator = " ++ allocator ++ ",")) := fun allocator hmem =>
    (Prints.line (((Steady.of_glue (by decide)).quiet.append (h allocator hmem)).append
      (Steady.of_glue (by decide)).quiet)).in_code
  have hraw : Prints .code .code (if head.raw then line ".escaping = .none," else []) := by
    split
    · exact (Prints.glue_line (by decide)).in_code
    · exact .nil
  have hfirst := (Prints.line hopening.quiet).in_code.append .indent
  unfold headPieces
  cases hown : head.allocator with
  | none => exact (hfirst.append .nil).append hraw
  | some allocator => exact (hfirst.append (hallocator allocator hown)).append hraw

theorem textPieces_prints (b : Builder) (raw : Bool) (content : String) :
    Prints .code .line (textPieces b raw content) := by
  have hcall : ∀ method : String, (utf8 method).all isGlue = true →
      Prints .code .line [.text (b.call method ++ "(" ++ Literal.quoted content ++ ")")] := by
    intro method hmethod
    refine (Prints.steady (by simp) ?_).to_line
    exact (((b.steady_call hmethod).append (.of_glue (by decide))).append (.quoted content)).append
      (.of_glue (by decide))
  unfold textPieces
  split
  · exact hcall "text" (by decide)
  split
  · have hlines : Prints .code .code ((verbatimLines content).flatMap fun l => line ("\\\\" ++ l)) := by
      rw [List.flatMap_def]
      refine .flatten fun item hitem => ?_
      obtain ⟨l, hl, rfl⟩ := List.mem_map.mp hitem
      exact (Prints.text (by simp) (leads_verbatim (not_mem_verbatimLines hl))).append .newline
    have hopening : Quiet (b.call "raw" ++ "(") :=
      ((b.steady_call (by decide)).append (.of_glue (by decide))).quiet
    exact (((Prints.line hopening).in_code.append hlines.indented).append
      (.glue (by simp) (by decide))).to_line
  · exact hcall "raw" (by decide)

theorem block_prints (hruntime : Quiet runtime) (id : Nat) {allocator : String}
    (hallocator : Quiet allocator) {body : List Stmt}
    (hbody : ∀ stmt ∈ stmtsPieces runtime body, Prints .code .code stmt) :
    Prints .code .host ((Expr.block id allocator body).pieces runtime) := by
  have hlabel : Steady ((BlockLabel.block id).text ++ ": \x7b") :=
    (BlockLabel.steady_text id).append (.of_glue (by decide))
  have hbuilder : Steady ("var " ++ (Builder.mk (some id)).text ++ " = ") :=
    ((Steady.of_glue (by decide)).append (Builder.steady_text _)).append (.of_glue (by decide))
  have hinit : Quiet ("var " ++ (Builder.mk (some id)).text ++ " = " ++ runtime ++
      ".Builder.init(" ++ allocator ++ ");") :=
    (((hbuilder.quiet.append hruntime).append (Steady.of_glue (by decide)).quiet).append
      hallocator).append (Steady.of_glue (by decide)).quiet
  rw [Expr.pieces]
  exact ((Prints.line hlabel.quiet).in_code.append
    ((Prints.line hinit).in_code.append (.flatten hbody)).indented).append .close

mutual
/-- Tidy code is printed without a root. -/
theorem Expr.prints (hruntime : Quiet runtime) : ∀ e : Expr, e.Tidy →
    Prints .code .line (e.pieces runtime)
  | .element head attributes children, h => by
    obtain ⟨hhead, hattributes, hchildren⟩ := h
    rw [Expr.pieces]
    have hlist := listPieces_prints (exprs_print hruntime children hchildren)
    have hopening : Prints .code .line
        (headPieces head "element" ++ attributesPieces head (attrsPieces runtime attributes) ++
          [.text ".children = "]) :=
      ((headPieces_prints hhead (by decide)).append (attributesPieces_prints head
        (attrs_print hruntime attributes hattributes))).append (.glue (by simp) (by decide)) |>.to_line
    exact ((hopening.append hlist).append (.glue_line (by decide))).append
      (Prints.dedent.append (.glue (by simp) (by decide))) |>.to_line
  | .selfClosing head attributes, h => by
    obtain ⟨hhead, hattributes⟩ := h
    rw [Expr.pieces]
    exact ((headPieces_prints hhead (by decide)).append (attributesPieces_prints head
      (attrs_print hruntime attributes hattributes))).append
        (Prints.dedent.append (.glue (by simp) (by decide))) |>.to_line
  | .component b name options props, h => by
    obtain ⟨hname, hoptions, hprops⟩ := h
    rw [Expr.pieces]
    have hopening : Steady (b.call "component" ++ "(" ++ name ++ ", ") :=
      (((b.steady_call (by decide)).append (.of_glue (by decide))).append hname).append
        (.of_glue (by decide))
    have hfields : Quiet (optionFields options) :=
      weaves_quiet.optionFields fun o ho => ⟨(hoptions o ho).1.quiet, (hoptions o ho).2⟩
    have hline : Prints .line .line [.text (b.call "component" ++ "(" ++ name ++ ", " ++
        optionFields options ++ ", ")] :=
      .quiet ((hopening.quiet.append hfields).append
        (Steady.of_glue (by decide)).quiet)
    exact ((hline.append (mergedPieces_prints b (groups_print hruntime props hprops))).append
      (.glue (by simp) (by decide))).in_code
  | .fragment b children, h => by
    rw [Expr.pieces]
    have hopening : Steady (b.call "fragment" ++ "(") :=
      (b.steady_call (by decide)).append (.of_glue (by decide))
    exact (((Prints.steady (by simp) hopening).append
      (listPieces_prints (exprs_print hruntime children h))).append
        (.glue (by simp) (by decide))).in_code
  | .collected b list, h => by
    have hlist : Steady list.text := h
    rw [Expr.pieces]
    exact (Prints.steady (by simp) ((((b.steady_call (by decide)).append (.of_glue (by decide))).append
      hlist).append (.of_glue (by decide)))).to_line
  | .empty b, _ => by
    rw [Expr.pieces]
    exact (Prints.steady (by simp) ((b.steady_call (by decide)).append (.of_glue (by decide)))).to_line
  | .value b raw code, h => by
    have hcode : Quiet code := h
    have hcall : Steady (b.call (if raw then "exprRaw" else "expr") ++ "(") := by
      refine (b.steady_call ?_).append (.of_glue (by decide))
      cases raw <;> decide
    rw [Expr.pieces]
    exact (Prints.quiet ((hcall.quiet.append hcode).append (Steady.of_glue (by decide)).quiet)).in_code
  | .text b raw content, _ => by
    rw [Expr.pieces]
    exact textPieces_prints b raw content
  | .block id allocator body, h =>
    (block_prints hruntime id h.1 (stmts_print hruntime body h.2)).of_host

theorem exprs_print (hruntime : Quiet runtime) : ∀ es : List Expr, exprsTidy es →
    ∀ item ∈ exprsPieces runtime es, Prints .code .line item
  | [], _ => by simp [exprsPieces]
  | e :: es, h => by
    rw [exprsPieces]
    exact List.forall_mem_cons.mpr ⟨Expr.prints hruntime e h.1, exprs_print hruntime es h.2⟩

theorem Value.prints (hruntime : Quiet runtime) : ∀ v : Value, v.Tidy →
    Prints .code .line (v.pieces runtime)
  | .code text, h => by
    rw [Value.pieces]
    exact .text (by simp) h
  | .expr e, h => by
    rw [Value.pieces]
    exact Expr.prints hruntime e h

theorem Attr.prints (hruntime : Quiet runtime) : ∀ a : Attr, a.Tidy →
    Prints .code .line (a.pieces runtime)
  | .pair b name value, h => by
    have hopening : Steady (b.call "attr" ++ "(" ++ Literal.quoted name ++ ", ") :=
      (((b.steady_call (by decide)).append (.of_glue (by decide))).append (.quoted name)).append
        (.of_glue (by decide))
    rw [Attr.pieces]
    exact ((Prints.steady (by simp) hopening).append (Value.prints hruntime value h)).append
      (.glue (by simp) (by decide))
  | .format b name format args, h => by
    have hopening : Steady (b.call "attrf" ++ "(" ++ Literal.quoted name ++ ", ") :=
      (((b.steady_call (by decide)).append (.of_glue (by decide))).append (.quoted name)).append
        (.of_glue (by decide))
    rw [Attr.pieces, show ", \"" = ", " ++ "\"" by decide, ← String.append_assoc]
    exact (Prints.quiet ((weaves_quiet.formatted b hopening.quiet (Steady.literal h.1).quiet h.2).append
      (Steady.of_glue (by decide)).quiet)).in_code
  | .spread b code, h => by
    have hcode : Quiet code := h
    have hopening : Steady (b.call "spread" ++ "(") :=
      (b.steady_call (by decide)).append (.of_glue (by decide))
    rw [Attr.pieces]
    exact (Prints.quiet ((hopening.quiet.append hcode).append
      (Steady.of_glue (by decide)).quiet)).in_code

theorem attrs_print (hruntime : Quiet runtime) : ∀ as : List Attr, attrsTidy as →
    ∀ item ∈ attrsPieces runtime as, Prints .code .line item
  | [], _ => by simp [attrsPieces]
  | a :: as, h => by
    rw [attrsPieces]
    exact List.forall_mem_cons.mpr ⟨Attr.prints hruntime a h.1, attrs_print hruntime as h.2⟩

theorem PropGroup.prints (hruntime : Quiet runtime) : ∀ g : PropGroup, g.Tidy →
    Prints .line .line (g.pieces runtime)
  | .record props, h => by
    rw [PropGroup.pieces]
    exact ((Prints.glue_line (by decide)).append
      (Prints.flatten (entries_print hruntime props h)).indented).append
        (Prints.glue (by simp) (by decide)).to_line
  | .spread code, h => by
    rw [PropGroup.pieces]
    exact .quiet h

theorem groups_print (hruntime : Quiet runtime) : ∀ gs : List PropGroup, groupsTidy gs →
    ∀ item ∈ groupsPieces runtime gs, Prints .line .line item
  | [], _ => by simp [groupsPieces]
  | g :: gs, h => by
    rw [groupsPieces]
    exact List.forall_mem_cons.mpr ⟨PropGroup.prints hruntime g h.1, groups_print hruntime gs h.2⟩

theorem PropEntry.prints (hruntime : Quiet runtime) : ∀ p : PropEntry, p.Tidy →
    Prints .code .code (p.pieces runtime)
  | .field name value, h => by
    have hopening : Steady (Literal.enumLiteral name ++ " = ") :=
      (steady_enumLiteral name).append (.of_glue (by decide))
    rw [PropEntry.pieces]
    exact ((Prints.steady (by simp) hopening).append (Value.prints hruntime value h)).append
      (.glue_line (by decide))
  | .format b name format args, h => by
    have hopening : Steady (Literal.enumLiteral name ++ " = " ++ b.call "format" ++ "(") :=
      (((steady_enumLiteral name).append (.of_glue (by decide))).append
        (b.steady_call (by decide))).append (.of_glue (by decide))
    rw [PropEntry.pieces, show "(\"" = "(" ++ "\"" by decide, ← String.append_assoc]
    exact (Prints.line ((weaves_quiet.formatted b hopening.quiet (Steady.literal h.1).quiet h.2).append
      (Steady.of_glue (by decide)).quiet)).in_code
  | .children nodes, h => by
    rw [PropEntry.pieces]
    exact (((Prints.glue (by simp) (by decide)).append
      (listPieces_prints (exprs_print hruntime nodes h))).append (.glue_line (by decide))).in_code

theorem entries_print (hruntime : Quiet runtime) : ∀ ps : List PropEntry, entriesTidy ps →
    ∀ item ∈ entriesPieces runtime ps, Prints .code .code item
  | [], _ => by simp [entriesPieces]
  | p :: ps, h => by
    rw [entriesPieces]
    exact List.forall_mem_cons.mpr ⟨PropEntry.prints hruntime p h.1, entries_print hruntime ps h.2⟩

theorem Stmt.prints (hruntime : Quiet runtime) : ∀ s : Stmt, s.Tidy →
    Prints .code .code (s.pieces runtime)
  | .deliver sink value, h => by
    rw [Stmt.pieces]
    exact sinkPieces_prints h.1 (Expr.prints hruntime value h.2)
  | .declare list b, h => by
    have hlist : Steady list.text := h
    have hline : Steady ("var " ++ list.text ++ " = " ++ b.call "list" ++ "();") :=
      ((((Steady.of_glue (by decide)).append hlist).append (.of_glue (by decide))).append
        (b.steady_call (by decide))).append (.of_glue (by decide))
    rw [Stmt.pieces]
    exact (Prints.line hline.quiet).in_code
  | .ifChain arms, h => by
    rw [Stmt.pieces]
    exact ((arms_print hruntime true arms h).append .newline).in_code
  | .loop keyword head body, h => by
    obtain ⟨hkeyword, hhead, hbody⟩ := h
    have hopening : Quiet (keyword ++ " " ++ head ++ " ") :=
      ((hkeyword.append (.of_glue (by decide))).quiet.append hhead).append
        (Steady.of_glue (by decide)).quiet
    rw [Stmt.pieces]
    exact (((Prints.quiet hopening).append
      (bodyPieces_prints (stmts_print hruntime body hbody))).append .newline).in_code
  | .switch subject arms, h => by
    obtain ⟨hsubject, harms⟩ := h
    have hopening : Quiet ("switch " ++ subject ++ " \x7b") :=
      ((Steady.of_glue (by decide)).quiet.append hsubject).append (Steady.of_glue (by decide)).quiet
    rw [Stmt.pieces]
    exact ((Prints.line hopening).append (prongs_print hruntime arms harms).indented).append
      (Prints.glue_line (by decide)).in_code |>.in_code
  | .blank, _ => by
    rw [Stmt.pieces]
    exact Prints.newline.in_code

theorem stmts_print (hruntime : Quiet runtime) : ∀ ss : List Stmt, stmtsTidy ss →
    ∀ stmt ∈ stmtsPieces runtime ss, Prints .code .code stmt
  | [], _ => by simp [stmtsPieces]
  | s :: ss, h => by
    rw [stmtsPieces]
    exact List.forall_mem_cons.mpr ⟨Stmt.prints hruntime s h.1, stmts_print hruntime ss h.2⟩

theorem arms_print (hruntime : Quiet runtime) : ∀ (first : Bool) (arms : List Arm), armsTidy arms →
    Prints .line .line (armsPieces runtime first arms)
  | _, [], _ => by
    rw [armsPieces]
    exact .nil
  | first, ⟨head, capture, body⟩ :: arms, h => by
    obtain ⟨hhead, hcapture, hbody, harms⟩ := h
    rw [armsPieces]
    exact ((Prints.quiet (weaves_quiet.armOpening first hhead hcapture)).append
      (bodyPieces_prints (stmts_print hruntime body hbody))).append (arms_print hruntime false arms harms)

theorem prongs_print (hruntime : Quiet runtime) : ∀ arms : List Arm, armsTidy arms →
    Prints .code .code (prongsPieces runtime arms)
  | [], _ => by
    rw [prongsPieces]
    exact .nil
  | ⟨head, capture, body⟩ :: arms, h => by
    obtain ⟨hhead, hcapture, hbody, harms⟩ := h
    rw [prongsPieces]
    exact ((((Prints.quiet (weaves_quiet.prongOpening hhead hcapture)).append
      (bodyPieces_prints (stmts_print hruntime body hbody))).append (.glue_line (by decide))).append
        (prongs_print hruntime arms harms)).in_code
end

end Code

end ZigMarkup
