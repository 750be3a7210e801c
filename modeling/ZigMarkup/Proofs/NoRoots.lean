import ZigMarkup.Proofs.HostText
import ZigMarkup.Proofs.QuietNodes

/-!
Compiled files in which no template root is left. The code of a template is without one, begins
with a line that no token of the host text before it reaches across, and ends where host text
may go on; so is the file that is put together from both.
-/
namespace ZigMarkup

open Code Tree

/-- The host texts with a root right behind them. -/
def FileParts.beforeRoots (parts : FileParts) : List String :=
  (parts.first :: parts.roots.map (·.2)).dropLast

/-! ## The code of one template -/

/-- Code that may stand in the place of a root. -/
structure Stands (code : String) : Prop where
  leads : Leads .code .host (utf8 code)
  begins : BeginsLine (utf8 code)

theorem BeginsLine.append {code : Bytes} (h : BeginsLine code) (more : Bytes) :
    BeginsLine (code ++ more) := by
  obtain ⟨first, label, rest, rfl, hfirst, hglue⟩ := h
  exact ⟨first, label, rest ++ more, by simp, hfirst, hglue⟩

theorem Writer.exists_out_write (w : Writer) (piece : Piece) :
    ∃ text, (w.write piece).out = w.out ++ text := by
  cases piece with
  | text s =>
    rw [write]
    split
    · exact ⟨"", String.append_empty.symm⟩
    split
    · exact ⟨w.margin ++ s, String.append_assoc ..⟩
    · exact ⟨s, rfl⟩
  | newline => exact ⟨"\n", rfl⟩
  | indent | dedent => exact ⟨"", String.append_empty.symm⟩

theorem Writer.exists_out (w : Writer) (pieces : List Piece) :
    ∃ text, (w.writeAll pieces).out = w.out ++ text := by
  induction pieces generalizing w with
  | nil => exact ⟨"", String.append_empty.symm⟩
  | cons piece pieces ih =>
    obtain ⟨first, hfirst⟩ := w.exists_out_write piece
    obtain ⟨rest, hrest⟩ := ih (w.write piece)
    refine ⟨first ++ rest, ?_⟩
    rw [← String.append_assoc, ← hfirst, ← hrest]
    rfl

theorem Writer.out_line (base : String) (width : Nat) (s : String) :
    ((Writer.start base width).writeAll (line s)).out = s ++ "\n" := by
  simp only [writeAll, line, List.foldl_cons, List.foldl_nil, write]
  split
  · next hempty =>
    rw [String.isEmpty_iff.mp hempty]
    rfl
  · simp [start]

theorem glue_label (id : Nat) : ∃ rest,
    utf8 ((BlockLabel.block id).text ++ ": \x7b") = ascii '_' :: rest ∧
      ∀ b ∈ ascii '_' :: rest, isGlue b = true := by
  have hbytes : utf8 ((BlockLabel.block id).text ++ ": \x7b") =
      ascii '_' :: (utf8 "_zx_blk" ++ utf8 id.repr ++ utf8 ": \x7b") := by
    rw [utf8_append, BlockLabel.text, utf8_append]
    rfl
  refine ⟨_, hbytes, List.all_eq_true.mp ?_⟩
  rw [List.all_cons, List.all_append, List.all_append, glue_repr id]
  rfl

/-- The first line of a block is its label. -/
theorem beginsLine_layout (base : String) (width id : Nat) (allocator runtime : String)
    (body : List Stmt) :
    BeginsLine (utf8 (layout base width ((Expr.block id allocator body).pieces runtime))) := by
  obtain ⟨label, hlabel, hglue⟩ := glue_label id
  have hout : ∃ text, layout base width ((Expr.block id allocator body).pieces runtime) =
      (BlockLabel.block id).text ++ ": \x7b" ++ "\n" ++ text := by
    rw [← Writer.out_line base width, Expr.pieces, List.append_assoc, layout, Writer.writeAll,
      List.foldl_append]
    exact Writer.exists_out _ _
  obtain ⟨text, hout⟩ := hout
  refine ⟨ascii '_', label, utf8 text, ?_, by decide, hglue⟩
  rw [hout, utf8_append, utf8_append, hlabel, List.append_assoc]
  rfl

theorem stands_layout {runtime base allocator : String} (hruntime : Quiet runtime)
    (hbase : ∀ b ∈ utf8 base, isMarginByte b = true) (hallocator : Quiet allocator)
    {body : List Stmt} (hbody : stmtsTidy body) (width id : Nat) :
    Stands (layout base width ((Expr.block id allocator body).pieces runtime)) := by
  refine ⟨?_, beginsLine_layout ..⟩
  obtain ⟨text, hout, hleads⟩ := block_prints hruntime id hallocator
    (stmts_print hruntime body hbody) _ (Writer.blank_start hbase width)
  rw [layout, hout]
  exact hleads

theorem mapM_ofTemplate_tidy {templates : List Template}
    (h : ∀ template ∈ templates, Quiet template.allocator ∧ template.node.Everywhere Node.Tidy) :
    Makes (templates.mapM ofTemplate) fun codes => codes.length = templates.length ∧
      ∀ code ∈ codes, ∃ id allocator body,
        code = .block id allocator body ∧ Quiet allocator ∧ stmtsTidy body := by
  induction templates with
  | nil => exact .pure ⟨rfl, by simp⟩
  | cons template templates ih =>
    rw [List.forall_mem_cons] at h
    rw [List.mapM_cons]
    refine (ofTemplate_tidy h.1.2).bind fun code hcode => (ih h.2).bind fun codes hcodes => .pure ?_
    obtain ⟨id, body, rfl, hbody⟩ := hcode
    exact ⟨congrArg (· + 1) hcodes.1,
      List.forall_mem_cons.mpr ⟨⟨id, _, body, rfl, h.1.1, hbody⟩, hcodes.2⟩⟩

theorem margin_marginOf (before : String) : ∀ b ∈ utf8 (marginOf before), isMarginByte b = true := by
  intro b hb
  obtain ⟨c, hc, hb⟩ := List.mem_flatMap.mp hb
  rw [marginOf, String.toList_ofList] at hc
  have hmargin := List.all_eq_true.mp List.all_takeWhile c hc
  simp only [isMargin, Bool.or_eq_true, decide_eq_true_eq] at hmargin
  have hspace : (String.utf8EncodeChar ' ').all isMarginByte = true := by decide
  have htab : (String.utf8EncodeChar '\t').all isMarginByte = true := by decide
  rcases hmargin with rfl | rfl
  · exact List.all_eq_true.mp hspace b hb
  · exact List.all_eq_true.mp htab b hb

theorem margins_blank (parts : FileParts) :
    ∀ margin ∈ parts.margins, ∀ b ∈ utf8 margin, isMarginByte b = true := by
  suffices h : ∀ roots before, ∀ margin ∈ FileParts.marginsFrom before roots,
      ∀ b ∈ utf8 margin, isMarginByte b = true from h _ _
  intro roots
  induction roots with
  | nil => simp [FileParts.marginsFrom]
  | cons root roots ih =>
    intro before
    obtain ⟨text, host⟩ := root
    rw [FileParts.marginsFrom, List.forall_mem_cons]
    exact ⟨margin_marginOf before, ih _⟩

/-! ## The file -/

section File

variable {source : Bytes}

theorem replaced_root (text : String) (rest : FileParts) (code : String) (codes : List String) :
    (FileParts.mk "" ((text, rest.first) :: rest.roots)).replaced (code :: codes) =
      code ++ rest.replaced codes := by
  simp [FileParts.replaced, String.append_assoc]

theorem replaced_host (text : String) (rest : FileParts) (codes : List String) :
    (FileParts.mk (text ++ rest.first) rest.roots).replaced codes = text ++ rest.replaced codes := by
  simp [FileParts.replaced, String.append_assoc]

theorem beforeRoots_cons (first text : String) (rest : FileParts) :
    (FileParts.mk first ((text, rest.first) :: rest.roots)).beforeRoots =
      first :: rest.beforeRoots := by
  simp [FileParts.beforeRoots]

section Host

variable {start : Nat} {t : Tree} {ts : List Tree} (hkind : t.kind = .hostText)
  (hspelled : Spelled source t) (htiles : Tiles source.length start (t :: ts))

include hkind hspelled htiles

/-- The last host text is without a root. -/
theorem rootless_last (hlast : ¬ t.span.stop < source.length) :
    ts = [] ∧ Rootless (t.span.slice source) := by
  have hsplit := slice_append_drop source htiles.1 (Nat.le_of_lt htiles.2.1)
  have hle := le_of_tiles htiles.2.2
  have hstop : t.span.stop = source.length := by omega
  constructor
  · cases ts with
    | nil => rfl
    | cons u later =>
      have hlt := htiles.2.2.2.1
      have hle := le_of_tiles htiles.2.2.2.2
      omega
  · rw [hstop, List.drop_length, List.append_nil] at hsplit
    simp only [Spelled, hkind, if_neg hlast, htiles.1, hsplit] at hspelled
    exact hspelled

/-- All other host text goes on to a root. -/
theorem exists_root_behind (hparts : ∀ u ∈ ts, IsPart source u)
    (hlast : t.span.stop < source.length) :
    (source.drop t.span.stop).head? = some (ascii '(') ∧
      nextTemplate? (t.span.slice source ++ source.drop t.span.stop) =
        some (t.span.slice source).length ∧
      ∃ root later, ts = root :: later ∧ root.kind = .templateRoot := by
  obtain ⟨hstart, hstop, htail⟩ := htiles
  have hbegins := begins_behind hkind hspelled (by omega) hlast
  obtain ⟨post, hopen⟩ := exists_cons_of_beginsTemplate hbegins
  refine ⟨by rw [hopen]; rfl, ?_, ?_⟩
  · have hslice : (t.span.slice source).length = t.span.length := by
      rw [Span.slice, List.length_take, List.length_drop, Span.length]
      omega
    rw [← slice_append_drop source hstart (Nat.le_of_lt hstop), hslice]
    simpa only [Spelled, hkind, if_pos hlast, hstart] using hspelled
  cases ts with
  | nil =>
    have hend : t.span.stop = source.length := htail
    omega
  | cons u later =>
    cases hparts u (List.mem_cons_self ..) with
    | root hroot _ => exact ⟨u, later, rfl, hroot⟩
    | host hhost hspelled' =>
      -- Host text goes on to the next root, so it does not begin at one.
      have hfound : nextTemplate? (source.drop t.span.stop) = some 0 := by
        rw [hopen] at hbegins ⊢
        rw [nextTemplate?_cons, lexeme_of_isGlue (by decide)]
        exact if_pos hbegins
      simp only [Spelled, hhost, htail.1, hfound] at hspelled'
      have hlength : 0 < u.span.length := Nat.sub_pos_of_lt (htail.1 ▸ htail.2.1)
      split at hspelled'
      · rw [← Option.some.inj hspelled'] at hlength
        cases hlength
      · cases hspelled'

end Host

/-- A file is without a root when code stands in the place of each of its roots. -/
theorem rootless_replaced (ts : List Tree) : ∀ {start : Nat} {after : String} {codes : List String},
    (∀ t ∈ ts, IsPart source t) → Tiles source.length start ts → utf8 after = source.drop start →
    (∀ host ∈ (FileParts.ofTrees source ts).beforeRoots, ¬ EndsOpen (utf8 host)) →
    codes.length = (FileParts.ofTrees source ts).roots.length → (∀ code ∈ codes, Stands code) →
    Rootless (utf8 ((FileParts.ofTrees source ts).replaced codes)) := by
  -- From the last part back: code leads on to any rest without a root, and the tokens of host
  -- text are the same before the label of a block as they were before the root.
  induction ts with
  | nil =>
    intro start after codes _ _ _ _ hlength _
    obtain rfl : codes = [] := List.length_eq_zero_iff.mp hlength
    rfl
  | cons t ts ih =>
    intro start after codes hparts htiles hafter hopen hlength hcodes
    obtain ⟨behind, _, htext, hbehind⟩ := text_of_tile (hparts t (by simp)) htiles hafter
    rw [List.forall_mem_cons] at hparts
    cases hparts.1 with
    | root hkind _ =>
      rw [FileParts.ofTrees_root hkind] at hlength hopen ⊢
      cases codes with
      | nil => cases hlength
      | cons code codes =>
        rw [List.forall_mem_cons] at hcodes
        rw [beforeRoots_cons, List.forall_mem_cons] at hopen
        have hlater := ih hparts.2 htiles.2.2 hbehind hopen.2 (by simpa using hlength) hcodes.2
        rw [replaced_root, utf8_append]
        exact (hcodes.1.leads _ hlater).1
    | host hkind hspelled =>
      rw [FileParts.ofTrees_host hkind] at hlength hopen ⊢
      rw [replaced_host, utf8_append, htext]
      by_cases hlast : t.span.stop < source.length
      · obtain ⟨hhead, hfound, root, later, rfl, hroot⟩ :=
          exists_root_behind hkind hspelled htiles hparts.2 hlast
        rw [FileParts.ofTrees_root hroot] at ih hlength hopen ⊢
        rw [beforeRoots_cons, List.forall_mem_cons, String.append_empty, htext] at hopen
        have hlater := ih hparts.2 htiles.2.2 hbehind (by
          rw [beforeRoots_cons, List.forall_mem_cons]
          exact ⟨fun hend => (by cases hend.getLast?), hopen.2⟩) hlength hcodes
        refine rootless_host ?_ hhead hfound hopen.1 hlater
        cases codes with
        | nil => cases hlength
        | cons code codes =>
          rw [replaced_root, utf8_append]
          exact (hcodes code (List.mem_cons_self ..)).begins.append _
      · obtain ⟨rfl, hrootless⟩ := rootless_last hkind hspelled htiles hlast
        obtain rfl : codes = [] := List.length_eq_zero_iff.mp hlength
        simpa [FileParts.ofTrees, FileParts.replaced, utf8] using hrootless

end File

theorem rootless_ofSource {source : String} {templates : List Template}
    (h : templatesOf (utf8 source) (parse (utf8 source)) = .ok templates)
    (hhost : ∀ host ∈ (FileParts.ofSource source).beforeRoots, ¬ EndsOpen (utf8 host))
    {codes : List String} (hlength : codes.length = templates.length)
    (hcodes : ∀ code ∈ codes, Stands code) :
    Rootless (utf8 ((FileParts.ofSource source).replaced codes)) := by
  rw [← length_roots_of_templatesOf h] at hlength
  exact rootless_replaced _ (isPart_of_templatesOf h) (parse_tiles _) (rfl : utf8 source = _) hhost
    hlength hcodes

/-- A file without templates is its first host text. -/
theorem replaced_of_nil {source : String}
    (h : templatesOf (utf8 source) (parse (utf8 source)) = .ok []) :
    (FileParts.ofSource source).replaced [] = source := by
  have hroots := List.length_eq_zero_iff.mp (length_roots_of_templatesOf h)
  have htext : (FileParts.ofSource source).text = source :=
    ofTrees_text _ (isPart_of_templatesOf h) (parse_tiles _) rfl
  calc (FileParts.ofSource source).replaced []
      = (FileParts.ofSource source).text := by
        rw [FileParts.replaced, FileParts.text, hroots]
        rfl
    _ = source := htext

/-- An import in front of a file brings no root. -/
theorem leads_importLine {options : Options} (hruntime : Quiet options.runtime) :
    Leads .host .host (utf8 (importLine options)) := by
  have hend : Leads .line .host (utf8 ";\n") := by
    intro rest hrest
    have hline : Rootless (ascii '\n' :: rest) :=
      (rootless_of_plain rfl).mpr ⟨beginsTemplate_of_ne (by decide) rest, hrest⟩
    exact ⟨⟨(rootless_of_plain rfl).mpr ⟨beginsTemplate_of_ne (by decide) _, hline⟩,
      beginsTemplate_of_firm (by decide) (by decide) _⟩, hline⟩
  have hfront : Quiet ("const " ++ options.runtime ++ " = @import(" ++
      Literal.quoted options.runtimeModule ++ ")") :=
    ((((Steady.of_glue (by decide)).quiet.append hruntime).append
      (Steady.of_glue (by decide)).quiet).append (Steady.quoted _).quiet).append
        (Steady.of_glue (by decide)).quiet
  have hline : importLine options = "const " ++ options.runtime ++ " = @import(" ++
      Literal.quoted options.runtimeModule ++ ")" ++ ";\n" := by
    rw [importLine, show ");\n" = ")" ++ ";\n" by decide]
    simp only [String.append_assoc]
  rw [hline, utf8_append]
  exact fun rest hrest => (Leads.append hfront hend rest hrest).rootless

theorem stands_layoutAll {options : Options} (hruntime : Quiet options.runtime) (parts : FileParts)
    {codes : List Expr} (h : ∀ code ∈ codes, ∃ id allocator body,
      code = .block id allocator body ∧ Quiet allocator ∧ stmtsTidy body) :
    ∀ code ∈ layoutAll options parts.margins codes, Stands code := by
  intro text htext
  rw [layoutAll, ← List.map_uncurry_zip_eq_zipWith] at htext
  obtain ⟨⟨margin, code⟩, hpair, rfl⟩ := List.mem_map.mp htext
  obtain ⟨hmargin, hcode⟩ := List.of_mem_zip hpair
  obtain ⟨id, allocator, body, rfl, hallocator, hbody⟩ := h code hcode
  exact stands_layout hruntime (margins_blank parts margin hmargin) hallocator hbody _ id

/-- No template root is left in the code of a file, if what is copied into it brings none: the
runtime, the default allocator, and the host code of templates. Host text is copied too; where it
ends with an opening bracket before a root, the code for the root would go on with a name. -/
theorem no_root_left {options : Options} {source : String} {compiled : Compiled}
    (h : compile options source = .ok compiled) (hruntime : Quiet options.runtime)
    (hallocator : Quiet options.defaultAllocator) (hcode : ∀ code ∈ copiedCode source, Quiet code)
    (hhost : ∀ host ∈ (FileParts.ofSource source).beforeRoots, ¬ EndsOpen (utf8 host)) :
    nextTemplate? (utf8 compiled.code) = none := by
  obtain ⟨templates, codes, counter, htemplates, hrun, _, _, hnone, hsome⟩ := code_of_compile h
  by_cases hnil : templates = []
  · subst hnil
    rw [hnone rfl, ← replaced_of_nil htemplates]
    exact rootless_ofSource htemplates hhost rfl (by simp)
  · have hresolved : ∀ template ∈ templates.map (Template.resolve options.defaultAllocator),
        Quiet template.allocator ∧ template.node.Everywhere Node.Tidy := by
      intro template ht
      obtain ⟨original, horiginal, rfl⟩ := List.mem_map.mp ht
      have htidy := tidy_of_copiedCode hcode htemplates horiginal
      exact ⟨Node.quiet_rootAllocator htidy.here hallocator .html,
        Node.tidy_resolve _ .html hallocator htidy⟩
    have hmade := (mapM_ofTemplate_tidy hresolved).of_run hrun
    have hlength : (layoutAll options (FileParts.ofSource source).margins codes).length =
        templates.length := by
      rw [layoutAll, List.length_zipWith, FileParts.length_margins, hmade.1, List.length_map,
        length_roots_of_templatesOf htemplates, Nat.min_self]
    have hfile := rootless_ofSource htemplates hhost hlength
      (stands_layoutAll hruntime (FileParts.ofSource source) hmade.2)
    rw [hsome hnil]
    rcases addedImport_cases options (utf8 source) (parse (utf8 source)) with himport | himport
    · rw [himport, String.empty_append]
      exact hfile
    · rw [himport, utf8_append]
      exact leads_importLine hruntime _ hfile

/-- Roots in string literals, one of them in host code, and a comparison. -/
def literalSource : String :=
  "x = (<p title=\"(<b/>)\">\x7bif (a < b) (<i>\x7bshow(\"(<b/>)\")\x7d</i>)\x7d</p>);\n"

theorem quiet_literal : ∀ code ∈ ["(a < b)", "show(\"(<b/>)\")"], Quiet code := by
  have hless : Steady "< " := ⟨leads_comparison, by decide⟩
  simp only [List.forall_mem_cons, List.not_mem_nil, false_implies, implies_true, and_true]
  constructor
  · exact (((Steady.of_glue (s := "(a ") (by decide)).append hless).append
      (.of_glue (s := "b)") (by decide))).quiet
  · exact (((Steady.of_glue (s := "show(") (by decide)).append (.quoted "(<b/>)")).append
      (.of_glue (s := ")") (by decide))).quiet

theorem no_root_left_literal : ∃ compiled, compile {} literalSource = .ok compiled ∧
    nextTemplate? (utf8 compiled.code) = none := by
  have hcopied : copiedCode literalSource = ["(a < b)", "show(\"(<b/>)\")"] := by decide +kernel
  have hhost : ∀ host ∈ (FileParts.ofSource literalSource).beforeRoots, ¬ EndsOpen (utf8 host) := by
    have hbefore : (FileParts.ofSource literalSource).beforeRoots = ["x = "] := by decide +kernel
    rw [hbefore, List.forall_mem_singleton]
    exact fun hend => by cases hend.getLast?
  have hok : (compile {} literalSource).toBool = true := by decide +kernel
  obtain ⟨compiled, hcompile⟩ := Checked.exists_of_toBool hok
  exact ⟨compiled, hcompile, no_root_left hcompile (Steady.of_glue (by decide)).quiet
    (Steady.of_glue (by decide)).quiet (hcopied ▸ quiet_literal) hhost⟩

/-- Host code in braces is copied, so a root nested in it is left. -/
theorem nested_root_left : ∃ compiled, compile {} "(<p>\x7bwrap((<b/>))\x7d</p>)" = .ok compiled ∧
    nextTemplate? (utf8 (Options.runtime {})) = none ∧
    nextTemplate? (utf8 (Options.defaultAllocator {})) = none ∧
    nextTemplate? (utf8 compiled.code) ≠ none := by
  have hleft : ((compile {} "(<p>\x7bwrap((<b/>))\x7d</p>)").toOption.bind
      fun compiled => nextTemplate? (utf8 compiled.code)).isSome = true := by decide +kernel
  cases hcompile : compile {} "(<p>\x7bwrap((<b/>))\x7d</p>)" with
  | error =>
    rw [hcompile] at hleft
    cases hleft
  | ok compiled =>
    rw [hcompile] at hleft
    exact ⟨compiled, rfl, by decide, by decide, Option.isSome_iff_ne_none.mp hleft⟩

-- Host text and allocators make roots with the code around them in the same way.
example : ((compile {} "(<(<br/>))").toOption.bind
    fun compiled => nextTemplate? (utf8 compiled.code)).isSome = true := by decide +kernel

example : ((compile { defaultAllocator := "<b" } "(<br/>)").toOption.bind
    fun compiled => nextTemplate? (utf8 compiled.code)).isSome = true := by decide +kernel

end ZigMarkup
