import ZigMarkup.Proofs.GroupGrammar
import ZigMarkup.Proofs.HostPieces

/-!
What is left of host code when the blanks around it are taken away. Spreads, format arguments,
patterns and heads are refused when nothing is left of them, so they always show something. Braces
are only tested for ASCII blanks: where they hold other blanks and nothing else, an expression or
an attribute value is accepted of which nothing is left.
-/
namespace ZigMarkup

/-- Code with a character in it that is no blank. -/
def Visible (code : String) : Prop := ∃ c ∈ code.toList, isBlank c = false

instance (code : String) : Decidable (Visible code) :=
  inferInstanceAs (Decidable (∃ c ∈ code.toList, isBlank c = false))

/-- Code taken out of braces that hold more than ASCII blanks. It shows something if they do; if
they hold nothing but blanks, it is empty. -/
def TakenFrom (source : Bytes) (braces : Span) (code : String) : Prop :=
  ∃ inner : String, braces.slice source = utf8 ("\x7b" ++ inner ++ "\x7d") ∧
    (utf8 inner).all isAsciiBlank = false ∧
    (Visible code ∧ Visible inner ∨ code = "" ∧ ¬ Visible inner)

/-- The code of an attribute is visible, or taken from braces inside of the attribute. -/
def Attribute.Shows (source : Bytes) : Attribute → Prop
  | .static span _ (.expr code) | .builtin span _ code => Visible code ∨
      ∃ braces : Span, span.start ≤ braces.start ∧ braces.stop ≤ span.stop ∧
        TakenFrom source braces code
  | .static _ _ (.literal _) | .static _ _ (.node _) | .static _ _ .flag => True
  | .shorthand _ _ | .builtinShorthand _ _ => True
  | .spread _ code => Visible code
  | .formatted _ _ _ args => ∀ code ∈ args, Visible code

/-- The code of a node itself is visible, or taken from the braces that the node is. -/
def Node.Shows (source : Bytes) : Node → Prop
  | .element tag _ | .selfClosing tag => ∀ a ∈ tag.attributes, a.Shows source
  | .fragment _ _ | .text _ _ _ _ => True
  | .expr span code _ => TakenFrom source span code
  | .flow _ _ subject _ branches => (∀ code ∈ subject, Visible code) ∧
      ∀ branch ∈ branches, (∀ code ∈ branch.head, Visible code) ∧
        ∀ code ∈ branch.capture, Visible code

/-! ## What trimming leaves -/

variable {source : Bytes}

theorem not_visible_iff {code : String} : ¬ Visible code ↔ code.toList.all isBlank = true := by
  simp [Visible]

theorem visible_of_mem {code : String} {b : UInt8} (hb : b ∈ utf8 code)
    (hblank : isBlankByte b = false) : Visible code := by
  by_cases hvisible : Visible code
  · exact hvisible
  · have hall := List.all_eq_true.mp (not_visible_iff.mp hvisible)
    rw [isBlankByte_of_chars hall b hb] at hblank
    cases hblank

/-- What stands in a slice of the source between two texts. -/
theorem slice_between {a b : Nat} {front core back : Bytes} (hab : a ≤ b) (hb : b ≤ source.length)
    (hslice : Span.slice ⟨a, b⟩ source = front ++ core ++ back) :
    Span.slice ⟨a + front.length, b - back.length⟩ source = core := by
  have hlength : b - a = front.length + core.length + back.length := by
    rw [← Span.length_slice hab hb, hslice, List.length_append, List.length_append]
  calc Span.slice ⟨a + front.length, b - back.length⟩ source
      = ((Span.slice ⟨a, b⟩ source).drop front.length).take core.length := by
        simp only [Span.slice, Span.length]
        rw [List.drop_take, List.take_take, List.drop_drop]
        congr 1
        omega
    _ = core := by rw [hslice, List.append_assoc, List.drop_left, List.take_left]

theorem text_point (n : Nat) : (Span.point n).text source = "" := by
  rw [Span.text, Span.slice, Span.length, Span.point, Nat.sub_self, List.take_zero]
  decide

theorem trim_of_blank {s : String} (h : ¬ Visible s) : trim s = "" := by
  have hnone : trimStart s.toList = [] := by
    rw [trimStart, ← List.append_nil s.toList]
    exact List.dropWhile_append_of_pos (List.all_eq_true.mp (not_visible_iff.mp h))
  rw [trim, hnone]
  rfl

theorem visible_trim {s : String} (h : Visible s) : Visible (trim s) := by
  have hall : s.toList.all isBlank = false :=
    Bool.eq_false_iff.mpr fun hall => not_visible_iff.mpr hall h
  have hcore := (trim_parts hall).2
  rw [Visible, trim, String.toList_ofList]
  cases hlist : trimEnd (trimStart s.toList) with
  | nil =>
    rw [hlist] at hcore
    cases hcore
  | cons c core =>
    rw [hlist] at hcore
    exact ⟨c, by simp, by simpa using hcore⟩

/-- Cutting the blanks off both ends of a slice is trimming its text. -/
theorem text_trimmed {a b : Nat} {s : String} (hab : a ≤ b) (hb : b ≤ source.length)
    (hslice : Span.slice ⟨a, b⟩ source = utf8 s) :
    (Parser.trimmed ⟨a, source.drop a⟩ b).text source = trim s := by
  have hdecoded : decode ((source.drop a).take (b - a)) = s := by
    change decode (Span.slice ⟨a, b⟩ source) = s
    rw [hslice, decode_utf8]
  unfold Parser.trimmed
  simp only [hdecoded]
  by_cases hvisible : Visible s
  · have hall : s.toList.all isBlank = false :=
      Bool.eq_false_iff.mpr fun hall => not_visible_iff.mpr hall hvisible
    rw [if_neg (Bool.eq_false_iff.mp hall)]
    have hparts : Span.slice ⟨a, b⟩ source =
        (s.toList.takeWhile isBlank).flatMap String.utf8EncodeChar ++
          (trimEnd (trimStart s.toList)).flatMap String.utf8EncodeChar ++
          (s.toList.reverse.takeWhile isBlank).reverse.flatMap String.utf8EncodeChar := by
      rw [hslice, utf8, ← List.flatMap_append, ← List.flatMap_append, ← (trim_parts hall).1]
    have hleft := slice_between hab hb hparts
    rw [show List.length (List.flatMap _ (List.reverse _)) = _ from utf8Length_reverse _] at hleft
    rw [Span.text, trim, ← decode_utf8 (String.ofList _), utf8_ofList, ← hleft]
    rfl
  · rw [if_pos (not_visible_iff.mp hvisible), trim_of_blank hvisible]
    exact text_point a

/-- Trimming leaves something visible of what shows something, and nothing of the rest. -/
theorem trimmed_cases {a b : Nat} {s : String} (hab : a ≤ b) (hb : b ≤ source.length)
    (hslice : Span.slice ⟨a, b⟩ source = utf8 s) :
    Visible ((Parser.trimmed ⟨a, source.drop a⟩ b).text source) ∧ Visible s ∨
      (Parser.trimmed ⟨a, source.drop a⟩ b).text source = "" ∧ ¬ Visible s := by
  rw [text_trimmed hab hb hslice]
  by_cases hvisible : Visible s
  · exact .inl ⟨visible_trim hvisible, hvisible⟩
  · exact .inr ⟨trim_of_blank hvisible, hvisible⟩

theorem trimmed_of_blank {c : Cursor} {stop : Nat}
    (h : ¬ Visible (decode (c.rest.take (stop - c.pos)))) :
    Parser.trimmed c stop = .point c.pos :=
  if_pos (not_visible_iff.mp h)

theorem Tree.Solid.visible {code : Span} (h : Tree.Solid source code) :
    Visible (code.text source) := by
  obtain ⟨hsome, start, stop, hstop, rfl⟩ := h
  have hle := Nat.le_of_lt (Parser.trimmed_bounds hsome).1
  by_cases hshown : Visible (decode (Span.slice ⟨start, stop⟩ source))
  · rcases decode_cases (Span.slice ⟨start, stop⟩ source) with hempty | hbytes
    · rw [hempty] at hshown
      simp [Visible] at hshown
    · rcases trimmed_cases hle hstop hbytes.symm with ⟨hvisible, _⟩ | ⟨_, hnot⟩
      · exact hvisible
      · exact absurd hshown hnot
  · have hpoint : Parser.trimmed ⟨start, source.drop start⟩ stop = .point start :=
      trimmed_of_blank hshown
    rw [hpoint] at hsome
    simp [Span.isEmpty, Span.point] at hsome

/-! ## What braces hold -/

/-- Braces that are read end with the brace that matches. -/
theorem Tree.InBraces.closer {braces code : Span} (h : Tree.InBraces source braces code) :
    braces.start + 1 ≤ braces.stop - 1 ∧ source[braces.stop - 1]? = some (ascii '\x7d') := by
  obtain ⟨next, hread, hstop⟩ := h.group
  have hopener : OpenerAt source braces.start (ascii '\x7d') := ⟨_, h.opener, rfl⟩
  obtain ⟨stop, rfl, hgroup⟩ := hopener.group_of_read hread
  obtain rfl : stop = braces.stop := hstop
  exact hgroup.ends h.opener rfl

/-- One byte of the source. -/
theorem slice_byte {n : Nat} {b : UInt8} (h : source[n]? = some b) :
    Span.slice ⟨n, n + 1⟩ source = [b] := by
  obtain ⟨rest, hdrop⟩ := drop_of_getElem? h
  exact @Span.slice_of_drop source [b] rest n hdrop

/-- What stands between two braces is a text. -/
theorem exists_inner {a b : Nat} (htext : IsText source) (hab : a + 1 ≤ b - 1)
    (hopener : source[a]? = some (ascii '\x7b')) (hcloser : source[b - 1]? = some (ascii '\x7d')) :
    ∃ inner : String, Span.slice ⟨a + 1, b - 1⟩ source = utf8 inner ∧
      Span.slice ⟨a, b⟩ source = utf8 ("\x7b" ++ inner ++ "\x7d") := by
  have hstart := (Boundary.of_getElem? htext hopener (by decide)).2
  have hstop := (Boundary.of_getElem? htext hcloser (by decide)).1
  obtain ⟨inner, hinner⟩ := (⟨hab, hstart, hstop⟩ : Span.Cuts source ⟨a + 1, b - 1⟩).isText_slice
  refine ⟨inner, hinner, ?_⟩
  have hlast := slice_byte hcloser
  rw [Nat.sub_add_cancel (by omega)] at hlast
  calc Span.slice ⟨a, b⟩ source
      = Span.slice ⟨a, a + 1⟩ source ++
        (Span.slice ⟨a + 1, b - 1⟩ source ++ Span.slice ⟨b - 1, b⟩ source) := by
        rw [← Span.slice_append source hab (Nat.sub_le _ _),
          ← Span.slice_append source (Nat.le_succ _) (by omega)]
    _ = utf8 ("\x7b" ++ inner ++ "\x7d") := by
        rw [slice_byte hopener, hinner, hlast, utf8_append, utf8_append, List.append_assoc]
        rfl

/-- Host code in braces is the trimmed text between them. -/
theorem Tree.InBraces.takenFrom {braces code : Span} (htext : IsText source)
    (h : Tree.InBraces source braces code) : TakenFrom source braces (code.text source) := by
  obtain ⟨hle, hcloser⟩ := h.closer
  obtain ⟨inner, hinner, hbraces⟩ := exists_inner htext hle h.opener hcloser
  refine ⟨inner, hbraces, ?_, ?_⟩
  · cases hblank : (utf8 inner).all isAsciiBlank with
    | false => rfl
    | true =>
      -- Behind ASCII blanks the scanner would have found the closing brace.
      obtain ⟨rest, hclosing⟩ := drop_of_getElem? hcloser
      have hbehind : (Cursor.mk (braces.start + 1) (source.drop (braces.start + 1))).skipBlanks =
          ⟨braces.start + 1 + (utf8 inner).length, ascii '\x7d' :: rest⟩ := by
        rw [Span.drop_start ⟨_, _⟩ source hle, hinner, hclosing]
        exact Surface.skipWhile_append (List.all_eq_true.mp hblank)
          (Surface.stops_cons.mpr (by decide)) _
      have hnot := h.inside
      rw [hbehind] at hnot
      cases hnot
  · rw [h.cut]
    exact trimmed_cases hle (Nat.le_of_lt (List.getElem?_eq_some_iff.mp hcloser).1) hinner

namespace OfTree

open Tree

/-- A tree whose host code is cut out of the source at boundaries and in the order of the source. -/
structure Placed (source : Bytes) (t : Tree) : Prop extends Grounded source t where
  filled : Filled source t
  laid : Laid source t

theorem visible_of_head {t : Tree} {b : UInt8} (h : Sited source t)
    (hhead : (t.span.slice source).head? = some b) (hb : isBlankByte b = false) :
    Visible (t.text source) := by
  refine visible_of_mem ?_ hb
  rw [utf8_text h]
  exact List.mem_of_head? hhead

section Lowering

variable (htext : IsText source)

include htext

/-- The value of an attribute is a name with a dot, or taken from braces in the attribute. -/
theorem shows_exprValue {a value code : Tree} (hs : a.Everywhere (Placed source))
    (hvalue : value ∈ a.children) (hkind : value.kind = .exprValue) (hcode : code ∈ value.children)
    (hhost : code.kind = .hostExpr) : Visible (code.text source) ∨ ∃ braces : Span,
      a.span.start ≤ braces.start ∧ braces.stop ≤ a.span.stop ∧
        TakenFrom source braces (code.text source) := by
  have hplaced := (hs.child hvalue).here
  have hfilled := hplaced.filled
  rw [Filled, hkind] at hfilled
  rcases hfilled code hcode hhost with hbraces | hdot
  · obtain ⟨hstart, hstop⟩ := hs.here.laid.row.le.2 value hvalue
    exact .inr ⟨value.span, hstart, hstop, hbraces.takenFrom htext⟩
  · exact .inl (visible_of_head ((hs.child hvalue).child hcode).here.sited hdot (by decide))

theorem shows_attributeOf {t : Tree} {a : Attribute} (hs : t.Everywhere (Placed source))
    (h : attributeOf source t = .ok a) : a.Shows source := by
  cases attributeRead (fun u hu => (hs u hu).legible.1) h with
  | expr _ hvalue hkind hcode hhost => exact shows_exprValue htext hs hvalue hkind hcode hhost
  | formatted _ hvalue hkind =>
    have hfilled := (hs.child hvalue).here.filled
    rw [Filled, hkind] at hfilled
    intro code hcode
    obtain ⟨expr, hexpr, rfl⟩ := List.mem_map.mp hcode
    obtain ⟨hchild, hhost⟩ := List.mem_filter.mp hexpr
    exact (hfilled expr hchild (by simpa using hhost)).visible
  | spread hkind hcode hhost =>
    have hfilled := hs.here.filled
    rw [Filled, hkind] at hfilled
    exact (hfilled _ hcode hhost).visible
  | builtin hvalue hmade =>
    rcases (builtinValueOf_cases hmade).2 with ⟨hkind, rfl⟩ | ⟨hkind, code, hcode, hhost, rfl⟩
    · have hplaced := (hs.child hvalue).here
      have hstring := hplaced.legible.2
      rw [Spelled, hkind] at hstring
      exact .inl (visible_of_head hplaced.sited hstring.1 (by decide))
    · exact shows_exprValue htext hs hvalue hkind hcode hhost
  | _ => trivial

theorem shows_tagOf {span : Span} {ts : List Tree} {tag : Tag}
    (hs : ∀ t ∈ ts, t.Everywhere (Placed source)) (h : tagOf source span ts = .ok tag) :
    ∀ a ∈ tag.attributes, a.Shows source := by
  intro a ha
  obtain ⟨t, ht, hmade⟩ := exists_of_mem_tagOf h ha
  exact shows_attributeOf htext (hs t ht) hmade

end Lowering

theorem visible_header {ts : List Tree} {code : String} (hs : ∀ t ∈ ts, Placed source t)
    (h : childText? source .header ts = some code) : Visible code := by
  obtain ⟨t, ht, hkind, rfl⟩ := exists_of_childText? h
  have hfilled := (hs t ht).filled
  rw [Filled, hkind] at hfilled
  exact visible_of_head (hs t ht).sited hfilled (by decide)

theorem visible_headOf? {ts : List Tree} {code : String} (hs : ∀ t ∈ ts, Placed source t)
    (h : headOf? source ts = some code) : Visible code := by
  unfold headOf? at h
  cases hheader : childText? source .header ts with
  | some text =>
    rw [hheader] at h
    cases h
    exact visible_header hs hheader
  | none =>
    rw [hheader] at h
    obtain ⟨t, ht, hkind, rfl⟩ := exists_of_childText? h
    have hfilled := (hs t ht).filled
    rw [Filled, hkind] at hfilled
    exact hfilled.visible

theorem visible_capture {ts : List Tree} {code : String} (hs : ∀ t ∈ ts, Placed source t)
    (h : childText? source .capture ts = some code) : Visible code := by
  obtain ⟨t, ht, hkind, rfl⟩ := exists_of_childText? h
  have hheld := (hs t ht).sited.held
  rw [Held, hkind] at hheld
  obtain ⟨inner, hinner, _⟩ := hheld
  have hbar : (t.span.slice source).head? = some (ascii '|') := by
    rw [hinner]
    rfl
  exact visible_of_head (hs t ht).sited hbar (by decide)

theorem reads_shows (htext : IsText source) :
    Reads source (Placed source) (Node.Shows source) where
  shaped h := h.legible.1
  element _ _ hs h := shows_tagOf htext (fun _ hc => hs.child hc) h
  selfClosing _ hs h := shows_tagOf htext (fun _ hc => hs.child hc) h
  fragment _ _ := trivial
  expr _ hkind ht hhost hs := by
    have hfilled := hs.here.filled
    rw [Filled, hkind] at hfilled
    exact (hfilled _ ht hhost).takenFrom htext
  text _ _ _ _ := trivial
  flow {t flow branches} _ hs h := by
    refine ⟨fun code hcode => ?_, fun branch hbranch => ?_⟩
    · split at hcode
      · exact visible_header (fun c hc => (hs.child hc).here) hcode
      · cases hcode
    · obtain ⟨b, hb, hhead, hcapture, _⟩ := exists_of_mem_branchesOf h hbranch
      have hparts : ∀ c ∈ b.children, Placed source c := fun c hc => ((hs.child hb).child hc).here
      exact ⟨fun code hcode => visible_headOf? hparts (hhead ▸ hcode),
        fun code hcode => visible_capture hparts (hcapture ▸ hcode)⟩

end OfTree

/-- What was accepted was read without errors. -/
theorem clean_of_templatesOf {file : Tree} {templates : List Template}
    (h : templatesOf source file = .ok templates) : file.Clean := by
  unfold templatesOf at h
  split at h
  · cases h
  · next hnone => exact Tree.clean_of_errors hnone

/-- In every accepted template, spreads, format arguments, subjects, heads, patterns and captures
show something. So do expressions, attribute values and values of builtins, unless they come from
braces that hold blanks only, some of them beyond ASCII; then they are empty. -/
theorem host_code_shows {source : String} {templates : List Template}
    (h : templatesOf (utf8 source) (parse (utf8 source)) = .ok templates) {template : Template}
    (ht : template ∈ templates) {node : Node} (hnode : node.Within template.node) :
    node.Shows (utf8 source) := by
  have htext : IsText (utf8 source) := ⟨source, rfl⟩
  have hlaid := parse_laid htext (clean_of_templatesOf h)
  have hparse : (parse (utf8 source)).Everywhere (OfTree.Placed (utf8 source)) := fun t ht =>
    ⟨⟨⟨parse_shaped _ t ht, parse_spells _ t ht⟩, parse_sited htext t ht⟩,
      (parse_noted _ t ht).filled, hlaid t ht⟩
  exact everywhere_of_templatesOf (OfTree.reads_shows htext) hparse h ht node hnode

/-- The span and the code of an expression. -/
def Node.expr? : Node → Option (Span × String)
  | .expr span code _ => some (span, code)
  | _ => none

theorem Node.eq_of_expr? {node : Node} {span : Span} {code : String}
    (h : node.expr? = some (span, code)) : ∃ mode, node = .expr span code mode := by
  cases node with
  | expr exprSpan exprCode mode =>
    cases h
    exact ⟨mode, rfl⟩
  | _ => cases h

/-- A vertical tab and a no-break space in braces. -/
def hollowSource : String := "(<p \x7b..y\x7d title=\x7b\u00a0\x7d>\x7b\x0b\x7d</p>)"

theorem host_code_shows_hollow : ∃ (templates : List Template) (template : Template)
    (mode : Escaping), templatesOf (utf8 hollowSource) (parse (utf8 hollowSource)) = .ok templates ∧
    template ∈ templates ∧ template.node.Shows (utf8 hollowSource) ∧
    template.node.hostPieces = [⟨.spread, "y"⟩, ⟨.value, ""⟩] ∧
    (Node.expr ⟨21, 24⟩ "" mode).Within template.node ∧
    TakenFrom (utf8 hollowSource) ⟨21, 24⟩ "" ∧ ¬ Visible "" := by
  have hread : ((templatesOf (utf8 hollowSource) (parse (utf8 hollowSource))).toOption.map
      fun templates => templates.map fun template =>
        (template.node.hostPieces, template.node.parts.filterMap Node.expr?)) =
      some [([⟨.spread, "y"⟩, ⟨.value, ""⟩], [(⟨21, 24⟩, "")])] := by
    decide +kernel
  have hbool : (templatesOf (utf8 hollowSource) (parse (utf8 hollowSource))).toBool = true := by
    decide +kernel
  obtain ⟨templates, hok⟩ := Checked.exists_of_toBool hbool
  rw [hok] at hread
  obtain ⟨template, ht, hpieces⟩ := List.mem_map.mp
    (Option.some.inj hread ▸ List.mem_singleton_self _)
  obtain ⟨hown, hparts⟩ := Prod.mk.inj hpieces
  obtain ⟨node, hpart, hnode⟩ := List.mem_filterMap.mp (hparts ▸ List.mem_singleton_self _)
  obtain ⟨mode, rfl⟩ := Node.eq_of_expr? hnode
  have hwithin := Node.Within.part hpart (.refl _)
  exact ⟨templates, template, mode, hok, ht, host_code_shows hok ht (.refl _), hown, hwithin,
    host_code_shows hok ht hwithin, by simp [Visible]⟩

end ZigMarkup
