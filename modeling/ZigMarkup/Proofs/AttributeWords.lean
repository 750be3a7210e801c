import ZigMarkup.Proofs.Shifting
import ZigMarkup.Proofs.Termination
import ZigMarkup.Proofs.Surface.Grammar

/-!
Attributes as they may be written in a tag: a name or a builtin with or without a value, a name in
braces, a spread expression. What is quoted or stands in braces or backquotes ends by itself,
whatever follows. Wherever an attribute stands, it is read as one node over its own text.
-/
namespace ZigMarkup.Words

open ScanM Parser Surface

/-- Host code in braces behind `lead`, with the blanks around it. The braces end where this text
does, whatever follows. -/
structure Enclosed (lead : String) where
  front : String
  core : String
  back : String
  frontBlank : ∀ c ∈ front.toList, isBlank c = true
  backBlank : ∀ c ∈ back.toList, isBlank c = true
  tight : Tight core
  closed : ∀ after : String,
    groupLength (utf8 ("\x7b" ++ lead ++ front ++ core ++ back ++ "\x7d") ++ utf8 after) =
      .ok (width ("\x7b" ++ lead ++ front ++ core ++ back ++ "\x7d"))

/-- Braces in the place of a value: at the beginning of a source they are read without errors,
and up to their own end, whatever follows. -/
structure Braces where
  text : String
  tree : Tree
  opened : (utf8 text).head? = some (ascii '\x7b')
  clean : Clean tree
  whole : ∀ after : String,
    (nested (width (text ++ after) + 1)).braces .exprValue ⟨0, utf8 (text ++ after)⟩ =
      .ok tree ⟨width text, utf8 after⟩

/-- Braces of the grammar are of this kind. -/
def Braces.ofSurface (b : Surface.Braces) : Braces where
  text := b.text
  tree := b.tree .exprValue 0
  opened := b.head
  clean := b.tree_clean (by decide) 0
  whole after := by
    have hsize : width b.text ≤ width (b.text ++ after) + 1 := by
      rw [width_append]
      omega
    rw [utf8_append, (nested_reads _).braces b .exprValue 0 (utf8 after) hsize, Nat.zero_add]

/-- The expressions of a template string, each with the text behind it. -/
abbrev Holes := List (Enclosed "" × Option Literal)

inductive Value where
  | string (quoted : Quoted)
  | enum (ident : Ident)
  | braces (braces : Braces)
  | template (first? : Option Literal) (holes : Holes)

/-- An equals sign and a value, with the gaps before and behind the sign. -/
structure Assigned where
  before : Gap
  after : Gap
  value : Value

inductive Attr where
  | named (name : Name) (value? : Option Assigned)
  | builtin (ident : Ident) (value? : Option Assigned)
  | shorthand (before : Gap) (ident : Ident) (after : Gap)
  | builtinShorthand (before : Gap) (ident : Ident) (after : Gap)
  | spread (before : Gap) (code : Enclosed (before.text ++ ".."))

/-! ## What is written -/

def Enclosed.text {lead : String} (e : Enclosed lead) : String :=
  "\x7b" ++ lead ++ e.front ++ e.core ++ e.back ++ "\x7d"

def holesText : Holes → String
  | [] => ""
  | (hole, literal?) :: rest => hole.text ++ literalText literal? ++ holesText rest

def Value.text : Value → String
  | .string quoted => quoted.text
  | .enum ident => ident.literal
  | .braces b => b.text
  | .template first? holes => "\x60" ++ literalText first? ++ holesText holes ++ "\x60"

def assignedText : Option Assigned → String
  | none => ""
  | some a => a.before.text ++ "=" ++ a.after.text ++ a.value.text

def Attr.text : Attr → String
  | .named name value? => name.text ++ assignedText value?
  | .builtin ident value? => "@" ++ ident.text ++ assignedText value?
  | .shorthand before ident after => "\x7b" ++ before.text ++ ident.text ++ after.text ++ "\x7d"
  | .builtinShorthand before ident after =>
    "\x7b" ++ before.text ++ "@" ++ ident.text ++ after.text ++ "\x7d"
  | .spread _ code => code.text

/-! ## What it stands for -/

def Enclosed.tree (pos : Nat) {lead : String} (e : Enclosed lead) : Tree :=
  leafAt .hostExpr (pos + width ("\x7b" ++ lead ++ e.front)) e.core

def holesTrees (pos : Nat) : Holes → List Tree
  | [] => []
  | (hole, literal?) :: rest =>
    hole.tree pos :: (literalTrees (pos + width hole.text) literal? ++
      holesTrees (pos + width (hole.text ++ literalText literal?)) rest)

def Value.tree (pos : Nat) : Value → Tree
  | .string quoted => leafAt .stringValue pos quoted.text
  | .enum ident => nodeAt .exprValue pos ident.literal [leafAt .hostExpr pos ident.literal]
  | .braces b => b.tree.shift pos
  | .template first? holes =>
    nodeAt .templateString pos (Value.template first? holes).text
      (literalTrees (pos + width "\x60") first? ++
        holesTrees (pos + width ("\x60" ++ literalText first?)) holes)

def assignedTree? (pos : Nat) : Option Assigned → Option Tree
  | none => none
  | some a => some (a.value.tree (pos + width (a.before.text ++ "=" ++ a.after.text)))

def Attr.tree (pos : Nat) : Attr → Tree
  | .named name value? =>
    nodeAt .staticAttribute pos (Attr.named name value?).text
      (leafAt .attrName pos name.text :: (assignedTree? (pos + width name.text) value?).toList)
  | .builtin ident value? =>
    nodeAt .builtinAttribute pos (Attr.builtin ident value?).text
      (leafAt .attrName (pos + 1) ident.text ::
        (assignedTree? (pos + width "@" + width ident.text) value?).toList)
  | .shorthand before ident after =>
    nodeAt .shorthandAttribute pos (Attr.shorthand before ident after).text
      [leafAt .attrName (pos + width ("\x7b" ++ before.text)) ident.text]
  | .builtinShorthand before ident after =>
    nodeAt .builtinShorthandAttribute pos (Attr.builtinShorthand before ident after).text
      [leafAt .attrName (pos + width ("\x7b" ++ before.text ++ "@")) ident.text]
  | .spread before code =>
    nodeAt .spreadAttribute pos (Attr.spread before code).text [code.tree pos]

theorem clean_shift {t : Tree} (h : Clean t) (k : Nat) : Clean (t.shift k) := by
  intro u hu
  rw [Tree.preorder_shift] at hu
  obtain ⟨v, hv, rfl⟩ := List.mem_map.mp hu
  rw [Tree.shift_kind]
  exact h v hv

theorem holesTrees_clean (holes : Holes) (pos : Nat) : CleanAll (holesTrees pos holes) := by
  induction holes generalizing pos with
  | nil => exact cleanAll_nil
  | cons hole rest ih => simp [holesTrees, Enclosed.tree, ih]

theorem Value.tree_clean (value : Value) (pos : Nat) : Clean (value.tree pos) := by
  cases value with
  | braces braces => exact clean_shift braces.clean pos
  | template first? holes => simp [Value.tree, holesTrees_clean]
  | _ => simp [Value.tree]

theorem assignedTree?_clean (value? : Option Assigned) (pos : Nat) :
    CleanAll (assignedTree? pos value?).toList := by
  cases value? with
  | none => exact cleanAll_nil
  | some a => simp [assignedTree?, a.value.tree_clean]

theorem Attr.tree_clean (a : Attr) (pos : Nat) : Clean (a.tree pos) := by
  cases a <;> simp [Attr.tree, assignedTree?_clean, Enclosed.tree]

/-! ## How it is read -/

section Reading

variable {depth : Nat} {after : String}

theorem Enclosed.group {lead : String} (e : Enclosed lead) (pos : Nat) (after : String) :
    ScanM.group ⟨pos, utf8 e.text ++ utf8 after⟩ = .ok () ⟨pos + width e.text, utf8 after⟩ :=
  read_of_ok (e.closed after) pos

theorem templatePiece_hole (opening : Cursor) (hole : Enclosed "") (pos : Nat) (after : String) :
    templatePiece opening ⟨pos, utf8 hole.text ++ utf8 after⟩ =
      .ok (some (hole.tree pos, none)) ⟨pos + width hole.text, utf8 after⟩ := by
  have hgroup := hole.group pos after
  simp only [Enclosed.text, Enclosed.tree, String.append_empty] at hgroup ⊢
  exact templatePiece_of_group opening hole.frontBlank hole.backBlank hole.tight hgroup

theorem Enclosed.head {lead : String} (e : Enclosed lead) :
    (utf8 e.text).head? = some (ascii '\x7b') := by
  simp [Enclosed.text, utf8_append]

theorem stops_holes (holes : Holes) (tail : Bytes) :
    Stops (fun b => b != ascii '\x60' && b != ascii '\x7b')
      (utf8 (holesText holes) ++ (utf8 "\x60" ++ tail)) := by
  cases holes with
  | nil => simp [holesText]
  | cons hole rest => simp [holesText, Enclosed.text, utf8_append]

theorem steps_holes (opening : Cursor) (holes : Holes) (pos : Nat) (after : String) :
    Steps (templatePiece opening) ⟨pos, utf8 (holesText holes) ++ (utf8 "\x60" ++ utf8 after)⟩
      ((holesTrees pos holes).map (·, none))
      ⟨pos + width (holesText holes), utf8 "\x60" ++ utf8 after⟩ := by
  induction holes generalizing pos with
  | nil => exact .done rfl
  | cons pair rest ih =>
    obtain ⟨hole, literal?⟩ := pair
    have hpiece := templatePiece_hole opening hole pos
      (literalText literal? ++ (holesText rest ++ ("\x60" ++ after)))
    have hrest := steps_literal opening literal? (stops_holes rest (utf8 after))
      (ih (pos + width hole.text + width (literalText literal?)))
    have hlength := length_pos_of_head hole.head
    simp only [holesText, utf8_append, List.append_assoc, holesTrees, List.map_cons] at hpiece ⊢
    simp only [width_append, Nat.add_assoc] at hpiece hrest ⊢
    refine .more hpiece ?_ hrest
    simp only [List.length_append]
    omega

/-- Braces are read as at the beginning of a source, wherever they stand. -/
theorem Braces.read (b : Braces) (hdepth : width (b.text ++ after) < depth) (pos : Nat) :
    (nested depth).braces .exprValue ⟨pos, utf8 b.text ++ utf8 after⟩ =
      .ok (b.tree.shift pos) ⟨pos + width b.text, utf8 after⟩ := by
  obtain ⟨more, hmore⟩ := List.head?_eq_some_iff.mp b.opened
  have hopened : utf8 (b.text ++ after) = ascii '\x7b' :: (more ++ utf8 after) := by
    rw [utf8_append, hmore, List.cons_append]
  -- The depth is of no account, as long as the whole text fits; nor is the position.
  have hagree := agree_levels (utf8 (b.text ++ after)) (nested 0) (width (b.text ++ after) + 1)
    depth 0 (by unfold width; omega) (by unfold width at hdepth; omega)
  rw [← nested_eq_levels] at hagree
  have hsame := hagree.braces .exprValue 0 _ (Nat.le_refl 0) (.zero ⟨_, rfl⟩) hopened
  have hstart : (nested depth).braces .exprValue ⟨0, utf8 (b.text ++ after)⟩ =
      .ok b.tree ⟨width b.text, utf8 after⟩ := hsame.symm.trans (b.whole after)
  have hshift : (nested depth).braces .exprValue (Cursor.shift pos ⟨0, utf8 (b.text ++ after)⟩) =
      shiftResult pos (Tree.shift pos) _ :=
    (nested_shifts pos depth).braces .exprValue ⟨0, utf8 (b.text ++ after)⟩
  rw [hstart, Cursor.shift, Nat.zero_add, utf8_append] at hshift
  rw [hshift, shiftResult, Cursor.shift, Nat.add_comm]

theorem Value.read (value : Value) (hdepth : width (value.text ++ after) < depth)
    (hrest : Stops isIdentByte (utf8 after)) (pos : Nat) :
    attributeValue (nested depth) ⟨pos, utf8 value.text ++ utf8 after⟩ =
      .ok (value.tree pos) ⟨pos + width value.text, utf8 after⟩ := by
  have hsize : width value.text ≤ depth := by
    rw [width_append] at hdepth
    omega
  cases value with
  | string quoted =>
    exact attributeValue_append (nested_reads depth) (.string quoted) hsize hrest pos
  | enum ident => exact attributeValue_append (nested_reads depth) (.enum ident) hsize hrest pos
  | braces braces =>
    simp only [Value.text, Value.tree] at hdepth ⊢
    unfold attributeValue
    rw [bind_get, peek_append braces.opened, if_neg (by decide), if_pos rfl, braces.read hdepth]
  | template first? holes =>
    have hhead : (utf8 (Value.template first? holes).text).head? = some (ascii '\x60') := by
      simp [Value.text, utf8_append]
    have hsteps := fun opening => steps_literal opening first? (stops_holes holes (utf8 after))
      (steps_holes opening holes (pos + width "\x60" + width (literalText first?)) after)
    unfold attributeValue
    rw [bind_get, peek_append hhead, if_neg (by decide), if_neg (by decide), if_pos rfl]
    simp only [Value.text, utf8_append, List.append_assoc]
    rw [templateString_of_steps (hsteps _)]
    simp only [Value.tree, Value.text, nodeAt, spanAt, width_append, Nat.add_assoc]

theorem Value.stops_blank (value : Value) (rest : Bytes) :
    Stops isAsciiBlank (utf8 value.text ++ rest) := by
  cases value with
  | string quoted => exact (Surface.Value.string quoted).stops_blank rest
  | enum ident => exact (Surface.Value.enum ident).stops_blank rest
  | braces braces =>
    exact stops_of_head (p := (· == ascii '\x7b')) (by simp [Value.text, braces.opened])
      (fun b hb => by obtain rfl := beq_iff_eq.mp hb; decide) rest
  | template first? holes =>
    simp [Value.text, utf8_append]
    decide

theorem assigned_read (value? : Option Assigned)
    (hdepth : width (assignedText value? ++ after) < depth) (hrest : EndsAttr (utf8 after))
    (pos : Nat) :
    attributeValue? (nested depth) ⟨pos, utf8 (assignedText value?) ++ utf8 after⟩ =
      .ok (assignedTree? pos value?) ⟨pos + width (assignedText value?), utf8 after⟩ := by
  cases value? with
  | none => exact attributeValue?_none (nested depth) hrest pos
  | some a =>
    have hsize : width (a.value.text ++ after) < depth := by
      simp only [assignedText, width_append] at hdepth ⊢
      omega
    have hvalue := a.value.read hsize hrest.ident
      (pos + width (a.before.text ++ "=" ++ a.after.text))
    simp only [assignedText, utf8_append, List.append_assoc]
    rw [attributeValue?_of_value a.before a.after (a.value.stops_blank _) hvalue, assignedTree?,
      width_append _ a.value.text, Nat.add_assoc]

theorem stops_assigned (value? : Option Assigned) {p : UInt8 → Bool}
    (hblank : ∀ b, isAsciiBlank b = true → p b = false) (hequals : p (ascii '=') = false)
    {rest : Bytes} (hrest : Stops p rest) : Stops p (utf8 (assignedText value?) ++ rest) := by
  cases value? with
  | none => exact hrest
  | some a =>
    simp only [assignedText, utf8_append, List.append_assoc]
    exact stops_of_blank hblank a.before (by simpa using hequals)

theorem attr_spread (g : Nested) (before : Gap) (code : Enclosed (before.text ++ "..")) (pos : Nat)
    (after : String) :
    attr g ⟨pos, utf8 code.text ++ utf8 after⟩ =
      .ok ((Attr.spread before code).tree pos) ⟨pos + width code.text, utf8 after⟩ := by
  have htext : code.text =
      "\x7b" ++ before.text ++ ".." ++ code.front ++ code.core ++ code.back ++ "\x7d" := by
    simp only [Enclosed.text, String.append_assoc]
  have hgroup := code.group pos after
  rw [htext] at hgroup
  have hspread := spread_of_group before code.frontBlank code.backBlank code.tight hgroup
  have hopen : utf8 code.text ++ utf8 after = utf8 "\x7b" ++
      (utf8 before.text ++ (utf8 ".." ++ (utf8 code.front ++
        (utf8 code.core ++ (utf8 code.back ++ (utf8 "\x7d" ++ utf8 after)))))) := by
    simp only [htext, utf8_append, List.append_assoc]
  rw [← htext, hopen] at hspread
  rw [attr_braced g code.head, hopen, bracedAttribute_of_spread before hspread]
  simp only [Attr.tree, Attr.text, Enclosed.tree, String.append_assoc]

/-- An attribute is read as what it stands for, up to its own end. -/
theorem Attr.read (a : Attr) (hdepth : width (a.text ++ after) < depth)
    (hrest : EndsAttr (utf8 after)) (pos : Nat) :
    attr (nested depth) ⟨pos, utf8 a.text ++ utf8 after⟩ =
      .ok (a.tree pos) ⟨pos + width a.text, utf8 after⟩ := by
  cases a with
  | named name value? =>
    have hname := stops_assigned value? not_nameByte_of_blank (by decide) hrest.name
    have hsize : width (assignedText value? ++ after) < depth := by
      simp only [Attr.text, width_append] at hdepth ⊢
      omega
    have hvalue := assigned_read value? hsize hrest (pos + width name.text)
    simp only [Attr.text, utf8_append, List.append_assoc]
    rw [attr_named _ name hname pos hvalue]
    simp only [Attr.tree, Attr.text, nodeAt, spanAt, width_append, Nat.add_assoc]
  | builtin ident value? =>
    have hident := stops_assigned value? not_identByte_of_blank (by decide) hrest.ident
    have hsize : width (assignedText value? ++ after) < depth := by
      simp only [Attr.text, width_append] at hdepth ⊢
      omega
    have hvalue := assigned_read value? hsize hrest (pos + width "@" + width ident.text)
    simp only [Attr.text, utf8_append, List.append_assoc]
    rw [attr_at _ ident hident pos hvalue]
    simp only [Attr.tree, Attr.text, nodeAt, spanAt, width_append, Nat.add_assoc]
  | shorthand before ident gap =>
    rw [attr_braced _ (by simp [Attr.text, utf8_append])]
    exact bracedAttribute_shorthand before gap ident pos (utf8 after)
  | builtinShorthand before ident gap =>
    rw [attr_braced _ (by simp [Attr.text, utf8_append])]
    exact bracedAttribute_at before gap ident pos (utf8 after)
  | spread before code => exact attr_spread (nested depth) before code pos after

end Reading

theorem Attr.head (a : Attr) : (utf8 a.text).head?.any isAttrStart := by
  cases a with
  | named name value? =>
    obtain ⟨b, hhead, hb⟩ := (Option.any_eq_true ..).mp name.head
    rw [Attr.text, utf8_append, List.head?_append, hhead]
    simp [isAttrStart, hb]
  | spread before code =>
    rw [Attr.text, code.head]
    decide
  | _ =>
    simp [Attr.text, utf8_append]
    decide

end ZigMarkup.Words
