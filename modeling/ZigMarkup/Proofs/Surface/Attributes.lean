import ZigMarkup.Proofs.Surface.HostCode

/-!
How the attributes of a tag are read, up to the gap before the end of the tag. Braces in the
place of a value are read by the nested productions, which are taken to read everything up to
some size.
-/
namespace ZigMarkup.Surface

open ScanM Parser

/-- Markup and braces of at most this size are read as what they are. -/
structure Reads (g : Nested) (size : Nat) : Prop where
  tag : ∀ (markup : Markup) (pos : Nat) (rest : Bytes), width markup.text ≤ size →
    g.tag ⟨pos, utf8 markup.text ++ rest⟩ =
      .ok (markup.tree pos) ⟨pos + width markup.text, rest⟩
  braces : ∀ (braces : Braces) (kind : Kind) (pos : Nat) (rest : Bytes),
    width braces.text ≤ size → g.braces kind ⟨pos, utf8 braces.text ++ rest⟩ =
      .ok (braces.tree kind pos) ⟨pos + width braces.text, rest⟩

/-! ## Template strings -/

theorem templatePiece_literal (opening : Cursor) (l : Literal) {rest : Bytes}
    (hrest : Stops (fun b => b != ascii '\x60' && b != ascii '\x7b') rest) (pos : Nat) :
    templatePiece opening ⟨pos, utf8 l.text ++ rest⟩ =
      .ok (some (leafAt .templateText pos l.text, none)) ⟨pos + width l.text, rest⟩ := by
  have hall := List.all_eq_true.mp l.bytes
  have hskip := skipWhile_append hall hrest pos
  cases htext : utf8 l.text with
  | nil => exact absurd htext (utf8_ne_nil l.nonempty)
  | cons b bytes =>
    have hb := hall b (by simp [htext])
    simp only [Bool.and_eq_true, bne_iff_ne, ne_eq] at hb
    have hpeek : Cursor.peek ⟨pos, b :: bytes ++ rest⟩ = some b := rfl
    unfold templatePiece
    rw [bind_get, hpeek]
    dsimp only
    rw [if_neg hb.1, if_neg hb.2, ← htext, hskip, bind_set, bind_of_ok (leafFrom_eq ..)]
    rfl

theorem Interpolation.braces_head (i : Interpolation) :
    (utf8 i.braces).head? = some (ascii '\x7b') := by
  simp [Interpolation.braces, utf8_append]

/-- An expression in braces, with blanks around it, whose end is found. -/
theorem templatePiece_of_group (opening : Cursor) {front core back : String}
    (hfront : ∀ c ∈ front.toList, isBlank c = true) (hback : ∀ c ∈ back.toList, isBlank c = true)
    (hcore : Tight core) {pos : Nat} {rest : Bytes}
    (hgroup : group ⟨pos, utf8 ("\x7b" ++ front ++ core ++ back ++ "\x7d") ++ rest⟩ =
      .ok () ⟨pos + width ("\x7b" ++ front ++ core ++ back ++ "\x7d"), rest⟩) :
    templatePiece opening ⟨pos, utf8 ("\x7b" ++ front ++ core ++ back ++ "\x7d") ++ rest⟩ =
      .ok (some (leafAt .hostExpr (pos + width ("\x7b" ++ front)) core, none))
        ⟨pos + width ("\x7b" ++ front ++ core ++ back ++ "\x7d"), rest⟩ := by
  have hhead : (utf8 ("\x7b" ++ front ++ core ++ back ++ "\x7d")).head? = some (ascii '\x7b') := by
    simp [utf8_append]
  have hspan := trimmed_between hfront hback hcore pos rest
  have hfull := hcore.isEmpty_spanAt (pos + width ("\x7b" ++ front))
  unfold templatePiece
  rw [bind_get, peek_append hhead]
  dsimp only
  rw [if_neg (by decide), if_pos rfl, bind_of_ok hgroup, bind_get, hspan, hfull]
  rfl

theorem templatePiece_braces (opening : Cursor) (i : Interpolation) (pos : Nat) (rest : Bytes) :
    templatePiece opening ⟨pos, utf8 i.braces ++ rest⟩ =
      .ok (some (leafAt .hostExpr (pos + width ("\x7b" ++ i.before.text)) i.code.text, none))
        ⟨pos + width i.braces, rest⟩ :=
  templatePiece_of_group opening i.before.isBlank i.after.isBlank i.code.tight
    (group_between i.before i.after i.code.balanced pos rest)

theorem stops_interpolations (rest : List Interpolation) (tail : Bytes) :
    Stops (fun b => b != ascii '\x60' && b != ascii '\x7b')
      (utf8 (interpolationsText rest) ++ (utf8 "\x60" ++ tail)) := by
  cases rest with
  | nil => simp [interpolationsText]
  | cons i rest => simp [interpolationsText, Interpolation.braces, utf8_append]

theorem steps_literal (opening : Cursor) (l? : Option Literal) {rest : Bytes}
    (hrest : Stops (fun b => b != ascii '\x60' && b != ascii '\x7b') rest) {pos : Nat}
    {pieces : List Tree} {next : Cursor}
    (h : Steps (templatePiece opening) ⟨pos + width (literalText l?), rest⟩ (pieces.map (·, none))
      next) :
    Steps (templatePiece opening) ⟨pos, utf8 (literalText l?) ++ rest⟩
      ((literalTrees pos l? ++ pieces).map (·, none)) next := by
  cases l? with
  | none => exact h
  | some l =>
    refine .more (templatePiece_literal opening l hrest pos) ?_ h
    have hne := List.length_pos_iff.mpr (utf8_ne_nil l.nonempty)
    simp only [literalText, List.length_append]
    omega

theorem steps_interpolations (opening : Cursor) (rest : List Interpolation) (pos : Nat)
    (tail : Bytes) :
    Steps (templatePiece opening) ⟨pos, utf8 (interpolationsText rest) ++ (utf8 "\x60" ++ tail)⟩
      ((interpolationTrees pos rest).map (·, none))
      ⟨pos + width (interpolationsText rest), utf8 "\x60" ++ tail⟩ := by
  induction rest generalizing pos with
  | nil => exact .done rfl
  | cons i rest ih =>
    have hpiece := templatePiece_braces opening i pos
      (utf8 (literalText i.literal?) ++ (utf8 (interpolationsText rest) ++ (utf8 "\x60" ++ tail)))
    have hrest := steps_literal opening i.literal? (stops_interpolations rest tail)
      (ih (pos + width i.braces + width (literalText i.literal?)))
    have hbraces := length_pos_of_head i.braces_head
    simp only [interpolationsText, utf8_append, List.append_assoc, interpolationTrees,
      List.map_cons]
    simp only [width_append, Nat.add_assoc] at hpiece hrest ⊢
    refine .more hpiece ?_ hrest
    simp only [List.length_append]
    omega

/-- A template string, given how its pieces are read. -/
theorem templateString_of_steps {text tail : Bytes} {pieces : List Tree} {pos stop : Nat}
    (h : Steps (templatePiece ⟨pos, utf8 "\x60" ++ text⟩) ⟨pos + width "\x60", text⟩
      (pieces.map (·, none)) ⟨stop, utf8 "\x60" ++ tail⟩) :
    templateString ⟨pos, utf8 "\x60" ++ text⟩ =
      .ok (.node .templateString ⟨pos, stop + width "\x60"⟩ pieces)
        ⟨stop + width "\x60", tail⟩ := by
  have hnone : (pieces.map (fun tree => (tree, (none : Option Span)))).findSome? (·.2) = none := by
    simp
  have hfirst : (pieces.map (fun tree => (tree, (none : Option Span)))).map (·.1) = pieces := by
    simp [Function.comp_def]
  unfold templateString
  rw [bind_get, bind_set, bump_append rfl, bind_of_ok h.many, bind_modify, bump_append rfl, hnone]
  dsimp only
  rw [nodeFrom_eq, hfirst]

theorem templateString_append (first? : Option Literal) (rest : List Interpolation) (pos : Nat)
    (tail : Bytes) :
    templateString ⟨pos, utf8 (Value.template first? rest).text ++ tail⟩ =
      .ok ((Value.template first? rest).tree pos)
        ⟨pos + width (Value.template first? rest).text, tail⟩ := by
  have hsteps := fun opening => steps_literal opening first? (stops_interpolations rest tail)
    (steps_interpolations opening rest (pos + width "\x60" + width (literalText first?)) tail)
  simp only [Value.text, utf8_append, List.append_assoc]
  rw [templateString_of_steps (hsteps _)]
  simp only [Value.tree, Value.text, nodeAt, spanAt, width_append, Nat.add_assoc]
  rfl

/-! ## Values -/

theorem Braces.head (braces : Braces) : (utf8 braces.text).head? = some (ascii '\x7b') := by
  cases braces <;> simp [Braces.text, utf8_append]

theorem attributeValue_append {g : Nested} {size : Nat} (hg : Reads g size) (value : Value)
    (hsize : width value.text ≤ size) {rest : Bytes} (hrest : Stops isIdentByte rest) (pos : Nat) :
    attributeValue g ⟨pos, utf8 value.text ++ rest⟩ =
      .ok (value.tree pos) ⟨pos + width value.text, rest⟩ := by
  cases value with
  | string quoted =>
    have hhead : (utf8 quoted.text).head? = some (ascii '"') := by
      simp [Quoted.text, utf8_append]
    simp only [Value.text]
    unfold attributeValue
    rw [bind_get, peek_append hhead, if_pos rfl, bind_of_ok (string_append ..), leafFrom_eq]
    rfl
  | braces braces =>
    simp only [Value.text] at hsize ⊢
    unfold attributeValue
    rw [bind_get, peek_append braces.head, if_neg (by decide), if_pos rfl,
      hg.braces braces .exprValue pos rest hsize]
    rfl
  | template first? pieces =>
    have hhead : (utf8 (Value.template first? pieces).text).head? = some (ascii '\x60') := by
      simp [Value.text, utf8_append]
    unfold attributeValue
    rw [bind_get, peek_append hhead, if_neg (by decide), if_neg (by decide), if_pos rfl]
    exact templateString_append first? pieces pos rest
  | enum ident =>
    have hhead : (utf8 ident.literal).head? = some (ascii '.') := by
      simp [Ident.literal, utf8_append]
    have hnext : (Cursor.peekAt ⟨pos, utf8 ident.literal ++ rest⟩ 1).any isIdentStart = true := by
      have h := ident.head
      simp only [Ident.literal, utf8_append, utf8_dot, Cursor.peekAt]
      cases htext : utf8 ident.text with
      | nil => rw [htext] at h; cases h
      | cons b bytes => simpa [htext] using h
    have hskip : Cursor.skipWhile isIdentByte (Cursor.skip ⟨pos, utf8 ident.literal ++ rest⟩ 1) =
        ⟨pos + width ident.literal, rest⟩ := by
      have h := skipWhile_append (List.all_eq_true.mp ident.bytes) hrest (pos + 1)
      simp only [Ident.literal, utf8_append, List.append_assoc, width_append, ← Nat.add_assoc]
      exact h
    simp only [Value.text]
    unfold attributeValue
    rw [bind_get, peek_append hhead, if_neg (by decide), if_neg (by decide), if_neg (by decide),
      hnext, if_pos (by decide), hskip, bind_set, bind_get]
    rfl

/-- What can follow an attribute: it does not go on with its name, and no value comes next. -/
structure EndsAttr (text : Bytes) : Prop where
  name : Stops isNameByte text
  value : ∃ (gap : Gap) (tail : Bytes), text = utf8 gap.text ++ tail ∧ Stops isAsciiBlank tail ∧
    Stops (· == ascii '=') tail

theorem EndsAttr.ident {text : Bytes} (h : EndsAttr text) : Stops isIdentByte text := by
  intro b hb
  have hname := h.name b hb
  simp only [isNameByte, Bool.or_eq_false_iff] at hname
  exact hname.1.1.1

theorem startsWith_of_stops {text : String} {b : UInt8} (hhead : (utf8 text).head? = some b)
    {rest : Bytes} (h : Stops (· == b) rest) (pos : Nat) :
    Cursor.startsWith ⟨pos, rest⟩ text = false := by
  unfold Cursor.startsWith
  cases htext : utf8 text with
  | nil => rw [htext] at hhead; cases hhead
  | cons x bytes =>
    rw [htext] at hhead
    obtain rfl := Option.some.inj hhead
    cases rest with
    | nil => rfl
    | cons y rest =>
      have hne : y ≠ x := by simpa using stops_cons.mp h
      simp [List.isPrefixOf, Ne.symm hne]

theorem attributeValue?_none (g : Nested) {rest : Bytes} (h : EndsAttr rest) (pos : Nat) :
    attributeValue? g ⟨pos, rest⟩ = .ok none ⟨pos, rest⟩ := by
  obtain ⟨gap, tail, rfl, hblank, hequals⟩ := h.value
  have heat : eat "=" ⟨pos + width gap.text, tail⟩ = .ok false ⟨pos + width gap.text, tail⟩ :=
    eat_of_not (startsWith_of_stops (by decide) hequals _)
  unfold attributeValue?
  rw [bind_get, bind_skipBlanks, skipBlanks_gap gap hblank, bind_of_ok heat]
  rfl

theorem Value.stops_blank (value : Value) (rest : Bytes) :
    Stops isAsciiBlank (utf8 value.text ++ rest) := by
  cases value with
  | string quoted =>
    simp [Value.text, Quoted.text, utf8_append]
    decide
  | braces braces =>
    exact stops_of_head (p := (· == ascii '\x7b')) (by simp [Value.text, braces.head])
      (fun b hb => by obtain rfl := beq_iff_eq.mp hb; decide) rest
  | template first? pieces =>
    simp [Value.text, utf8_append]
    decide
  | enum ident =>
    simp [Value.text, Ident.literal, utf8_append]
    decide

/-- A value that is read behind its equals sign and the gaps around it. -/
theorem attributeValue?_of_value {g : Nested} (before after : Gap) {text : Bytes} {t : Tree}
    {next : Cursor} (hblank : Stops isAsciiBlank text) {pos : Nat}
    (hvalue : attributeValue g ⟨pos + width (before.text ++ "=" ++ after.text), text⟩ =
      .ok t next) :
    attributeValue? g ⟨pos, utf8 before.text ++ (utf8 "=" ++ (utf8 after.text ++ text))⟩ =
      .ok (some t) next := by
  simp only [width_append, ← Nat.add_assoc] at hvalue
  unfold attributeValue?
  rw [bind_get, bind_skipBlanks, skipBlanks_gap before (by simp; decide),
    bind_of_ok (eat_append ..), if_pos rfl, bind_skipBlanks, skipBlanks_gap after hblank,
    bind_of_ok hvalue]
  rfl

theorem attributeValue?_some {g : Nested} {size : Nat} (hg : Reads g size) (before after : Gap)
    (value : Value) (hsize : width value.text ≤ size) {rest : Bytes} (hrest : EndsAttr rest)
    (pos : Nat) :
    attributeValue? g
        ⟨pos, utf8 before.text ++ (utf8 "=" ++ (utf8 after.text ++ (utf8 value.text ++ rest)))⟩ =
      .ok (some (value.tree (pos + width (before.text ++ "=" ++ after.text))))
        ⟨pos + width (before.text ++ "=" ++ after.text ++ value.text), rest⟩ := by
  rw [attributeValue?_of_value before after (value.stops_blank rest)
    (attributeValue_append hg value hsize hrest.ident _), width_append _ value.text, Nat.add_assoc]

/-- The value of a builtin as the value of any attribute. -/
def Plain.toValue : Plain → Value
  | .string quoted => .string quoted
  | .enum ident => .enum ident
  | .code before e after => .braces (.code before e after)

@[simp] theorem Plain.toValue_text (value : Plain) : value.toValue.text = value.text := by
  cases value <;> rfl

@[simp] theorem Plain.toValue_tree (value : Plain) (pos : Nat) :
    value.toValue.tree pos = value.tree pos := by
  cases value <;> rfl

/-! ## Attributes in braces -/

def builtinIdent (b : Builtin) : Ident :=
  ⟨b.name, by cases b <;> decide, by cases b <;> decide⟩

theorem stops_closing (after : Gap) {p : UInt8 → Bool} (hblank : ∀ b, isAsciiBlank b → p b = false)
    (hp : p (ascii '\x7d') = false) (rest : Bytes) :
    Stops p (utf8 after.text ++ (utf8 "\x7d" ++ rest)) :=
  stops_of_blank hblank after (by simpa using hp)

theorem bracedAttribute_shorthand (before after : Gap) (ident : Ident) (pos : Nat) (rest : Bytes) :
    bracedAttribute ⟨pos, utf8 (Attr.shorthand before ident after).text ++ rest⟩ =
      .ok ((Attr.shorthand before ident after).tree pos)
        ⟨pos + width (Attr.shorthand before ident after).text, rest⟩ := by
  have hident := ident_append ident (stops_closing after not_identByte_of_blank (by decide) rest)
  have hstart : ∀ text b, (utf8 text).head? = some b → isIdentStart b = false →
      ∀ pos tail, Cursor.startsWith ⟨pos, utf8 ident.text ++ tail⟩ text = false :=
    fun text b hhead hb pos tail => startsWith_of_stops hhead
      (stops_of_head ident.head (fun x hx => beq_of_class hx hb) tail) pos
  unfold bracedAttribute
  simp only [Attr.text, utf8_append, List.append_assoc]
  rw [bind_get, bind_set, bump_append rfl, bind_skipBlanks,
    skipBlanks_gap before (stops_of_head ident.head not_blank_of_identStart _),
    bind_of_ok (eat_of_not (hstart ".." (ascii '.') (by decide) (by decide) _ _)),
    if_neg (by decide),
    bind_of_ok (eat_of_not (hstart "@" (ascii '@') (by decide) (by decide) _ _)),
    bind_of_ok (hident _)]
  dsimp only
  rw [bind_skipBlanks, skipBlanks_gap after (by simp; decide), bind_of_ok (expect_append ..),
    nodeFrom_eq]
  simp only [Attr.tree, Attr.text, nodeAt, leafAt, spanAt, width_append, Nat.add_assoc]
  rfl

theorem bracedAttribute_at (before after : Gap) (ident : Ident) (pos : Nat) (rest : Bytes) :
    bracedAttribute
        ⟨pos, utf8 ("\x7b" ++ before.text ++ "@" ++ ident.text ++ after.text ++ "\x7d") ++ rest⟩ =
      .ok (nodeAt .builtinShorthandAttribute pos
          ("\x7b" ++ before.text ++ "@" ++ ident.text ++ after.text ++ "\x7d")
          [leafAt .attrName (pos + width ("\x7b" ++ before.text ++ "@")) ident.text])
        ⟨pos + width ("\x7b" ++ before.text ++ "@" ++ ident.text ++ after.text ++ "\x7d"),
          rest⟩ := by
  have hident := ident_append ident (stops_closing after not_identByte_of_blank (by decide) rest)
  have hdots : ∀ pos tail, Cursor.startsWith ⟨pos, utf8 "@" ++ tail⟩ ".." = false :=
    fun pos tail => startsWith_of_stops (b := ascii '.') (by decide) (by simp; decide) pos
  unfold bracedAttribute
  simp only [utf8_append, List.append_assoc]
  rw [bind_get, bind_set, bump_append rfl, bind_skipBlanks,
    skipBlanks_gap before (by simp; decide), bind_of_ok (eat_of_not (hdots ..)),
    if_neg (by decide), bind_of_ok (eat_append ..), bind_of_ok (hident _)]
  dsimp only
  rw [bind_skipBlanks, skipBlanks_gap after (by simp; decide), bind_of_ok (expect_append ..),
    nodeFrom_eq]
  simp only [nodeAt, leafAt, spanAt, width_append, Nat.add_assoc]
  rfl

theorem tight_dots : Tight ".." := by
  constructor <;> decide

/-- The span of a spread expression. -/
theorem trimmed_spread (before : Gap) {front core : String}
    (hfront : ∀ c ∈ front.toList, isBlank c = true) (hcore : Tight core) (pos : Nat)
    (tail : Bytes) :
    trimmed (Cursor.skip ⟨pos, utf8 ("\x7b" ++ before.text ++ ".." ++ front ++ core) ++ tail⟩
        (pos + width ("\x7b" ++ before.text) + 2 - pos))
        (pos + width ("\x7b" ++ before.text) + width (".." ++ front ++ core)) =
      spanAt (pos + width ("\x7b" ++ before.text ++ ".." ++ front)) core := by
  have hsplit : utf8 ("\x7b" ++ before.text ++ ".." ++ front ++ core) ++ tail =
      utf8 ("\x7b" ++ before.text ++ "..") ++
        (utf8 front ++ (utf8 core ++ (utf8 "" ++ tail))) := by
    simp only [utf8_append, List.append_assoc, utf8_empty, List.nil_append]
  have hblanks := @trimmed_blanks front core "" hfront (by simp) hcore
    (pos + width ("\x7b" ++ before.text ++ "..")) tail
  have hdots : width ".." = 2 ∧ width "" = 0 := ⟨rfl, rfl⟩
  have hlength : pos + width ("\x7b" ++ before.text) + 2 - pos =
      width ("\x7b" ++ before.text ++ "..") := by
    rw [width_append _ "..", hdots.1]
    omega
  rw [hsplit, hlength, skip_width]
  simp only [width_append, hdots.2, Nat.add_zero, Nat.add_assoc] at hblanks ⊢
  exact hblanks

/-- A spread expression, with blanks around it, whose end is found. -/
theorem spread_of_group (before : Gap) {front core back : String}
    (hfront : ∀ c ∈ front.toList, isBlank c = true) (hback : ∀ c ∈ back.toList, isBlank c = true)
    (hcore : Tight core) {pos : Nat} {rest : Bytes}
    (hgroup : group
        ⟨pos, utf8 ("\x7b" ++ before.text ++ ".." ++ front ++ core ++ back ++ "\x7d") ++ rest⟩ =
      .ok () ⟨pos + width ("\x7b" ++ before.text ++ ".." ++ front ++ core ++ back ++ "\x7d"),
        rest⟩) (c : Cursor) :
    spread ⟨pos, utf8 ("\x7b" ++ before.text ++ ".." ++ front ++ core ++ back ++ "\x7d") ++ rest⟩
        c =
      .ok (nodeAt .spreadAttribute pos
          ("\x7b" ++ before.text ++ ".." ++ front ++ core ++ back ++ "\x7d")
          [leafAt .hostExpr (pos + width ("\x7b" ++ before.text ++ ".." ++ front)) core])
        ⟨pos + width ("\x7b" ++ before.text ++ ".." ++ front ++ core ++ back ++ "\x7d"),
          rest⟩ := by
  have htext : "\x7b" ++ before.text ++ ".." ++ front ++ core ++ back ++ "\x7d" =
      "\x7b" ++ before.text ++ (".." ++ front ++ core) ++ back ++ "\x7d" := by
    simp only [String.append_assoc]
  have hwhole := trimmed_between before.isBlank hback (tight_dots.append front hcore) pos rest
  rw [← htext] at hwhole
  have hinner := trimmed_spread before hfront hcore pos (utf8 back ++ (utf8 "\x7d" ++ rest))
  have hfull := hcore.isEmpty_spanAt (pos + width ("\x7b" ++ before.text ++ ".." ++ front))
  have hsplit : utf8 ("\x7b" ++ before.text ++ ".." ++ front ++ core) ++
      (utf8 back ++ (utf8 "\x7d" ++ rest)) =
        utf8 ("\x7b" ++ before.text ++ ".." ++ front ++ core ++ back ++ "\x7d") ++ rest := by
    simp only [utf8_append, List.append_assoc]
  rw [hsplit] at hinner
  unfold spread
  rw [bind_set, bind_of_ok hgroup, bind_get]
  dsimp only
  rw [hwhole, spanAt, hinner, hfull, if_neg (by decide), nodeFrom_eq]
  rfl

/-- A spread attribute, given how it is read from its brace on. -/
theorem bracedAttribute_of_spread (before : Gap) {text : Bytes} {t : Tree} {pos : Nat}
    {next : Cursor}
    (h : ∀ c, spread ⟨pos, utf8 "\x7b" ++ (utf8 before.text ++ (utf8 ".." ++ text))⟩ c =
      .ok t next) :
    bracedAttribute ⟨pos, utf8 "\x7b" ++ (utf8 before.text ++ (utf8 ".." ++ text))⟩ =
      .ok t next := by
  unfold bracedAttribute
  rw [bind_get, bind_set, bump_append rfl, bind_skipBlanks, skipBlanks_gap before (by simp; decide),
    bind_of_ok (eat_append ..), if_pos rfl]
  exact h _

theorem bracedAttribute_spread (before between : Gap) (code : Code) (after : Gap) (pos : Nat)
    (rest : Bytes) :
    bracedAttribute ⟨pos, utf8 (Attr.spread before between code after).text ++ rest⟩ =
      .ok ((Attr.spread before between code after).tree pos)
        ⟨pos + width (Attr.spread before between code after).text, rest⟩ := by
  have hcode : SelfContained (utf8 (".." ++ between.text ++ code.text)) := by
    have hdots : SelfContained (utf8 "..") :=
      selfContained_of_plain (List.all_eq_true.mp (by decide))
    rw [utf8_append, utf8_append]
    exact (hdots.append between.selfContained).append code.balanced
  have hgroup := group_between before after hcode pos rest
  simp only [← String.append_assoc] at hgroup
  have hspread := spread_of_group before between.isBlank after.isBlank code.tight hgroup
  have hopen : utf8 (Attr.spread before between code after).text ++ rest = utf8 "\x7b" ++
      (utf8 before.text ++ (utf8 ".." ++ (utf8 between.text ++
        (utf8 code.text ++ (utf8 after.text ++ (utf8 "\x7d" ++ rest)))))) := by
    simp only [Attr.text, utf8_append, List.append_assoc]
  change ∀ c, spread ⟨pos, utf8 (Attr.spread before between code after).text ++ rest⟩ c = _
    at hspread
  rw [hopen] at hspread ⊢
  exact bracedAttribute_of_spread before hspread

/-! ## All attributes -/

/-- An attribute that begins with a name, given what its value is. -/
theorem attr_named (g : Nested) (name : Name) {text : Bytes} {value : Option Tree}
    {next : Cursor} (hname : Stops isNameByte text) (pos : Nat)
    (hvalue : attributeValue? g ⟨pos + width name.text, text⟩ = .ok value next) :
    attr g ⟨pos, utf8 name.text ++ text⟩ =
      .ok (.node .staticAttribute ⟨pos, next.pos⟩
        (leafAt .attrName pos name.text :: value.toList)) next := by
  obtain ⟨b, hhead, hb⟩ := (Option.any_eq_true ..).mp name.head
  have hat : b ≠ ascii '@' := ne_of_beq_false (beq_of_class hb (by decide))
  have hbrace : b ≠ ascii '\x7b' := ne_of_beq_false (beq_of_class hb (by decide))
  unfold attr
  rw [bind_get, peek_append hhead]
  dsimp only
  rw [if_neg hat, if_neg hbrace, bind_of_ok (name_append name hname pos)]
  dsimp only
  rw [bind_of_ok hvalue, nodeFrom_eq]
  rfl

theorem attr_at (g : Nested) (ident : Ident) {text : Bytes} {value : Option Tree}
    {next : Cursor} (hident : Stops isIdentByte text) (pos : Nat)
    (hvalue : attributeValue? g ⟨pos + width "@" + width ident.text, text⟩ = .ok value next) :
    attr g ⟨pos, utf8 "@" ++ (utf8 ident.text ++ text)⟩ =
      .ok (.node .builtinAttribute ⟨pos, next.pos⟩
        (leafAt .attrName (pos + 1) ident.text :: value.toList)) next := by
  unfold attr
  rw [bind_get, peek_append (b := ascii '@') (by decide)]
  dsimp only
  rw [if_pos rfl, bind_set, bump_append rfl, bind_of_ok (ident_append ident hident _)]
  dsimp only
  rw [bind_of_ok hvalue, nodeFrom_eq]
  rfl

/-- An attribute in braces. -/
theorem attr_braced (g : Nested) {text : String} (hhead : (utf8 text).head? = some (ascii '\x7b'))
    (pos : Nat) (rest : Bytes) :
    attr g ⟨pos, utf8 text ++ rest⟩ = bracedAttribute ⟨pos, utf8 text ++ rest⟩ := by
  unfold attr
  rw [bind_get, peek_append hhead]
  dsimp only
  rw [if_neg (by decide), if_pos rfl]

theorem attr_append {g : Nested} {size : Nat} (hg : Reads g size) (a : Attr)
    (hsize : width a.text ≤ size) {rest : Bytes} (hrest : EndsAttr rest) (pos : Nat) :
    attr g ⟨pos, utf8 a.text ++ rest⟩ = .ok (a.tree pos) ⟨pos + width a.text, rest⟩ := by
  cases a with
  | flag name =>
    rw [Attr.text, attr_named g name hrest.name pos (attributeValue?_none g hrest _)]
    rfl
  | static name before after value =>
    have hname : Stops isNameByte
        (utf8 before.text ++ (utf8 "=" ++ (utf8 after.text ++ (utf8 value.text ++ rest)))) :=
      stops_of_blank not_nameByte_of_blank before (by simp; decide)
    have hvalue := attributeValue?_some hg before after value
      (by simp only [Attr.text, width_append] at hsize; omega) hrest (pos + width name.text)
    simp only [Attr.text, utf8_append, List.append_assoc]
    rw [attr_named g name hname pos hvalue]
    simp only [Attr.tree, Attr.text, nodeAt, leafAt, spanAt, width_append, Nat.add_assoc]
    rfl
  | builtin b before after value =>
    have hident : Stops isIdentByte
        (utf8 before.text ++ (utf8 "=" ++ (utf8 after.text ++ (utf8 value.text ++ rest)))) :=
      stops_of_blank not_identByte_of_blank before (by simp; decide)
    have hvalue := attributeValue?_some hg before after value.toValue
      (by simp only [Attr.text, width_append] at hsize; simp only [Plain.toValue_text]; omega) hrest
      (pos + width "@" + width b.name)
    rw [Plain.toValue_text, Plain.toValue_tree] at hvalue
    have hattr := attr_at g (builtinIdent b) hident pos hvalue
    simp only [Attr.text, utf8_append, List.append_assoc]
    rw [show utf8 b.name = utf8 (builtinIdent b).text from rfl, hattr]
    simp only [Attr.tree, Attr.text, nodeAt, leafAt, spanAt, width_append, Nat.add_assoc]
    rfl
  | shorthand before ident after =>
    rw [attr_braced g (by simp [Attr.text, utf8_append]), bracedAttribute_shorthand]
  | builtinShorthand before b after =>
    rw [attr_braced g (by simp [Attr.text, utf8_append])]
    exact bracedAttribute_at before after (builtinIdent b) pos rest
  | spread before between code after =>
    rw [attr_braced g (by simp [Attr.text, utf8_append]), bracedAttribute_spread]

/-- A byte that can begin an attribute. -/
def isAttrStart (b : UInt8) : Bool := isIdentStart b || b == ascii '@' || b == ascii '\x7b'

theorem Attr.head (a : Attr) : (utf8 a.text).head?.any isAttrStart := by
  have hname : ∀ (name : Name) (more : Bytes), (utf8 name.text ++ more).head?.any isAttrStart := by
    intro name more
    obtain ⟨b, hhead, hb⟩ := (Option.any_eq_true ..).mp name.head
    rw [List.head?_append, hhead]
    simp [isAttrStart, hb]
  cases a with
  | flag name => simpa [Attr.text] using hname name []
  | static name => simpa only [Attr.text, utf8_append, List.append_assoc] using hname name _
  | _ =>
    simp [Attr.text, utf8_append]
    decide

theorem not_blank_of_attrStart (b : UInt8) (h : isAttrStart b = true) : isAsciiBlank b = false := by
  cases hb : isAsciiBlank b with
  | false => rfl
  | true =>
    have hnot : isAttrStart b = false := by
      rcases blank_cases hb with rfl | rfl | rfl | rfl | rfl <;> decide
    rw [h] at hnot
    cases hnot

theorem Attr.stops (a : Attr) {c : UInt8} (hc : isAttrStart c = false) (rest : Bytes) :
    Stops (· == c) (utf8 a.text ++ rest) :=
  stops_of_head a.head (fun _ hb => beq_of_class hb hc) rest

theorem append_ne_nil_of_head {p : UInt8 → Bool} {text : Bytes} (h : text.head?.any p)
    (rest : Bytes) : text ++ rest ≠ [] := by
  intro hnil
  rw [(List.append_eq_nil_iff.mp hnil).1] at h
  cases h

/-- A part of a tag behind a space, given how it is read. -/
theorem attr?_of_read {g : Nested} (opening : Span) (name : String) (space : Space) {text : Bytes}
    (hblank : Stops isAsciiBlank text) (hslash : Stops (· == ascii '/') text)
    (hclose : Stops (· == ascii '>') text) (hne : text ≠ []) {pos : Nat} {t : Tree} {next : Cursor}
    (hread : attrOrError g ⟨pos + width space.text, text⟩ = .ok t next) :
    attr? g opening name ⟨pos, utf8 space.text ++ text⟩ = .ok (some t) next := by
  have hends : (Cursor.startsWith ⟨pos + width space.text, text⟩ "/>" ||
      Cursor.startsWith ⟨pos + width space.text, text⟩ ">") = false := by
    rw [startsWith_of_stops (b := ascii '/') (by decide) hslash,
      startsWith_of_stops (b := ascii '>') (by decide) hclose]
    rfl
  have hahead : Cursor.atEnd ⟨pos + width space.text, text⟩ = false := by
    simpa [Cursor.atEnd] using hne
  unfold attr?
  rw [bind_skipBlanks, skipBlanks_gap space.toGap hblank, bind_get, hends, if_neg (by decide),
    hahead, if_neg (by decide), bind_of_ok hread]
  rfl

theorem attr?_more {g : Nested} {size : Nat} (hg : Reads g size) (opening : Span) (name : String)
    (space : Space) (a : Attr) (hsize : width a.text ≤ size) {rest : Bytes} (hrest : EndsAttr rest)
    (pos : Nat) :
    attr? g opening name ⟨pos, utf8 space.text ++ (utf8 a.text ++ rest)⟩ =
      .ok (some (a.tree (pos + width space.text))) ⟨pos + width (space.text ++ a.text), rest⟩ := by
  have hattr : attrOrError g ⟨pos + width space.text, utf8 a.text ++ rest⟩ =
      .ok (a.tree (pos + width space.text)) ⟨pos + width space.text + width a.text, rest⟩ := by
    unfold attrOrError
    rw [attr_append hg a hsize hrest]
  rw [attr?_of_read opening name space (stops_of_head a.head not_blank_of_attrStart rest)
    (a.stops (by decide) rest) (a.stops (by decide) rest) (append_ne_nil_of_head a.head rest) hattr,
    width_append, Nat.add_assoc]

/-- The two ways in which a tag ends. -/
def IsTagEnd (text : String) : Prop := text = ">" ∨ text = "/>"

theorem attr?_done (g : Nested) (opening : Span) (name : String) (gap : Gap) {close : String}
    (hclose : IsTagEnd close) (pos : Nat) (rest : Bytes) :
    attr? g opening name ⟨pos, utf8 gap.text ++ (utf8 close ++ rest)⟩ =
      .ok none ⟨pos + width gap.text, utf8 close ++ rest⟩ := by
  have hblank : Stops isAsciiBlank (utf8 close ++ rest) := by
    rcases hclose with rfl | rfl <;> (simp; decide)
  have hends : ∀ pos, (Cursor.startsWith ⟨pos, utf8 close ++ rest⟩ "/>" ||
      Cursor.startsWith ⟨pos, utf8 close ++ rest⟩ ">") = true := by
    intro pos
    rcases hclose with rfl | rfl
    · rw [startsWith_append ">", Bool.or_true]
    · rw [startsWith_append "/>", Bool.true_or]
  unfold attr?
  rw [bind_skipBlanks, skipBlanks_gap gap hblank, bind_get, hends]
  rfl

theorem endsAttr_attrs (attributes : Attrs) (gap : Gap) {close : String} (hclose : IsTagEnd close)
    (rest : Bytes) : EndsAttr (utf8 attributes.text ++ (utf8 gap.text ++ (utf8 close ++ rest))) := by
  cases attributes with
  | done =>
    have hstop : ∀ {p : UInt8 → Bool}, p (ascii '>') = false → p (ascii '/') = false →
        Stops p (utf8 close ++ rest) := by
      intro p hgt hslash
      rcases hclose with rfl | rfl <;> simp [hgt, hslash]
    exact ⟨stops_of_blank not_nameByte_of_blank gap (hstop (by decide) (by decide)), gap, _, rfl,
      hstop (by decide) (by decide), hstop (by decide) (by decide)⟩
  | more space a more =>
    simp only [Attrs.text, utf8_append, List.append_assoc]
    refine ⟨?_, space.toGap, _, rfl, stops_of_head a.head not_blank_of_attrStart _,
      a.stops (by decide) _⟩
    exact space.stops not_nameByte_of_blank _

theorem steps_attrs {g : Nested} {size : Nat} (hg : Reads g size) (opening : Span) (name : String)
    (attributes : Attrs) (hsize : width attributes.text ≤ size) (gap : Gap) {close : String}
    (hclose : IsTagEnd close) (pos : Nat) (rest : Bytes) :
    Steps (attr? g opening name)
      ⟨pos, utf8 attributes.text ++ (utf8 gap.text ++ (utf8 close ++ rest))⟩
      (attributes.trees pos)
      ⟨pos + width attributes.text + width gap.text, utf8 close ++ rest⟩ := by
  cases attributes with
  | done => exact .done (attr?_done g opening name gap hclose pos rest)
  | more space a more =>
    simp only [Attrs.text, width_append] at hsize
    have hfirst := attr?_more hg opening name space a (by omega)
      (endsAttr_attrs more gap hclose rest) pos
    have hrest := steps_attrs hg opening name more (by omega) gap hclose
      (pos + width (space.text ++ a.text)) rest
    have hspace := List.length_pos_iff.mpr (utf8_ne_nil space.nonempty)
    simp only [Attrs.text, Attrs.trees, utf8_append, List.append_assoc]
    simp only [width_append, Nat.add_assoc] at hfirst hrest ⊢
    refine .more hfirst ?_ hrest
    simp only [List.length_append]
    omega

end ZigMarkup.Surface
