import ZigMarkup.Proofs.Surface.Attributes

/-!
How elements, fragments and children are read. Children end where a closing tag or, in a body,
a closing brace comes next; a run of text goes on up to the next tag or brace.
-/
namespace ZigMarkup.Surface

open ScanM Parser

/-! ## Children -/

/-- Markup begins with `<` and a name or `>`. -/
theorem Markup.opening (markup : Markup) : ∃ b more,
    utf8 markup.text = ascii '<' :: b :: more ∧ (b == ascii '>' || isIdentStart b) = true := by
  have hnamed : ∀ (name : Name) (more : Bytes), ∃ b rest,
      utf8 name.text ++ more = b :: rest ∧ (b == ascii '>' || isIdentStart b) = true := by
    intro name more
    have hhead := name.head
    cases htext : utf8 name.text with
    | nil => rw [htext] at hhead; cases hhead
    | cons b bytes =>
      rw [htext] at hhead
      exact ⟨b, bytes ++ more, rfl, by rw [show isIdentStart b = true from hhead, Bool.or_true]⟩
  cases markup with
  | element name proper attributes gap children before after =>
    simp only [Markup.text, utf8_append, List.append_assoc]
    obtain ⟨b, more, hmore, hb⟩ := hnamed name _
    exact ⟨b, more, by rw [hmore]; simp, hb⟩
  | selfClosing name attributes gap =>
    simp only [Markup.text, utf8_append, List.append_assoc]
    obtain ⟨b, more, hmore, hb⟩ := hnamed name _
    exact ⟨b, more, by rw [hmore]; simp, hb⟩
  | fragment children gap =>
    refine ⟨ascii '>', utf8 (children.text ++ "</" ++ gap.text ++ ">"), ?_, rfl⟩
    simp [Markup.text, utf8_append]

theorem Markup.head (markup : Markup) : (utf8 markup.text).head? = some (ascii '<') := by
  obtain ⟨b, more, htext, _⟩ := markup.opening
  rw [htext]
  rfl

/-- Markup is neither a closing tag nor a comment. -/
theorem Markup.not_startsWith (markup : Markup) {mark : UInt8} {text : String} {more : Bytes}
    (htext : utf8 text = ascii '<' :: mark :: more)
    (hmark : (mark == ascii '>' || isIdentStart mark) = false) (pos : Nat) (rest : Bytes) :
    Cursor.startsWith ⟨pos, utf8 markup.text ++ rest⟩ text = false := by
  obtain ⟨b, bytes, hbytes, hb⟩ := markup.opening
  have hne : (mark == b) = false := by
    cases h : mark == b with
    | false => rfl
    | true =>
      obtain rfl := beq_iff_eq.mp h
      rw [hb] at hmark
      cases hmark
  simp [Cursor.startsWith, htext, hbytes, List.isPrefixOf, hne]

/-- What comes behind the last child. -/
def EndsChildren : Terminator → Bytes → Prop
  | .endTag, tail => ∃ rest, tail = utf8 "</" ++ rest
  | .brace, tail => ∃ rest, tail = utf8 "\x7d" ++ rest

theorem child?_done (g : Nested) (terminator : Terminator) (opening : Span) (opener : String)
    {tail : Bytes} (hend : EndsChildren terminator tail) (pos : Nat) :
    child? g terminator opening opener ⟨pos, tail⟩ = .ok none ⟨pos, tail⟩ := by
  cases terminator with
  | endTag =>
    obtain ⟨rest, rfl⟩ := hend
    unfold child?
    rw [bind_get, peek_append (b := ascii '<') (by decide)]
    dsimp only
    rw [if_pos rfl, startsWith_append, if_pos rfl]
    rfl
  | brace =>
    obtain ⟨rest, rfl⟩ := hend
    rfl

theorem child?_markup {g : Nested} {size : Nat} (hg : Reads g size) (terminator : Terminator)
    (opening : Span) (opener : String) (markup : Markup) (hsize : width markup.text ≤ size)
    (pos : Nat) (rest : Bytes) :
    child? g terminator opening opener ⟨pos, utf8 markup.text ++ rest⟩ =
      .ok (some (markup.tree pos)) ⟨pos + width markup.text, rest⟩ := by
  have hopen := markup.not_startsWith utf8_openEnd (by decide) pos rest
  unfold child?
  rw [bind_get, peek_append markup.head]
  dsimp only
  rw [if_pos rfl, hopen, if_neg (by decide), bind_of_ok (hg.tag markup pos rest hsize)]
  rfl

theorem child?_braces {g : Nested} {size : Nat} (hg : Reads g size) (terminator : Terminator)
    (opening : Span) (opener : String) (braces : Braces) (hsize : width braces.text ≤ size)
    (pos : Nat) (rest : Bytes) :
    child? g terminator opening opener ⟨pos, utf8 braces.text ++ rest⟩ =
      .ok (some (braces.tree .expressionBlock pos)) ⟨pos + width braces.text, rest⟩ := by
  unfold child?
  rw [bind_get, peek_append braces.head]
  dsimp only
  rw [if_neg (by decide), if_pos rfl,
    bind_of_ok (hg.braces braces .expressionBlock pos rest hsize)]
  rfl

theorem child?_run (g : Nested) (terminator : Terminator) (opening : Span) (opener : String)
    (run : Run) {rest : Bytes} (hrest : Stops isTextByte rest) (pos : Nat) :
    child? g terminator opening opener ⟨pos, utf8 run.text ++ rest⟩ =
      .ok (some (leafAt .text pos run.text)) ⟨pos + width run.text, rest⟩ := by
  have hall := List.all_eq_true.mp run.bytes
  have htext : text ⟨pos, utf8 run.text ++ rest⟩ =
      .ok (leafAt .text pos run.text) ⟨pos + width run.text, rest⟩ := by
    unfold Parser.text
    rw [bind_get, bind_set, skipWhile_append hall hrest, leafFrom_eq]
    rfl
  obtain ⟨b, hhead⟩ : ∃ b, (utf8 run.text).head? = some b := by
    cases hbytes : utf8 run.text with
    | nil => exact absurd hbytes (utf8_ne_nil run.nonempty)
    | cons b bytes => exact ⟨b, rfl⟩
  have hb := hall b (List.mem_of_mem_head? hhead)
  simp only [isTextByte, Bool.and_eq_true, bne_iff_ne, ne_eq] at hb
  unfold child?
  rw [bind_get, peek_append hhead]
  dsimp only
  rw [if_neg hb.1.1, if_neg hb.1.2, if_neg hb.2, bind_of_ok htext]
  rfl

theorem Items.stops_text (items : Items) {terminator : Terminator} {tail : Bytes}
    (hend : EndsChildren terminator tail) : Stops isTextByte (utf8 items.text ++ tail) := by
  cases items with
  | done =>
    cases terminator with
    | endTag =>
      obtain ⟨rest, rfl⟩ := hend
      simp [Items.text]
      decide
    | brace =>
      obtain ⟨rest, rfl⟩ := hend
      simp [Items.text]
      decide
  | markup markup rest =>
    simp only [Items.text, utf8_append, List.append_assoc]
    exact stops_of_head (p := (· == ascii '<')) (by simp [markup.head])
      (fun b hb => by obtain rfl := beq_iff_eq.mp hb; decide) _
  | braces braces rest =>
    simp only [Items.text, utf8_append, List.append_assoc]
    exact stops_of_head (p := (· == ascii '\x7b')) (by simp [braces.head])
      (fun b hb => by obtain rfl := beq_iff_eq.mp hb; decide) _

theorem steps_run (g : Nested) (terminator : Terminator) (opening : Span) (opener : String)
    (run? : Option Run) {rest : Bytes} (hrest : Stops isTextByte rest) {pos : Nat}
    {trees : List Tree} {next : Cursor}
    (h : Steps (child? g terminator opening opener) ⟨pos + width (runText run?), rest⟩ trees next) :
    Steps (child? g terminator opening opener) ⟨pos, utf8 (runText run?) ++ rest⟩
      (runTrees pos run? ++ trees) next := by
  cases run? with
  | none => exact h
  | some run =>
    refine .more (child?_run g terminator opening opener run hrest pos) ?_ h
    have hne := List.length_pos_iff.mpr (utf8_ne_nil run.nonempty)
    simp only [runText, List.length_append]
    omega

mutual
theorem steps_children {g : Nested} {size : Nat} (hg : Reads g size) (terminator : Terminator)
    (opening : Span) (opener : String) {tail : Bytes} (hend : EndsChildren terminator tail)
    (children : Children) (hsize : width children.text ≤ size) (pos : Nat) :
    Steps (child? g terminator opening opener) ⟨pos, utf8 children.text ++ tail⟩
      (children.trees pos) ⟨pos + width children.text, tail⟩ := by
  cases children with
  | mk run? items =>
    simp only [Children.text, width_append] at hsize
    have hitems := steps_items hg terminator opening opener hend items (by omega)
      (pos + width (runText run?))
    have hrun := steps_run g terminator opening opener run? (items.stops_text hend) hitems
    simp only [Children.text, Children.trees, utf8_append, List.append_assoc, width_append]
    simpa only [Nat.add_assoc] using hrun

theorem steps_items {g : Nested} {size : Nat} (hg : Reads g size) (terminator : Terminator)
    (opening : Span) (opener : String) {tail : Bytes} (hend : EndsChildren terminator tail)
    (items : Items) (hsize : width items.text ≤ size) (pos : Nat) :
    Steps (child? g terminator opening opener) ⟨pos, utf8 items.text ++ tail⟩
      (items.trees pos) ⟨pos + width items.text, tail⟩ := by
  cases items with
  | done => exact .done (child?_done g terminator opening opener hend pos)
  | markup markup rest =>
    simp only [Items.text, width_append] at hsize
    have hrest := steps_children hg terminator opening opener hend rest (by omega)
      (pos + width markup.text)
    have hlength := length_pos_of_head markup.head
    simp only [Items.text, Items.trees, utf8_append, List.append_assoc, width_append]
    rw [Nat.add_assoc] at hrest
    refine .more (child?_markup hg terminator opening opener markup (by omega) pos _) ?_ hrest
    simp only [List.length_append]
    omega
  | braces braces rest =>
    simp only [Items.text, width_append] at hsize
    have hrest := steps_children hg terminator opening opener hend rest (by omega)
      (pos + width braces.text)
    have hlength := length_pos_of_head braces.head
    simp only [Items.text, Items.trees, utf8_append, List.append_assoc, width_append]
    rw [Nat.add_assoc] at hrest
    refine .more (child?_braces hg terminator opening opener braces (by omega) pos _) ?_ hrest
    simp only [List.length_append]
    omega
end

/-! ## Tags -/

theorem children_append {g : Nested} {size : Nat} (hg : Reads g size) (terminator : Terminator)
    (opening : Span) (opener : String) {tail : Bytes} (hend : EndsChildren terminator tail)
    (children : Children) (hsize : width children.text ≤ size) (pos : Nat) :
    Parser.children g terminator opening opener ⟨pos, utf8 children.text ++ tail⟩ =
      .ok (children.trees pos) ⟨pos + width children.text, tail⟩ :=
  (steps_children hg terminator opening opener hend children hsize pos).many

theorem tag_fragment {g : Nested} {size : Nat} (hg : Reads g size) (children : Children) (gap : Gap)
    (hsize : width children.text ≤ size) (pos : Nat) (rest : Bytes) :
    tag g ⟨pos, utf8 (Markup.fragment children gap).text ++ rest⟩ =
      .ok ((Markup.fragment children gap).tree pos)
        ⟨pos + width (Markup.fragment children gap).text, rest⟩ := by
  have hcomment := (Markup.fragment children gap).not_startsWith utf8_openComment (by decide) pos rest
  have hclose := (Markup.fragment children gap).not_startsWith utf8_openEnd (by decide) pos rest
  have hopen : utf8 (Markup.fragment children gap).text ++ rest = utf8 "<" ++ (utf8 ">" ++
      (utf8 children.text ++ (utf8 ("</" ++ gap.text ++ ">") ++ rest))) := by
    simp [Markup.text, utf8_append]
  have hwidth : ∀ n, width "<" + (width ">" + n) = width "<>" + n :=
    fun n => (Nat.add_assoc 1 1 n).symm
  have hend : EndsChildren .endTag (utf8 ("</" ++ gap.text ++ ">") ++ rest) := by
    refine ⟨utf8 gap.text ++ (utf8 ">" ++ rest), ?_⟩
    simp only [utf8_append, List.append_assoc]
  unfold tag
  rw [bind_get, hcomment, if_neg (by decide), hclose, if_neg (by decide), bind_set, hopen,
    bump_append rfl, bind_of_ok (eat_append ..), if_pos rfl]
  unfold fragment
  rw [bind_get, bind_of_ok (children_append hg .endTag _ "<>" hend children hsize _),
    bind_of_ok (endTag_bare ..), nodeFrom_eq]
  simp only [Markup.tree, Markup.text, nodeAt, spanAt, width_append, Nat.add_assoc, hwidth]
  rfl

/-- A tag with a name is read as an element whose name is told. -/
theorem tag_named (g : Nested) (name : Name) {text : Bytes} (hname : Stops isNameByte text)
    (pos : Nat) :
    tag g ⟨pos, utf8 "<" ++ (utf8 name.text ++ text)⟩ =
      element g ⟨pos, utf8 "<" ++ (utf8 name.text ++ text)⟩
        (spanAt (pos + width "<") name.text) ⟨pos + width "<" + width name.text, text⟩ := by
  obtain ⟨b, hhead, hb⟩ := (Option.any_eq_true ..).mp name.head
  obtain ⟨bytes, hbytes⟩ : ∃ bytes, utf8 name.text = b :: bytes := List.head?_eq_some_iff.mp hhead
  have hcomment : Cursor.startsWith ⟨pos, utf8 "<" ++ (utf8 name.text ++ text)⟩ "<!--" = false := by
    have hne : (ascii '!' == b) = false := by
      rw [BEq.comm]
      exact beq_of_class hb (by decide)
    simp [Cursor.startsWith, hbytes, List.isPrefixOf, hne]
  have hclose : Cursor.startsWith ⟨pos, utf8 "<" ++ (utf8 name.text ++ text)⟩ "</" = false := by
    have hne : (ascii '/' == b) = false := by
      rw [BEq.comm]
      exact beq_of_class hb (by decide)
    simp [Cursor.startsWith, hbytes, List.isPrefixOf, hne]
  have hempty : eat ">" ⟨pos + width "<", utf8 name.text ++ text⟩ =
      .ok false ⟨pos + width "<", utf8 name.text ++ text⟩ :=
    eat_of_not (startsWith_of_stops (b := ascii '>') (by decide)
      (stops_of_head name.head (fun x hx => beq_of_class hx (by decide)) text) _)
  unfold tag
  rw [bind_get, hcomment, if_neg (by decide), hclose, if_neg (by decide), bind_set,
    bump_append rfl, bind_of_ok hempty, if_neg (by decide), bind_of_ok (name_append name hname _)]

theorem textFrom_name (name : Name) (text : Bytes) (pos : Nat) :
    Cursor.textFrom ⟨pos + width "<" + width name.text, text⟩
      (Cursor.skip ⟨pos, utf8 "<" ++ (utf8 name.text ++ text)⟩ 1) = name.text := by
  have hskip : Cursor.skip ⟨pos, utf8 "<" ++ (utf8 name.text ++ text)⟩ 1 =
      ⟨pos + width "<", utf8 name.text ++ text⟩ := skip_width pos "<" _
  rw [hskip]
  change decode ((utf8 name.text ++ text).take (pos + width "<" + width name.text -
    (pos + width "<"))) = name.text
  rw [Nat.add_sub_cancel_left, width, List.take_left, decode_utf8]

theorem stops_attrs (attributes : Attrs) (gap : Gap) {close : String} (hclose : IsTagEnd close)
    (rest : Bytes) :
    Stops isNameByte (utf8 attributes.text ++ (utf8 gap.text ++ (utf8 close ++ rest))) :=
  (endsAttr_attrs attributes gap hclose rest).name

/-- A tag that closes itself, given how its parts are read. -/
theorem tag_of_steps {g : Nested} (name : Name) {text rest : Bytes} {parts : List Tree}
    {pos stop : Nat} (hname : Stops isNameByte text)
    (hsteps : ∀ opening, Steps (attr? g opening name.text)
      ⟨pos + width "<" + width name.text, text⟩ parts ⟨stop, utf8 "/>" ++ rest⟩) :
    tag g ⟨pos, utf8 "<" ++ (utf8 name.text ++ text)⟩ =
      .ok (.node .selfClosingElement ⟨pos, stop + width "/>"⟩
        (leafAt .tagName (pos + 1) name.text :: parts)) ⟨stop + width "/>", rest⟩ := by
  rw [tag_named g name hname]
  unfold element
  rw [bind_get, textFrom_name, bind_of_ok (hsteps _).many, bind_of_ok (eat_append ..), if_pos rfl,
    nodeFrom_eq]
  rfl

theorem tag_selfClosing {g : Nested} {size : Nat} (hg : Reads g size) (name : Name)
    (attributes : Attrs) (gap : Gap) (hsize : width attributes.text ≤ size) (pos : Nat)
    (rest : Bytes) :
    tag g ⟨pos, utf8 (Markup.selfClosing name attributes gap).text ++ rest⟩ =
      .ok ((Markup.selfClosing name attributes gap).tree pos)
        ⟨pos + width (Markup.selfClosing name attributes gap).text, rest⟩ := by
  have hclose : IsTagEnd "/>" := .inr rfl
  have hsteps := fun opening => steps_attrs hg opening name.text attributes hsize gap hclose
    (pos + width "<" + width name.text) rest
  simp only [Markup.text, utf8_append, List.append_assoc]
  rw [tag_of_steps name (stops_attrs attributes gap hclose rest) hsteps]
  simp only [Markup.tree, Markup.text, nodeAt, spanAt, width_append, Nat.add_assoc]
  rfl

theorem tag_element {g : Nested} {size : Nat} (hg : Reads g size) (name : Name)
    (proper : isVoidElement name.text = false) (attributes : Attrs) (gap : Gap)
    (children : Children) (before after : Gap) (hattrs : width attributes.text ≤ size)
    (hchildren : width children.text ≤ size) (pos : Nat) (rest : Bytes) :
    tag g ⟨pos, utf8 (Markup.element name proper attributes gap children before after).text ++ rest⟩ =
      .ok ((Markup.element name proper attributes gap children before after).tree pos)
        ⟨pos + width (Markup.element name proper attributes gap children before after).text,
          rest⟩ := by
  have hclose : IsTagEnd ">" := .inl rfl
  have hopen : utf8 (Markup.element name proper attributes gap children before after).text ++ rest =
      utf8 "<" ++ (utf8 name.text ++ (utf8 attributes.text ++ (utf8 gap.text ++ (utf8 ">" ++
        (utf8 children.text ++
          (utf8 ("</" ++ before.text ++ name.text ++ after.text ++ ">") ++ rest)))))) := by
    simp only [Markup.text, utf8_append, List.append_assoc]
  have hend : EndsChildren .endTag
      (utf8 ("</" ++ before.text ++ name.text ++ after.text ++ ">") ++ rest) := by
    refine ⟨utf8 (before.text ++ name.text ++ after.text ++ ">") ++ rest, ?_⟩
    simp only [utf8_append, List.append_assoc]
  have hsteps := fun opening => steps_attrs hg opening name.text attributes hattrs gap hclose
    (pos + width "<" + width name.text) (utf8 children.text ++
      (utf8 ("</" ++ before.text ++ name.text ++ after.text ++ ">") ++ rest))
  have hslash : ∀ pos tail, eat "/>" ⟨pos, utf8 ">" ++ tail⟩ = .ok false ⟨pos, utf8 ">" ++ tail⟩ :=
    fun pos tail => eat_of_not (startsWith_of_stops (b := ascii '/') (by decide) (by simp; decide) pos)
  rw [hopen, tag_named g name (stops_attrs attributes gap hclose _)]
  unfold element
  rw [bind_get, textFrom_name, bind_of_ok (hsteps _).many, bind_of_ok (hslash ..),
    if_neg (by decide), bind_modify, bump_append rfl, proper, if_neg (by decide),
    bind_of_ok (nodeFrom_eq ..),
    bind_of_ok (children_append hg .endTag _ _ hend children hchildren _),
    bind_of_ok (endTag_named ..), nodeFrom_eq]
  simp only [Markup.tree, Markup.text, nodeAt, leafAt, spanAt, width_append, Nat.add_assoc]
  rfl

/-- A tag is read as what it is if all smaller markup and braces are. -/
theorem tag_append {g : Nested} {size : Nat} (hg : Reads g size) (markup : Markup)
    (hsize : width markup.text ≤ size + 1) (pos : Nat) (rest : Bytes) :
    tag g ⟨pos, utf8 markup.text ++ rest⟩ =
      .ok (markup.tree pos) ⟨pos + width markup.text, rest⟩ := by
  have hone : width "<" = 1 ∧ width "<>" = 2 := ⟨rfl, rfl⟩
  cases markup with
  | element name proper attributes gap children before after =>
    simp only [Markup.text, width_append, hone.1] at hsize
    exact tag_element hg name proper attributes gap children before after (by omega) (by omega) pos
      rest
  | selfClosing name attributes gap =>
    simp only [Markup.text, width_append, hone.1] at hsize
    exact tag_selfClosing hg name attributes gap (by omega) pos rest
  | fragment children gap =>
    simp only [Markup.text, width_append, hone.2] at hsize
    exact tag_fragment hg children gap (by omega) pos rest

end ZigMarkup.Surface
