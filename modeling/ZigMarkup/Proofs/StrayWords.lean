import ZigMarkup.Proofs.AttributeWords
import ZigMarkup.Proofs.ImportScan

/-!
An unreadable word among the attributes of a tag stays local. The words of a tag are read one by
one: what a word is read as depends neither on its place nor on the words around it. So a stray
word becomes one error node over its first character, and all other words are read as without it.
-/
namespace ZigMarkup.Words

open ScanM Parser Surface

/-! ## Words -/

/-- What can follow a word: nothing that an attribute would take for its own, and a byte at which
the search for the end of an unreadable attribute stops. -/
structure EndsWord (text : Bytes) : Prop extends EndsAttr text where
  stop : ∃ b rest, text = b :: rest ∧ (isAsciiBlank b || b = ascii '>' ||
    (b = ascii '/' && rest.head? = some (ascii '>'))) = true

/-- A byte that no word before it takes for its own and at which no tag ends. -/
def isWordStart (b : UInt8) : Bool :=
  !isAsciiBlank b && b != ascii '=' && b != ascii '/' && b != ascii '>'

/-- A word of a tag, with the node that it is read as at each position. -/
structure Word where
  text : String
  tree : Nat → Tree
  head : (utf8 text).head?.any isWordStart
  read : ∀ {depth : Nat} {after : String}, width (text ++ after) < depth →
    EndsWord (utf8 after) → ∀ pos, attrOrError (nested depth) ⟨pos, utf8 text ++ utf8 after⟩ =
      .ok (tree pos) ⟨pos + width text, utf8 after⟩

theorem Word.stops (w : Word) {c : UInt8} (hc : isWordStart c = false) (rest : Bytes) :
    Stops (· == c) (utf8 w.text ++ rest) :=
  stops_of_head w.head (fun _ hb => beq_of_class hb hc) rest

theorem Word.stops_blank (w : Word) (rest : Bytes) :
    Stops isAsciiBlank (utf8 w.text ++ rest) := by
  refine stops_of_head w.head (fun b hb => ?_) rest
  simp only [isWordStart, Bool.and_eq_true, Bool.not_eq_true'] at hb
  exact hb.1.1.1

theorem isWordStart_of_attrStart (b : UInt8) (h : isAttrStart b = true) : isWordStart b = true := by
  have hne : ∀ c, isAttrStart c = false → (b != c) = true := fun c hc => by
    rw [bne, beq_of_class h hc, Bool.not_false]
  rw [isWordStart, not_blank_of_attrStart b h, hne (ascii '=') (by decide),
    hne (ascii '/') (by decide), hne (ascii '>') (by decide)]
  rfl

/-- An attribute as a word. -/
def Attr.word (a : Attr) : Word where
  text := a.text
  tree pos := a.tree pos
  head := by
    obtain ⟨b, hhead, hb⟩ := (Option.any_eq_true ..).mp a.head
    rw [hhead]
    exact isWordStart_of_attrStart b hb
  read hdepth hends pos := by
    unfold attrOrError
    rw [a.read hdepth hends.toEndsAttr pos]

/-! ## Stray words -/

/-- A word that cannot begin an attribute and holds nothing at which one ends. -/
structure Junk where
  first : Char
  more : List Char
  start : first.isAlpha = false ∧ first ∉ ['_', '@', '=']
  chars : ∀ c ∈ first :: more, c ∉ [' ', '\t', '\n', '\r', '\x0c', '>', '/', '\x7b']

def Junk.text (junk : Junk) : String := String.ofList (junk.first :: junk.more)

/-- The error node of a stray word. -/
def Junk.error (junk : Junk) (pos : Nat) : Tree :=
  .error ⟨pos, pos + junk.first.utf8Size⟩ (Fault.unexpectedInTag junk.first).message

theorem isAlpha_of_identStart {c : Char} {b : UInt8} (hmem : b ∈ String.utf8EncodeChar c)
    (h : isIdentStart b = true) : c.isAlpha = true ∨ c = '_' := by
  have hall : ∀ n < 128, isIdentStart (UInt8.ofNat n) = true →
      (Char.ofNat n).isAlpha = true ∨ Char.ofNat n = '_' := by decide +kernel
  have hascii : isAscii b = true := isAscii_of_nameByte (by simp [isNameByte, isIdentByte, h])
  rw [← char_of_utf8EncodeChar (utf8EncodeChar_of_mem hmem hascii).1 hascii]
  refine hall b.toNat (by simpa [isAscii] using hascii) ?_
  rwa [UInt8.ofNat_toNat]

/-- A byte that the search for the end of an unreadable attribute passes. -/
def isPassed (b : UInt8) : Bool :=
  !isAsciiBlank b && b != ascii '>' && b != ascii '/' && b != ascii '\x7b'

theorem isPassed_of_char {c : Char}
    (hc : c ∉ [' ', '\t', '\n', '\r', '\x0c', '>', '/', '\x7b']) {b : UInt8}
    (hb : b ∈ String.utf8EncodeChar c) : isPassed b = true := by
  have hne : ∀ d ∈ [' ', '\t', '\n', '\r', '\x0c', '>', '/', '\x7b'], b ≠ ascii d := by
    intro d hd
    have hascii : [' ', '\t', '\n', '\r', '\x0c', '>', '/', '\x7b'].all
        (fun d => decide (IsAsciiChar d)) = true := by decide
    have hd' : IsAsciiChar d := of_decide_eq_true (List.all_eq_true.mp hascii d hd)
    exact hd'.ne_of_mem (ne_of_mem_of_not_mem hd hc).symm hb
  have hblank : isAsciiBlank b = false := by
    cases h : isAsciiBlank b with
    | false => rfl
    | true =>
      exfalso
      rcases blank_cases h with rfl | rfl | rfl | rfl | rfl
      · exact hne ' ' (by decide) (by decide)
      · exact hne '\t' (by decide) (by decide)
      · exact hne '\n' (by decide) (by decide)
      · exact hne '\r' (by decide) (by decide)
      · exact hne '\x0c' (by decide) (by decide)
  simp [isPassed, hblank, hne '>' (by decide), hne '/' (by decide), hne '\x7b' (by decide)]

theorem attributeRest_append {run rest : Bytes} (hrun : ∀ b ∈ run, isPassed b = true)
    (hrest : EndsWord rest) : attributeRest (run ++ rest) = run.length := by
  have hwalk : ∀ offset, walkFrom attributeRestVisit (fun _ reached => reached) 0 () offset
      (run ++ rest) = offset + run.length := by
    induction run with
    | nil =>
      intro offset
      obtain ⟨b, tail, rfl, hstop⟩ := hrest.stop
      rw [List.nil_append, walkFrom, attributeRestVisit, if_pos hstop]
      rfl
    | cons b run ih =>
      intro offset
      have hb := hrun b (List.mem_cons_self ..)
      simp only [isPassed, Bool.and_eq_true, Bool.not_eq_true', bne_iff_ne] at hb
      obtain ⟨⟨⟨hblank, hclose⟩, hslash⟩, hbrace⟩ := hb
      have hvisit : attributeRestVisit () offset b (run ++ rest) = .go 1 () := by
        simp [attributeRestVisit, hblank, hclose, hslash, hbrace]
      rw [List.cons_append, walkFrom, hvisit, List.length_cons]
      simp only [Nat.sub_self]
      rw [ih (fun x hx => hrun x (List.mem_cons_of_mem b hx)) (offset + 1)]
      omega
  rw [attributeRest, walk, hwalk, Nat.zero_add]

namespace Junk

variable (junk : Junk)

theorem utf8_text : utf8 junk.text =
    String.utf8EncodeChar junk.first ++ junk.more.flatMap String.utf8EncodeChar := by
  rw [Junk.text, utf8_ofList, List.flatMap_cons]

theorem passed {b : UInt8} (hb : b ∈ utf8 junk.text) : isPassed b = true := by
  rw [Junk.text, utf8_ofList] at hb
  obtain ⟨c, hc, hb⟩ := List.mem_flatMap.mp hb
  exact isPassed_of_char (junk.chars c hc) hb

/-- The first byte of a stray word begins neither a name nor anything else that is known. -/
theorem exists_lead : ∃ b more, utf8 junk.text = b :: more ∧ isIdentStart b = false ∧
    b ≠ ascii '@' ∧ b ≠ ascii '=' := by
  obtain ⟨lead, rest, hform, _⟩ := utf8EncodeChar_form junk.first
  have hmem : lead ∈ String.utf8EncodeChar junk.first := by simp [hform]
  have hne : ∀ c ∈ ['_', '@', '='], IsAsciiChar c → lead ≠ ascii c := fun c hc hascii =>
    hascii.ne_of_mem (ne_of_mem_of_not_mem hc junk.start.2).symm hmem
  refine ⟨lead, rest ++ junk.more.flatMap String.utf8EncodeChar, ?_, ?_,
    hne '@' (by decide) (by decide), hne '=' (by decide) (by decide)⟩
  · rw [junk.utf8_text, hform, List.cons_append]
  · rw [← Bool.not_eq_true]
    intro hstart
    rcases isAlpha_of_identStart hmem hstart with halpha | hunder
    · rw [junk.start.1] at halpha
      cases halpha
    · exact junk.start.2 (by simp [hunder])

theorem attr_fails (g : Nested) (pos : Nat) (rest : Bytes) :
    attr g ⟨pos, utf8 junk.text ++ rest⟩ =
      .error ⟨⟨pos, pos + junk.first.utf8Size⟩, .unexpectedInTag junk.first⟩
        ⟨pos, utf8 junk.text ++ rest⟩ := by
  obtain ⟨b, more, hbytes, hstart, hat, _⟩ := junk.exists_lead
  have hbrace : b ≠ ascii '\x7b' := by
    have hpassed := junk.passed (b := b) (by simp [hbytes])
    simp only [isPassed, Bool.and_eq_true, bne_iff_ne] at hpassed
    exact hpassed.2
  have hchar : headChar? (utf8 junk.text ++ rest) = some junk.first := by
    rw [junk.utf8_text, List.append_assoc, headChar?_append]
  have hname : ScanM.name ⟨pos, utf8 junk.text ++ rest⟩ =
      .ok none ⟨pos, utf8 junk.text ++ rest⟩ :=
    word_of_stops _ (by rw [hbytes]; exact stops_cons.mpr hstart) pos
  have hpeek : Cursor.peek ⟨pos, utf8 junk.text ++ rest⟩ = some b :=
    peek_append (by rw [hbytes]; rfl) pos rest
  unfold attr
  rw [bind_get, hpeek]
  dsimp only
  rw [if_neg hat, if_neg hbrace, bind_of_ok hname]
  dsimp only
  rw [hchar]
  rfl

/-- A stray word is passed as a whole. -/
theorem attrOrError_eq (g : Nested) (pos : Nat) {rest : Bytes} (hrest : EndsWord rest) :
    attrOrError g ⟨pos, utf8 junk.text ++ rest⟩ =
      .ok (junk.error pos) ⟨pos + width junk.text, rest⟩ := by
  have hsize := junk.first.utf8Size_pos
  have hfirst : (String.utf8EncodeChar junk.first).length = junk.first.utf8Size :=
    String.length_utf8EncodeChar junk.first
  -- Reading goes on behind the first character, since nothing of the word was read before it failed.
  have hresume : max (max (pos + junk.first.utf8Size) (pos + 1)) pos - pos =
      (String.utf8EncodeChar junk.first).length := by omega
  have hadvance : Cursor.advance ⟨pos, utf8 junk.text ++ rest⟩
      (String.utf8EncodeChar junk.first).length = ⟨pos + (String.utf8EncodeChar junk.first).length,
        junk.more.flatMap String.utf8EncodeChar ++ rest⟩ := by
    rw [junk.utf8_text, List.append_assoc, Cursor.advance, Nat.min_eq_left (by simp), skip_append]
  have hmore : attributeRest (junk.more.flatMap String.utf8EncodeChar ++ rest) =
      (junk.more.flatMap String.utf8EncodeChar).length :=
    attributeRest_append (fun b hb => junk.passed (by simp [junk.utf8_text, hb])) hrest
  unfold attrOrError
  rw [junk.attr_fails g pos rest]
  dsimp only
  rw [hresume, hadvance, hmore, skip_append, Nat.add_assoc, ← List.length_append, ← junk.utf8_text]
  rfl

/-- A stray word as a word. -/
def word : Word where
  text := junk.text
  tree := junk.error
  head := by
    obtain ⟨b, more, hbytes, _, _, hequals⟩ := junk.exists_lead
    have hpassed := junk.passed (b := b) (by simp [hbytes])
    simp only [isPassed, Bool.and_eq_true] at hpassed
    simp [hbytes, isWordStart, hpassed.1.1.1, hequals, bne_iff_ne.mp hpassed.1.1.2,
      bne_iff_ne.mp hpassed.1.2]
  read _ hends pos := junk.attrOrError_eq _ pos hends

end Junk

/-! ## The words of a tag -/

/-- Words one space apart, with a space before the first. -/
def spaced : List String → String
  | [] => ""
  | word :: words => " " ++ word ++ spaced words

/-- What words behind each other are read as, from the space before the first on. -/
def wordTrees (pos : Nat) : List Word → List Tree
  | [] => []
  | w :: words => w.tree (pos + 1) :: wordTrees (pos + 1 + width w.text) words

theorem spaced_append (words more : List String) :
    spaced (words ++ more) = spaced words ++ spaced more := by
  induction words with
  | nil => rw [List.nil_append, spaced, String.empty_append]
  | cons word words ih => simp only [List.cons_append, spaced, ih, String.append_assoc]

theorem width_spaced_cons (word : String) (words : List String) :
    width (spaced (word :: words)) = 1 + width word + width (spaced words) := by
  rw [spaced, width_append, width_append]
  rfl

theorem wordTrees_append (pos : Nat) (words more : List Word) :
    wordTrees pos (words ++ more) = wordTrees pos words ++
      wordTrees (pos + width (spaced (words.map Word.text))) more := by
  induction words generalizing pos with
  | nil => rfl
  | cons w words ih =>
    rw [List.cons_append, wordTrees, wordTrees, ih, List.map_cons, width_spaced_cons,
      List.cons_append]
    simp only [Nat.add_assoc]

theorem endsWord_tagEnd (after : String) : EndsWord (utf8 ("/>" ++ after)) := by
  rw [utf8_append]
  refine ⟨⟨by simp; decide, .none, _, rfl, by simp; decide, by simp; decide⟩, ?_⟩
  exact ⟨ascii '/', ascii '>' :: utf8 after, by simp, rfl⟩

theorem endsWord_words (words : List Word) (after : String) :
    EndsWord (utf8 (spaced (words.map Word.text) ++ ("/>" ++ after))) := by
  cases words with
  | nil =>
    rw [List.map_nil, spaced, String.empty_append]
    exact endsWord_tagEnd after
  | cons w words =>
    simp only [List.map_cons, spaced, utf8_append, List.append_assoc]
    exact ⟨⟨oneSpace.stops not_nameByte_of_blank _, oneSpace.toGap, _, rfl, w.stops_blank _,
      w.stops (by decide) _⟩, ascii ' ', _, rfl, rfl⟩

/-- A node further on is the node of the word further on. -/
theorem Word.tree_shift (w : Word) (pos k : Nat) : (w.tree pos).shift k = w.tree (pos + k) := by
  have hdepth : width (w.text ++ "/>") < width (w.text ++ "/>") + 1 := Nat.lt_succ_self _
  have hread := w.read hdepth (endsWord_tagEnd "")
  -- The same production reads the word at both positions, so the two nodes are compared there.
  have hshift : attrOrError (nested (width (w.text ++ "/>") + 1))
      (Cursor.shift k ⟨pos, utf8 w.text ++ utf8 "/>"⟩) = shiftResult k (Tree.shift k) _ :=
    shifts_attrOrError (nested_shifts k _) _
  rw [Cursor.shift, hread, hread] at hshift
  exact (EStateM.Result.ok.inj hshift).1.symm

theorem wordTrees_shift (words : List Word) (pos k : Nat) :
    (wordTrees pos words).map (Tree.shift k) = wordTrees (pos + k) words := by
  induction words generalizing pos with
  | nil => rfl
  | cons w words ih =>
    rw [wordTrees, List.map_cons, w.tree_shift, ih, wordTrees, Nat.add_right_comm pos 1 k,
      Nat.add_right_comm (pos + 1) _ k, Nat.add_right_comm pos 1 k]

theorem attr?_word (w : Word) {depth : Nat} {after : String}
    (hdepth : width (w.text ++ after) < depth) (hends : EndsWord (utf8 after)) (opening : Span)
    (name : String) (pos : Nat) :
    attr? (nested depth) opening name ⟨pos, utf8 " " ++ (utf8 w.text ++ utf8 after)⟩ =
      .ok (some (w.tree (pos + 1))) ⟨pos + 1 + width w.text, utf8 after⟩ :=
  attr?_of_read opening name oneSpace (w.stops_blank _) (w.stops (by decide) _)
    (w.stops (by decide) _) (append_ne_nil_of_head w.head _) (w.read hdepth hends (pos + 1))

/-- One word after the other is read, up to the end of the tag. -/
theorem steps_words (words : List Word) {depth : Nat} {after : String}
    (hdepth : width (spaced (words.map Word.text) ++ ("/>" ++ after)) < depth) (opening : Span)
    (name : String) (pos : Nat) :
    Steps (attr? (nested depth) opening name)
      ⟨pos, utf8 (spaced (words.map Word.text)) ++ (utf8 "/>" ++ utf8 after)⟩
      (wordTrees pos words)
      ⟨pos + width (spaced (words.map Word.text)), utf8 "/>" ++ utf8 after⟩ := by
  induction words generalizing pos with
  | nil => exact .done (attr?_done (nested depth) opening name .none (.inr rfl) pos (utf8 after))
  | cons w words ih =>
    simp only [List.map_cons, width_append, width_spaced_cons] at hdepth
    have hsize : width (w.text ++ (spaced (words.map Word.text) ++ ("/>" ++ after))) < depth := by
      simp only [width_append]
      omega
    have hfirst := attr?_word w hsize (endsWord_words words after) opening name pos
    have hrest := ih (by simp only [width_append]; omega) (pos + 1 + width w.text)
    rw [List.map_cons, width_spaced_cons, wordTrees]
    simp only [spaced, utf8_append, List.append_assoc] at hfirst ⊢
    simp only [Nat.add_assoc] at hfirst hrest ⊢
    refine .more hfirst ?_ hrest
    have hspace : (utf8 " ").length = 1 := rfl
    simp only [List.length_append, hspace]
    omega

/-! ## The whole source -/

/-- A tag with words one space apart. -/
def tagText (name : Name) (words : List String) : String := "<" ++ name.text ++ spaced words ++ "/>"

/-- A source that holds nothing but a tag. -/
def tagSource (name : Name) (words : List String) : String := "(" ++ tagText name words ++ ")"

/-- The syntax tree of such a source, whose tag has some parts behind its name. -/
def tagFile (name : Name) (words : List String) (parts : List Tree) : Tree :=
  nodeAt .sourceFile 0 (tagSource name words) [nodeAt .templateRoot 0 (tagSource name words)
    [nodeAt .selfClosingElement 1 (tagText name words) (leafAt .tagName 2 name.text :: parts)]]

theorem tag_words (name : Name) (words : List Word) {depth : Nat} {after : String}
    (hdepth : width (tagText name (words.map Word.text) ++ after) ≤ depth) (pos : Nat) :
    tag (nested depth) ⟨pos, utf8 (tagText name (words.map Word.text)) ++ utf8 after⟩ =
      .ok (nodeAt .selfClosingElement pos (tagText name (words.map Word.text))
          (leafAt .tagName (pos + 1) name.text :: wordTrees (pos + 1 + width name.text) words))
        ⟨pos + width (tagText name (words.map Word.text)), utf8 after⟩ := by
  have hsize : width (spaced (words.map Word.text) ++ ("/>" ++ after)) < depth := by
    have hone : width "<" = 1 := rfl
    simp only [tagText, width_append] at hdepth ⊢
    omega
  have hname := (endsWord_words words after).name
  have hsteps := fun opening => steps_words words hsize opening name.text
    (pos + width "<" + width name.text)
  simp only [utf8_append] at hname
  simp only [tagText, utf8_append, List.append_assoc]
  rw [tag_of_steps name hname hsteps]
  simp only [nodeAt, spanAt, width_append, Nat.add_assoc]
  rfl

/-- A source that is one template. -/
theorem parse_of_root {source : Bytes} {t : Tree} (hbegins : beginsTemplate source = true)
    (hroot : templateRoot (nested (source.length + 1)) ⟨0, source⟩ = .ok t ⟨source.length, []⟩) :
    parse source = .node .sourceFile ⟨0, source.length⟩ [t] := by
  have hfound : Cursor.nextTemplate ⟨0, source⟩ = (true, ⟨0, source⟩) := by
    rw [Cursor.nextTemplate, nextTemplate?_begins hbegins]
    rfl
  have hread : rootOrError (nested (source.length + 1)) ⟨0, source⟩ = (t, ⟨source.length, []⟩) := by
    rw [rootOrError, hroot]
  have hdone : ∀ g turns, fileItems g turns ⟨source.length, []⟩ = [] := by
    intro g turns
    cases turns with
    | zero => rfl
    | succ turns =>
      have hnone : Cursor.nextTemplate ⟨source.length, []⟩ = (false, ⟨source.length, []⟩) := rfl
      rw [fileItems, hnone]
      simp
  rw [parse, Cursor.ofBytes, fileItems, hfound]
  simp [hread, hdone]

theorem beginsTemplate_tagSource (name : Name) (words : List String) :
    beginsTemplate (utf8 (tagSource name words)) = true := by
  obtain ⟨b, hhead, hb⟩ := (Option.any_eq_true ..).mp name.head
  obtain ⟨more, hmore⟩ := List.head?_eq_some_iff.mp hhead
  have hdrop : ∀ tail, (ascii '<' :: tail).dropWhile isAsciiBlank = ascii '<' :: tail :=
    fun _ => rfl
  simp only [tagSource, tagText, utf8_append, utf8_openParen, utf8_open, hmore, List.append_assoc,
    List.cons_append, List.nil_append, beginsTemplate, hdrop, hb, Bool.or_true]
  rfl

/-- A tag with some words is read as these words. -/
theorem parse_words (name : Name) (words : List Word) :
    parse (utf8 (tagSource name (words.map Word.text))) =
      tagFile name (words.map Word.text) (wordTrees (2 + width name.text) words) := by
  have hone : width "(" = 1 ∧ width ")" = 1 := ⟨rfl, rfl⟩
  have hgap : utf8 Gap.none.text = [] ∧ width Gap.none.text = 0 := ⟨rfl, rfl⟩
  have hsource : utf8 (tagSource name (words.map Word.text)) =
      utf8 "(" ++ (utf8 (tagText name (words.map Word.text)) ++ utf8 ")") := by
    simp only [tagSource, utf8_append, List.append_assoc]
  have hsize : width (tagSource name (words.map Word.text)) =
      1 + width (tagText name (words.map Word.text)) + 1 := by
    rw [tagSource, width_append, width_append, hone.1, hone.2]
  have hdepth : width (tagText name (words.map Word.text) ++ ")") ≤
      width (tagSource name (words.map Word.text)) := by
    rw [hsize, width_append, hone.2]
    omega
  have hopen : (utf8 (tagText name (words.map Word.text))).head? = some (ascii '<') := by
    simp [tagText, utf8_append]
  have hhead : (utf8 (tagText name (words.map Word.text)) ++ utf8 ")").head? =
      some (ascii '<') := by
    rw [List.head?_append, hopen, Option.some_or]
  have hless : (utf8 ")").length <
      (utf8 (tagText name (words.map Word.text)) ++ utf8 ")").length := by
    rw [List.length_append]
    exact Nat.lt_add_of_pos_left (length_pos_of_head hopen)
  have hroot := @templateRoot_of_tag (nested (width (tagSource name (words.map Word.text)) + 1))
    .none .none _ [] hhead 0 _ _ (tag_words name words hdepth 1) hless
  rw [hgap.1, hgap.2, hone.2, Nat.add_zero, List.nil_append, ← hsource, ← hsize] at hroot
  rw [parse_of_root (beginsTemplate_tagSource name _) hroot]
  simp only [tagFile, nodeAt, spanAt, Nat.zero_add]
  rfl

/-! ## Errors -/

theorem preorderAll_append (ts us : List Tree) :
    Tree.preorderAll (ts ++ us) = Tree.preorderAll ts ++ Tree.preorderAll us := by
  induction ts with
  | nil => rw [List.nil_append, Tree.preorderAll, List.nil_append]
  | cons t ts ih => rw [List.cons_append, Tree.preorderAll, Tree.preorderAll, ih, List.append_assoc]

theorem filter_preorderAll {ts : List Tree} (h : CleanAll ts) :
    (Tree.preorderAll ts).filter Tree.isError = [] := by
  refine List.filter_eq_nil_iff.mpr fun u hu => ?_
  obtain ⟨t, ht, hu⟩ := Tree.mem_preorderAll.mp hu
  simpa [Tree.isError] using h t ht u hu

theorem tagFile_errors (name : Name) (words : List String) (parts : List Tree) :
    (tagFile name words parts).errors =
      ((Tree.preorderAll parts).filter Tree.isError).mergeSort
        (fun a b => a.span.start ≤ b.span.start) := by
  simp [Tree.errors, tagFile, nodeAt, leafAt, Tree.node, Tree.leaf, Tree.preorder, Tree.preorderAll,
    Tree.isError]

theorem errors_tagFile_clean (name : Name) (words : List String) {parts : List Tree}
    (h : CleanAll parts) : (tagFile name words parts).errors = [] := by
  rw [tagFile_errors, filter_preorderAll h, List.mergeSort_nil]

theorem errors_tagFile_stray (name : Name) (words : List String) {front back : List Tree}
    (hfront : CleanAll front) (hback : CleanAll back) (junk : Junk) (pos : Nat) :
    (tagFile name words (front ++ junk.error pos :: back)).errors = [junk.error pos] := by
  have herror : (junk.error pos).preorder.filter Tree.isError = [junk.error pos] := rfl
  rw [tagFile_errors, preorderAll_append, Tree.preorderAll, List.filter_append, List.filter_append,
    filter_preorderAll hfront, filter_preorderAll hback, herror, List.nil_append, List.append_nil,
    List.mergeSort_singleton]

theorem wordTrees_clean (attrs : List Attr) (pos : Nat) :
    CleanAll (wordTrees pos (attrs.map Attr.word)) := by
  induction attrs generalizing pos with
  | nil => exact cleanAll_nil
  | cons a attrs ih => exact cleanAll_cons.mpr ⟨a.tree_clean (pos + 1), ih _⟩

theorem cleanAll_shift {ts : List Tree} (h : CleanAll ts) (k : Nat) :
    CleanAll (ts.map (Tree.shift k)) := by
  intro u hu
  obtain ⟨t, ht, rfl⟩ := List.mem_map.mp hu
  exact clean_shift (h t ht) k

theorem Attr.tree_span (a : Attr) (pos : Nat) : (a.tree pos).span = spanAt pos a.text := by
  cases a <;> rfl

theorem wordTrees_text {source : Bytes} (attrs : List Attr) {pos : Nat}
    (h : Located source pos (spaced (attrs.map Attr.text))) :
    (wordTrees pos (attrs.map Attr.word)).map (·.text source) = attrs.map Attr.text := by
  induction attrs generalizing pos with
  | nil => rfl
  | cons a attrs ih =>
    simp only [List.map_cons, spaced, located_append] at h
    obtain ⟨⟨_, htext⟩, hrest⟩ := h
    rw [width_append, ← Nat.add_assoc] at hrest
    simp only [List.map_cons, wordTrees]
    refine List.cons_eq_cons.mpr ⟨?_, ih hrest⟩
    change (a.tree (pos + 1)).span.text source = a.text
    rw [a.tree_span]
    exact htext.text

theorem located_words (name : Name) (words : List String) :
    Located (utf8 (tagSource name words)) (2 + width name.text) (spaced words) := by
  have h : Located (utf8 (tagSource name words)) 0 ("(" ++ tagText name words ++ ")") :=
    List.prefix_refl _
  simp only [tagText, located_append] at h
  have hwords := h.1.2.1.2
  have hone : width "(" = 1 ∧ width "<" = 1 := ⟨rfl, rfl⟩
  rw [width_append, hone.1, hone.2] at hwords
  rwa [show 2 + width name.text = 0 + 1 + (1 + width name.text) by omega]

theorem map_text_word (attrs : List Attr) :
    (attrs.map Attr.word).map Word.text = attrs.map Attr.text := List.map_map ..

theorem parse_attrs (name : Name) (before after : List Attr) :
    parse (utf8 (tagSource name ((before ++ after).map Attr.text))) =
      tagFile name ((before ++ after).map Attr.text)
        (wordTrees (2 + width name.text) (before.map Attr.word) ++
          wordTrees (2 + width name.text + width (spaced (before.map Attr.text)))
            (after.map Attr.word)) := by
  have hparse := parse_words name ((before ++ after).map Attr.word)
  rwa [map_text_word, List.map_append (f := Attr.word), wordTrees_append, map_text_word] at hparse

/-- The words of a tag with a stray one among them. -/
def strewn (before : List Attr) (junk : Junk) (after : List Attr) : List String :=
  before.map Attr.text ++ junk.text :: after.map Attr.text

/-- Where the word behind some attributes begins. -/
def wordStart (name : Name) (before : List Attr) : Nat :=
  width ("(<" ++ name.text ++ spaced (before.map Attr.text) ++ " ")

theorem parse_strewn (name : Name) (before after : List Attr) (junk : Junk) :
    parse (utf8 (tagSource name (strewn before junk after))) =
      tagFile name (strewn before junk after)
        (wordTrees (2 + width name.text) (before.map Attr.word) ++
          junk.error (wordStart name before) ::
            (wordTrees (2 + width name.text + width (spaced (before.map Attr.text)))
              (after.map Attr.word)).map (Tree.shift (width (" " ++ junk.text)))) := by
  have hparse := parse_words name (before.map Attr.word ++ junk.word :: after.map Attr.word)
  have hplace : wordStart name before =
      2 + width name.text + width (spaced (before.map Attr.text)) + 1 := by
    simp only [wordStart, width_append]
    rfl
  rw [wordTrees_append, wordTrees, List.map_append, List.map_cons, map_text_word, map_text_word]
    at hparse
  rw [hplace, wordTrees_shift, width_append, ← Nat.add_assoc]
  exact hparse

/-- A stray word among the attributes of a tag is one error node over its first character, in its
place among the parts of the tag. The other parts are the nodes that they are without it, one over
the text of each attribute; those behind the word are moved on by the word and its space. -/
theorem stray_word_stays_local (name : Name) (before after : List Attr) (junk : Junk) :
    ∃ front back : List Tree,
      front.map (·.text (utf8 (tagSource name ((before ++ after).map Attr.text)))) =
        before.map Attr.text ∧
      back.map (·.text (utf8 (tagSource name ((before ++ after).map Attr.text)))) =
        after.map Attr.text ∧
      parse (utf8 (tagSource name ((before ++ after).map Attr.text))) =
        tagFile name ((before ++ after).map Attr.text) (front ++ back) ∧
      (parse (utf8 (tagSource name ((before ++ after).map Attr.text)))).errors = [] ∧
      parse (utf8 (tagSource name (strewn before junk after))) =
        tagFile name (strewn before junk after) (front ++ junk.error (wordStart name before) ::
          back.map (Tree.shift (width (" " ++ junk.text)))) ∧
      (parse (utf8 (tagSource name (strewn before junk after)))).errors =
        [junk.error (wordStart name before)] := by
  have hlocated := located_words name ((before ++ after).map Attr.text)
  rw [List.map_append, spaced_append, located_append, ← List.map_append] at hlocated
  have hfront := wordTrees_clean before (2 + width name.text)
  have hback := wordTrees_clean after
    (2 + width name.text + width (spaced (before.map Attr.text)))
  have hplain := parse_attrs name before after
  have hstrewn := parse_strewn name before after junk
  refine ⟨_, _, wordTrees_text before hlocated.1, wordTrees_text after hlocated.2, hplain, ?_,
    hstrewn, ?_⟩
  · rw [hplain, errors_tagFile_clean name _ (cleanAll_append.mpr ⟨hfront, hback⟩)]
  · rw [hstrewn, errors_tagFile_stray name _ hfront (cleanAll_shift hback _)]

def restSpread : Enclosed (Gap.none.text ++ "..") where
  front := ""
  core := "rest"
  back := ""
  frontBlank := by simp
  backBlank := by simp
  tight := ⟨by decide, by decide⟩
  closed _ := rfl

def itemHole : Enclosed "" where
  front := " "
  core := "item"
  back := ""
  frontBlank := oneSpace.toGap.isBlank
  backBlank := by simp
  tight := ⟨by decide, by decide⟩
  closed _ := rfl

def quoteJunk : Junk := ⟨'"', ['é', '=', ')', '\x60'], by decide, by simp⟩

def paragraph : Name := ⟨"p", by decide, by decide⟩

def attrsBefore : List Attr :=
  [.named ⟨"to", by decide, by decide⟩
      (some ⟨oneSpace.toGap, oneSpace.toGap, .string quotedLetter⟩),
    .spread .none restSpread]

def attrsAfter : List Attr :=
  [.named ⟨"n", by decide, by decide⟩
      (some ⟨.none, .none, .braces (.ofSurface (.code .none itemExpr .none))⟩),
    .named ⟨"c", by decide, by decide⟩ (some ⟨.none, .none, .template none [(itemHole, none)]⟩),
    .builtin ⟨"key", by decide, by decide⟩ none]

theorem stray_word_stays_local_quote :
    (parse (utf8 ("(<p to = \"a\" \x7b..rest\x7d \"é=)\x60 n=\x7bitem\x7d " ++
      "c=\x60\x7b item\x7d\x60 @key/>)"))).errors =
        [.error ⟨22, 23⟩ "unexpected \x60\"\x60 in tag"] := by
  have htext : tagSource paragraph (strewn attrsBefore quoteJunk attrsAfter) =
      "(<p to = \"a\" \x7b..rest\x7d \"é=)\x60 n=\x7bitem\x7d " ++
        "c=\x60\x7b item\x7d\x60 @key/>)" := by
    decide +kernel
  have hplace : wordStart paragraph attrsBefore = 22 := by decide +kernel
  obtain ⟨front, back, _, _, _, _, _, herrors⟩ :=
    stray_word_stays_local paragraph attrsBefore attrsAfter quoteJunk
  rw [htext, hplace] at herrors
  exact herrors

end ZigMarkup.Words
