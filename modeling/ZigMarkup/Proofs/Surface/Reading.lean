import ZigMarkup.Proofs.Scan
import ZigMarkup.Proofs.Surface.Trees

/-!
How the scanner reads the parts of a surface template that hold no others. A cursor with a
part ahead ends behind that part, whatever follows, as long as what follows cannot be taken
for more of it.
-/
namespace ZigMarkup

theorem utf8_append (s t : String) : utf8 (s ++ t) = utf8 s ++ utf8 t := by
  simp [utf8, String.toList_append]

theorem byteArray_utf8 (s : String) : (⟨(utf8 s).toArray⟩ : ByteArray) = s.toByteArray := by
  have h : s.toByteArray = s.toList.utf8Encode := by
    rw [← String.toByteArray_ofList, String.ofList_toList]
  rw [h, List.utf8Encode]
  apply ByteArray.ext
  simp [utf8]

theorem decode_utf8 (s : String) : decode (utf8 s) = s := by
  unfold decode
  rw [byteArray_utf8, String.fromUTF8?, dif_pos s.isValidUTF8]
  rfl

/-- Text is decoded whole or not at all. -/
theorem decode_cases (bytes : Bytes) : decode bytes = "" ∨ utf8 (decode bytes) = bytes := by
  unfold decode
  rw [String.fromUTF8?]
  split
  · next hvalid =>
    right
    have hbytes := byteArray_utf8 (String.fromUTF8 ⟨bytes.toArray⟩ hvalid)
    exact congrArg (fun b => b.data.toList) hbytes
  · exact Or.inl rfl

theorem utf8_ne_nil {s : String} (h : s ≠ "") : utf8 s ≠ [] := by
  intro hnil
  refine h ?_
  rw [← decode_utf8 s, hnil]
  rfl

namespace Surface

open ScanM Parser

@[simp] theorem width_append (s t : String) : width (s ++ t) = width s + width t := by
  simp [width, utf8_append]

/-! ## Punctuation and keywords -/

@[simp] theorem utf8_empty : utf8 "" = [] := by decide
@[simp] theorem utf8_open : utf8 "<" = [ascii '<'] := by decide
@[simp] theorem utf8_close : utf8 ">" = [ascii '>'] := by decide
@[simp] theorem utf8_closeEmpty : utf8 "/>" = [ascii '/', ascii '>'] := by decide
@[simp] theorem utf8_openEnd : utf8 "</" = [ascii '<', ascii '/'] := by decide
@[simp] theorem utf8_openFragment : utf8 "<>" = [ascii '<', ascii '>'] := by decide
@[simp] theorem utf8_openComment : utf8 "<!--" = [ascii '<', ascii '!', ascii '-', ascii '-'] := by
  decide
@[simp] theorem utf8_openBrace : utf8 "\x7b" = [ascii '\x7b'] := by decide
@[simp] theorem utf8_closeBrace : utf8 "\x7d" = [ascii '\x7d'] := by decide
@[simp] theorem utf8_openParen : utf8 "(" = [ascii '('] := by decide
@[simp] theorem utf8_closeParen : utf8 ")" = [ascii ')'] := by decide
@[simp] theorem utf8_quote : utf8 "\"" = [ascii '"'] := by decide
@[simp] theorem utf8_backquote : utf8 "\x60" = [ascii '\x60'] := by decide
@[simp] theorem utf8_bar : utf8 "|" = [ascii '|'] := by decide
@[simp] theorem utf8_colon : utf8 ":" = [ascii ':'] := by decide
@[simp] theorem utf8_comma : utf8 "," = [ascii ','] := by decide
@[simp] theorem utf8_equals : utf8 "=" = [ascii '='] := by decide
@[simp] theorem utf8_arrow : utf8 "=>" = [ascii '=', ascii '>'] := by decide
@[simp] theorem utf8_at : utf8 "@" = [ascii '@'] := by decide
@[simp] theorem utf8_dot : utf8 "." = [ascii '.'] := by decide
@[simp] theorem utf8_dots : utf8 ".." = [ascii '.', ascii '.'] := by decide
@[simp] theorem utf8_if : utf8 "if" = [ascii 'i', ascii 'f'] := by decide
@[simp] theorem utf8_for : utf8 "for" = [ascii 'f', ascii 'o', ascii 'r'] := by decide
@[simp] theorem utf8_else : utf8 "else" = [ascii 'e', ascii 'l', ascii 's', ascii 'e'] := by decide
@[simp] theorem utf8_while :
    utf8 "while" = [ascii 'w', ascii 'h', ascii 'i', ascii 'l', ascii 'e'] := by decide
@[simp] theorem utf8_switch :
    utf8 "switch" = [ascii 's', ascii 'w', ascii 'i', ascii 't', ascii 'c', ascii 'h'] := by decide

/-! ## What stops a run of bytes -/

/-- The text does not go on with a byte of the class. -/
def Stops (p : UInt8 → Bool) (text : Bytes) : Prop := ∀ b ∈ text.head?, p b = false

@[simp] theorem stops_nil (p : UInt8 → Bool) : Stops p [] := by simp [Stops]

@[simp] theorem stops_cons {p : UInt8 → Bool} {b : UInt8} {rest : Bytes} :
    Stops p (b :: rest) ↔ p b = false := by simp [Stops]

theorem takeWhile_append_of_stops {p : UInt8 → Bool} {run rest : Bytes}
    (hrun : ∀ b ∈ run, p b = true) (hrest : Stops p rest) :
    (run ++ rest).takeWhile p = run := by
  rw [List.takeWhile_append_of_pos hrun]
  cases rest with
  | nil => simp
  | cons b rest => simp [stops_cons.mp hrest]

theorem skip_append (pos : Nat) (run rest : Bytes) :
    (⟨pos, run ++ rest⟩ : Cursor).skip run.length = ⟨pos + run.length, rest⟩ := by
  simp [Cursor.skip]

theorem skip_width (pos : Nat) (text : String) (rest : Bytes) :
    (⟨pos, utf8 text ++ rest⟩ : Cursor).skip (width text) = ⟨pos + width text, rest⟩ :=
  skip_append pos (utf8 text) rest

theorem skipWhile_append {p : UInt8 → Bool} {run rest : Bytes} (hrun : ∀ b ∈ run, p b = true)
    (hrest : Stops p rest) (pos : Nat) :
    (⟨pos, run ++ rest⟩ : Cursor).skipWhile p = ⟨pos + run.length, rest⟩ := by
  rw [Cursor.skipWhile, takeWhile_append_of_stops hrun hrest, skip_append]

theorem Gap.bytes_blank (gap : Gap) : ∀ b ∈ utf8 gap.text, isAsciiBlank b = true := by
  have hall : [' ', '\t', '\n', '\r', '\x0c'].all
      (fun c => (String.utf8EncodeChar c).all isAsciiBlank) = true := by decide
  intro b hb
  obtain ⟨c, hc, hb⟩ := List.mem_flatMap.mp hb
  exact List.all_eq_true.mp (List.all_eq_true.mp hall c (gap.blank c hc)) b hb

theorem stops_of_blank {p : UInt8 → Bool} (hp : ∀ b, isAsciiBlank b = true → p b = false)
    (gap : Gap) {rest : Bytes} (hrest : Stops p rest) : Stops p (utf8 gap.text ++ rest) := by
  cases htext : utf8 gap.text with
  | nil => exact hrest
  | cons b bytes =>
    have hb := gap.bytes_blank b (by simp [htext])
    exact stops_cons.mpr (hp b hb)

theorem Space.stops (space : Space) {p : UInt8 → Bool}
    (hp : ∀ b, isAsciiBlank b = true → p b = false) (rest : Bytes) :
    Stops p (utf8 space.text ++ rest) := by
  cases htext : utf8 space.text with
  | nil => exact absurd htext (utf8_ne_nil space.nonempty)
  | cons b bytes =>
    have hb := space.bytes_blank b (by simp [htext])
    exact stops_cons.mpr (hp b hb)

theorem blank_cases {b : UInt8} (h : isAsciiBlank b = true) :
    b = 0x20 ∨ b = 0x09 ∨ b = 0x0A ∨ b = 0x0D ∨ b = 0x0C := by
  simpa [isAsciiBlank, or_assoc] using h

theorem skipBlanks_gap (gap : Gap) {rest : Bytes} (hrest : Stops isAsciiBlank rest) (pos : Nat) :
    (⟨pos, utf8 gap.text ++ rest⟩ : Cursor).skipBlanks = ⟨pos + width gap.text, rest⟩ :=
  skipWhile_append gap.bytes_blank hrest pos

theorem skipBlanks_of_stops {text : Bytes} (h : Stops isAsciiBlank text) (pos : Nat) :
    (⟨pos, text⟩ : Cursor).skipBlanks = ⟨pos, text⟩ := by
  have hnone : ∀ b ∈ ([] : Bytes), isAsciiBlank b = true := by simp
  exact skipWhile_append hnone h pos

theorem not_identStart_of_blank (b : UInt8) (h : isAsciiBlank b = true) : isIdentStart b = false := by
  rcases blank_cases h with rfl | rfl | rfl | rfl | rfl <;> decide

theorem not_nameByte_of_blank (b : UInt8) (h : isAsciiBlank b = true) : isNameByte b = false := by
  rcases blank_cases h with rfl | rfl | rfl | rfl | rfl <;> decide

theorem not_identByte_of_blank (b : UInt8) (h : isAsciiBlank b = true) : isIdentByte b = false := by
  rcases blank_cases h with rfl | rfl | rfl | rfl | rfl <;> decide

theorem not_blank_of_identStart (b : UInt8) (h : isIdentStart b = true) : isAsciiBlank b = false := by
  cases hb : isAsciiBlank b with
  | false => rfl
  | true => rw [not_identStart_of_blank b hb] at h; cases h

theorem beq_of_class {p : UInt8 → Bool} {b c : UInt8} (h : p b = true) (hc : p c = false) :
    (b == c) = false := by
  cases hb : b == c with
  | false => rfl
  | true =>
    obtain rfl := beq_iff_eq.mp hb
    rw [h] at hc
    cases hc

/-- What begins with a byte of one class stops a run of a class apart from it. -/
theorem stops_of_head {p q : UInt8 → Bool} {text : Bytes} (hhead : text.head?.any p)
    (hpq : ∀ b, p b = true → q b = false) (rest : Bytes) : Stops q (text ++ rest) := by
  cases text with
  | nil => cases hhead
  | cons b bytes => exact stops_cons.mpr (hpq b hhead)

/-! ## Steps of the scanner -/

theorem bind_get {α : Type} (f : Cursor → ScanM α) (c : Cursor) :
    ((get : ScanM Cursor) >>= f) c = f c c := rfl

theorem bind_set {α : Type} (f : PUnit → ScanM α) (next c : Cursor) :
    ((set next : ScanM PUnit) >>= f) c = f ⟨⟩ next := rfl

theorem bind_modify {α : Type} (f : PUnit → ScanM α) (move : Cursor → Cursor) (c : Cursor) :
    ((modify move : ScanM PUnit) >>= f) c = f ⟨⟩ (move c) := rfl

theorem bind_skipBlanks {α : Type} (f : Unit → ScanM α) (c : Cursor) :
    (skipBlanks >>= f) c = f () c.skipBlanks := rfl

theorem startsWith_append (text : String) (pos : Nat) (rest : Bytes) :
    Cursor.startsWith ⟨pos, utf8 text ++ rest⟩ text = true :=
  List.isPrefixOf_iff_prefix.mpr (List.prefix_append _ _)

theorem eat_append (text : String) (pos : Nat) (rest : Bytes) :
    eat text ⟨pos, utf8 text ++ rest⟩ = .ok true ⟨pos + width text, rest⟩ := by
  rw [eat_eq, startsWith_append, if_pos rfl, skip_append]
  rfl

theorem eat_of_not {text : String} {c : Cursor} (h : c.startsWith text = false) :
    eat text c = .ok false c := by
  rw [eat_eq, h]
  rfl

theorem expect_append (text : String) (what : Wanted) (pos : Nat) (rest : Bytes) :
    expect text what ⟨pos, utf8 text ++ rest⟩ = .ok () ⟨pos + width text, rest⟩ := by
  unfold expect
  rw [bind_of_ok (eat_append text pos rest)]
  rfl

theorem word_append {p : UInt8 → Bool} {text : String} (hhead : (utf8 text).head?.any isIdentStart)
    (hbytes : (utf8 text).all p) {rest : Bytes} (hrest : Stops p rest) (pos : Nat) :
    word p ⟨pos, utf8 text ++ rest⟩ = .ok (some (spanAt pos text)) ⟨pos + width text, rest⟩ := by
  have hskip := skipWhile_append (List.all_eq_true.mp hbytes) hrest pos
  have hpeek : (Cursor.peek ⟨pos, utf8 text ++ rest⟩).any isIdentStart = true := by
    unfold Cursor.peek
    cases htext : utf8 text with
    | nil => simp [htext] at hhead
    | cons b bytes => simpa [htext] using hhead
  unfold word
  rw [bind_get, if_pos hpeek, hskip]
  rfl

theorem word_of_stops (p : UInt8 → Bool) {text : Bytes} (h : Stops isIdentStart text) (pos : Nat) :
    word p ⟨pos, text⟩ = .ok none ⟨pos, text⟩ := by
  have hpeek : (Cursor.peek ⟨pos, text⟩).any isIdentStart = false := by
    cases text with
    | nil => rfl
    | cons b text => exact stops_cons.mp h
  unfold word
  rw [bind_get, hpeek]
  rfl

theorem name_append (name : Name) {rest : Bytes} (hrest : Stops isNameByte rest) (pos : Nat) :
    ScanM.name ⟨pos, utf8 name.text ++ rest⟩ =
      .ok (some (spanAt pos name.text)) ⟨pos + width name.text, rest⟩ :=
  word_append name.head name.bytes hrest pos

theorem ident_append (ident : Ident) {rest : Bytes} (hrest : Stops isIdentByte rest) (pos : Nat) :
    ScanM.ident ⟨pos, utf8 ident.text ++ rest⟩ =
      .ok (some (spanAt pos ident.text)) ⟨pos + width ident.text, rest⟩ :=
  word_append ident.head ident.bytes hrest pos

theorem nodeFrom_eq (kind : Kind) (start c : Cursor) (children : List Tree) :
    nodeFrom kind start children c = .ok (.node kind ⟨start.pos, c.pos⟩ children) c := rfl

theorem leafFrom_eq (kind : Kind) (start c : Cursor) :
    leafFrom kind start c = .ok (.leaf kind ⟨start.pos, c.pos⟩) c := rfl

/-- The next byte satisfies what the first byte of a text does. -/
theorem peek_append {text : Bytes} {b : UInt8} (h : text.head? = some b) (pos : Nat)
    (rest : Bytes) : Cursor.peek ⟨pos, text ++ rest⟩ = some b := by
  rw [Cursor.peek, List.head?_append, h]
  rfl

theorem length_pos_of_head {text : Bytes} {b : UInt8} (h : text.head? = some b) :
    0 < text.length := by
  cases text with
  | nil => cases h
  | cons => simp

theorem bump_append {text : String} (h : width text = 1) (pos : Nat) (rest : Bytes) :
    Cursor.bump ⟨pos, utf8 text ++ rest⟩ = ⟨pos + width text, rest⟩ := by
  have hlength : min 1 (utf8 text ++ rest).length = (utf8 text).length := by
    rw [List.length_append, show (utf8 text).length = 1 from h]
    omega
  rw [Cursor.bump, Cursor.advance, hlength, skip_append]
  rfl

/-- The results of a step that is taken over and over, each time with less ahead. -/
inductive Steps {α : Type} (step : ScanM (Option α)) : Cursor → List α → Cursor → Prop where
  | done {c next : Cursor} (h : step c = .ok none next) : Steps step c [] next
  | more {c mid next : Cursor} {a : α} {as : List α} (h : step c = .ok (some a) mid)
      (hless : mid.rest.length < c.rest.length) (hrest : Steps step mid as next) :
      Steps step c (a :: as) next

theorem Steps.manyFrom {α : Type} {step : ScanM (Option α)} {c next : Cursor} {as : List α}
    (h : Steps step c as next) {n : Nat} (hn : c.rest.length < n) :
    manyFrom step n c = .ok as next := by
  induction h generalizing n with
  | done h =>
    cases n with
    | zero => omega
    | succ n =>
      unfold ScanM.manyFrom
      rw [bind_of_ok h]
      rfl
  | more h hless _ ih =>
    cases n with
    | zero => omega
    | succ n =>
      unfold ScanM.manyFrom
      rw [bind_of_ok h]
      dsimp only
      rw [bind_of_ok (ih (by omega))]
      rfl

theorem Steps.many {α : Type} {step : ScanM (Option α)} {c next : Cursor} {as : List α}
    (h : Steps step c as next) : many step c = .ok as next := by
  unfold ScanM.many
  rw [bind_get]
  exact h.manyFrom (by omega)

theorem endTag_named (before after : Gap) (name : Name) (pos : Nat) (rest : Bytes) :
    endTag ⟨pos, utf8 ("</" ++ before.text ++ name.text ++ after.text ++ ">") ++ rest⟩ =
      .ok (nodeAt .endTag pos ("</" ++ before.text ++ name.text ++ after.text ++ ">")
          [leafAt .tagName (pos + width ("</" ++ before.text)) name.text])
        ⟨pos + width ("</" ++ before.text ++ name.text ++ after.text ++ ">"), rest⟩ := by
  have hname : Stops isNameByte (utf8 after.text ++ (utf8 ">" ++ rest)) :=
    stops_of_blank not_nameByte_of_blank after (by simp; decide)
  have hblank : Stops isAsciiBlank (utf8 name.text ++ (utf8 after.text ++ (utf8 ">" ++ rest))) :=
    stops_of_head name.head not_blank_of_identStart _
  unfold endTag
  simp only [utf8_append, List.append_assoc]
  rw [bind_get, bind_of_ok (expect_append ..), bind_skipBlanks, skipBlanks_gap before hblank,
    bind_of_ok (name_append name hname _), bind_skipBlanks, skipBlanks_gap after (by simp; decide),
    bind_of_ok (expect_append ..), nodeFrom_eq]
  simp only [nodeAt, leafAt, spanAt, width_append, Nat.add_assoc]
  rfl

theorem endTag_bare (gap : Gap) (pos : Nat) (rest : Bytes) :
    endTag ⟨pos, utf8 ("</" ++ gap.text ++ ">") ++ rest⟩ =
      .ok (nodeAt .endTag pos ("</" ++ gap.text ++ ">") [])
        ⟨pos + width ("</" ++ gap.text ++ ">"), rest⟩ := by
  have hname : Stops isIdentStart (utf8 ">" ++ rest) := by simp; decide
  have hblank : Stops isAsciiBlank (utf8 ">" ++ rest) := by simp; decide
  unfold endTag ScanM.name
  simp only [utf8_append, List.append_assoc]
  rw [bind_get, bind_of_ok (expect_append ..), bind_skipBlanks, skipBlanks_gap gap hblank,
    bind_of_ok (word_of_stops _ hname _), bind_skipBlanks, skipBlanks_of_stops hblank,
    bind_of_ok (expect_append ..), nodeFrom_eq]
  simp only [nodeAt, spanAt, width_append, Nat.add_assoc]
  rfl

end Surface

end ZigMarkup
