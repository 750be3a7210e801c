import ZigMarkup.Code.Printer
import ZigMarkup.Proofs.Margins
import ZigMarkup.Proofs.Roots

/-!
Generated text that brings no root: names and punctuation, escaped literals, and lines that are
kept as they are.
-/
namespace ZigMarkup

/-- Escaped text on one line, as it stands between the quotes of a literal. -/
structure Escaped (body : Bytes) : Prop where
  on_line : ascii '\n' ∉ body
  read : ∀ rest, quotedTail (ascii '"') (body ++ rest) =
    ⟨(quotedTail (ascii '"') rest).length + body.length, (quotedTail (ascii '"') rest).closed⟩

namespace Escaped

variable {body more : Bytes}

theorem nil : Escaped [] := ⟨by simp, fun _ => rfl⟩

theorem append (h : Escaped body) (hmore : Escaped more) : Escaped (body ++ more) := by
  refine ⟨fun hmem => ?_, fun rest => ?_⟩
  · rcases List.mem_append.mp hmem with hmem | hmem
    · exact h.on_line hmem
    · exact hmore.on_line hmem
  · rw [List.append_assoc, h.read, hmore.read, List.length_append]
    simp only [QuotedToken.mk.injEq, and_true]
    omega

theorem of_plain (h : ∀ b ∈ body, b ≠ ascii '\\' ∧ b ≠ ascii '"' ∧ b ≠ ascii '\n') :
    Escaped body := by
  induction body with
  | nil => exact nil
  | cons b body ih =>
    obtain ⟨hback, hquote, hline⟩ := h b (List.mem_cons_self ..)
    have hrest := ih fun c hc => h c (List.mem_cons_of_mem _ hc)
    refine ⟨?_, fun rest => ?_⟩
    · intro hmem
      rcases List.mem_cons.mp hmem with heq | hmem
      · exact hline heq.symm
      · exact hrest.on_line hmem
    · rw [List.cons_append, quotedTail.eq_def]
      simp only [hback, hquote, hline, if_false, hrest.read, List.length_cons, Nat.add_assoc]

theorem of_glue (h : body.all isGlue = true) : Escaped body := by
  refine of_plain fun b hb => ?_
  have hglue := List.all_eq_true.mp h b hb
  simp only [isGlue, Bool.and_eq_true, bne_iff_ne, ne_eq] at hglue
  exact ⟨hglue.1.1.1.1.2, hglue.1.1.1.2, hglue.2⟩

/-- A backslash takes the next byte with it. -/
theorem pair {b : UInt8} (h : b ≠ ascii '\n') : Escaped [ascii '\\', b] := by
  refine ⟨?_, fun rest => by simp [quotedTail]⟩
  simp only [List.mem_cons, List.not_mem_nil, or_false, not_or]
  exact ⟨by decide, h.symm⟩

theorem chars {f : Char → List Char} (h : ∀ c, Escaped (utf8 (String.ofList (f c))))
    (cs : List Char) : Escaped (utf8 (String.ofList (cs.flatMap f))) := by
  induction cs with
  | nil => exact nil
  | cons c cs ih =>
    rw [List.flatMap_cons, String.ofList_append, utf8_append]
    exact (h c).append ih

end Escaped

theorem escaped_hexDigit {n : Nat} (h : n < 16) :
    Escaped (utf8 (String.ofList [Literal.hexDigit n])) := by
  have hall : ∀ n < 16, (utf8 (String.ofList [Literal.hexDigit n])).all isGlue = true := by
    decide +kernel
  exact .of_glue (hall n h)

namespace Literal

/-- The characters with a short escape, each with the letter behind its backslash. -/
def shortEscapes : List (Char × Char) :=
  [('\\', '\\'), ('"', '"'), ('\n', 'n'), ('\r', 'r'), ('\t', 't')]

/-- The forms of a character between quotes. -/
inductive EscapeForm (c : Char) : List Char → Prop where
  | short {letter : Char} (h : (c, letter) ∈ shortEscapes) : EscapeForm c ['\\', letter]
  | control (h : c.toNat < 0x20 ∨ c.toNat = 0x7F) :
      EscapeForm c (['\\', 'x'] ++ ([hexDigit (c.toNat / 16)] ++ [hexDigit (c.toNat % 16)]))
  | kept (hback : c ≠ '\\') (hquote : c ≠ '"') (hlow : 0x20 ≤ c.toNat) (hhigh : c.toNat ≠ 0x7F) :
      EscapeForm c [c]

theorem escapeForm (c : Char) : EscapeForm c (escapeChar c) := by
  by_cases hshort : c ∈ shortEscapes.map Prod.fst
  · obtain ⟨⟨_, letter⟩, hmem, rfl⟩ := List.mem_map.mp hshort
    have hall : ∀ p ∈ shortEscapes, escapeChar p.1 = ['\\', p.2] := by decide +kernel
    rw [hall _ hmem]
    exact .short hmem
  · simp only [shortEscapes, List.map_cons, List.map_nil, List.mem_cons, List.not_mem_nil, or_false,
      not_or] at hshort
    obtain ⟨hback, hquote, hline, hreturn, htab⟩ := hshort
    rw [escapeChar, if_neg hback, if_neg hquote, if_neg hline, if_neg hreturn, if_neg htab]
    split
    · next hcontrol => exact .control (by simpa using hcontrol)
    · next hcontrol =>
      simp only [Bool.or_eq_true, decide_eq_true_eq, not_or] at hcontrol
      exact .kept hback hquote (Nat.le_of_not_lt hcontrol.1) hcontrol.2

end Literal

theorem escaped_escapeChar (c : Char) : Escaped (utf8 (String.ofList (Literal.escapeChar c))) := by
  have hform := Literal.escapeForm c
  generalize Literal.escapeChar c = written at hform ⊢
  cases hform with
  | @short letter h =>
    have hall : ∀ p ∈ Literal.shortEscapes,
        utf8 (String.ofList ['\\', p.2]) = [ascii '\\', ascii p.2] ∧ ascii p.2 ≠ ascii '\n' := by
      decide +kernel
    obtain ⟨hbytes, hline⟩ := hall _ h
    rw [hbytes]
    exact .pair hline
  | control h =>
    have hescape : utf8 (String.ofList ['\\', 'x']) = [ascii '\\', ascii 'x'] := by decide
    rw [String.ofList_append, String.ofList_append, utf8_append, utf8_append, hescape]
    exact (Escaped.pair (by decide)).append
      ((escaped_hexDigit (by omega)).append (escaped_hexDigit (by omega)))
  | kept hback hquote hlow _ =>
    refine .of_plain fun b hb => ?_
    rw [utf8_ofList, List.flatMap_singleton] at hb
    have hline : c ≠ '\n' := by
      rintro rfl
      exact absurd hlow (by decide)
    exact ⟨IsAsciiChar.ne_of_mem (by decide) hback hb, IsAsciiChar.ne_of_mem (by decide) hquote hb,
      IsAsciiChar.ne_of_mem (by decide) hline hb⟩

theorem escaped_escapeFormatChar (c : Char) :
    Escaped (utf8 (String.ofList (Literal.escapeFormatChar c))) := by
  unfold Literal.escapeFormatChar
  split
  · exact .of_glue (by decide)
  split
  · exact .of_glue (by decide)
  · exact escaped_escapeChar c

/-! ## Text that stays on its line -/

theorem Quiet.append {s t : String} (hs : Quiet s) (ht : Quiet t) : Quiet (s ++ t) := by
  rw [Quiet, utf8_append]
  exact Leads.append hs ht

/-- Text on one line, behind which code goes on as it does before it. -/
structure Steady (s : String) : Prop where
  code : Leads .code .code (utf8 s)
  on_line : ascii '\n' ∉ utf8 s

namespace Steady

variable {s t : String}

theorem quiet (h : Steady s) : Quiet s := h.code.on_line h.on_line

theorem append (hs : Steady s) (ht : Steady t) : Steady (s ++ t) := by
  constructor
  · rw [utf8_append]
    exact hs.code.append ht.code
  · rw [utf8_append, List.mem_append, not_or]
    exact ⟨hs.on_line, ht.on_line⟩

theorem of_glue (h : (utf8 s).all isGlue = true) : Steady s := by
  have hglue := List.all_eq_true.mp h
  refine ⟨leads_glue_code hglue, fun hline => ?_⟩
  have := hglue _ hline
  cases this

/-- A string literal on one line. -/
theorem literal (h : Escaped (utf8 s)) : Steady ("\"" ++ s ++ "\"") := by
  have hbytes : utf8 ("\"" ++ s ++ "\"") = ascii '"' :: (utf8 s ++ [ascii '"']) := by
    rw [utf8_append, utf8_append]
    rfl
  constructor
  · rw [hbytes]
    refine leads_string ⟨rfl, ?_⟩
    have hend : quotedTail (ascii '"') [ascii '"'] = ⟨1, true⟩ := by decide
    simp only [quotedToken, h.read, hend, List.length_cons, List.length_append, List.length_nil,
      QuotedToken.mk.injEq, and_true]
    omega
  · rw [hbytes]
    simp only [List.mem_cons, List.mem_append, List.not_mem_nil, or_false, not_or]
    exact ⟨by decide, h.on_line, by decide⟩

theorem quoted (text : String) : Steady (Literal.quoted text) :=
  literal (.chars escaped_escapeChar text.toList)

end Steady

theorem isGlue_of_isNameByte {b : UInt8} (h : isNameByte b = true) : isGlue b = true := by
  cases hglue : isGlue b with
  | true => rfl
  | false =>
    simp only [isGlue, Bool.and_eq_false_iff, bne_eq_false_iff_eq] at hglue
    rcases hglue with ((((rfl | rfl) | rfl) | rfl) | rfl) | rfl <;> cases h

theorem isGlue_of_isIdentByte {b : UInt8} (h : isIdentByte b = true) : isGlue b = true :=
  isGlue_of_isNameByte (by simp [isNameByte, h])

theorem steady_enumLiteral (name : String) : Steady (Literal.enumLiteral name) := by
  refine (Steady.of_glue (by decide)).append ?_
  unfold Literal.identifier
  split
  · next h =>
    refine .of_glue (List.all_eq_true.mpr fun b hb => isGlue_of_isIdentByte ?_)
    unfold isPlainIdentifier at h
    split at h
    · cases h
    · next first rest hbytes =>
      rw [hbytes] at hb
      simp only [Bool.and_eq_true] at h
      rcases List.mem_cons.mp hb with rfl | hb
      · simp [isIdentByte, h.1.1]
      · exact List.all_eq_true.mp h.1.2 b hb
  · exact (Steady.of_glue (by decide)).append (.quoted name)

theorem all_isNameByte_repr (n : Nat) : (utf8 n.repr).all isNameByte = true := by
  have hdigits : ∀ d < 10, (String.utf8EncodeChar (Char.ofNat (48 + d))).all isNameByte = true := by
    decide
  refine List.all_eq_true.mpr fun b hb => ?_
  obtain ⟨c, hc, hb⟩ := List.mem_flatMap.mp hb
  rw [Nat.repr_eq_ofList_toDigits, String.toList_ofList] at hc
  have hdigit := Nat.isDigit_of_mem_toDigits (by decide) (by decide) hc
  simp only [Char.isDigit, Bool.and_eq_true, decide_eq_true_eq] at hdigit
  have hnat : 48 ≤ c.toNat ∧ c.toNat ≤ 57 := hdigit
  refine List.all_eq_true.mp (hdigits (c.toNat - 48) (by omega)) b ?_
  rwa [show 48 + (c.toNat - 48) = c.toNat by omega, Char.ofNat_toNat]

theorem glue_repr (n : Nat) : (utf8 n.repr).all isGlue = true :=
  List.all_eq_true.mpr fun b hb =>
    isGlue_of_isNameByte (List.all_eq_true.mp (all_isNameByte_repr n) b hb)

namespace Code

theorem Builder.steady_text (b : Builder) : Steady b.text := by
  unfold Builder.text
  split
  · exact .of_glue rfl
  · exact (Steady.of_glue (s := "__zx_b") (by decide)).append (.of_glue (glue_repr _))

theorem Builder.steady_call (b : Builder) {method : String}
    (h : (utf8 method).all isGlue = true) : Steady (b.call method) :=
  (b.steady_text.append (.of_glue (by decide))).append (.of_glue h)

theorem BlockLabel.steady_text (id : Nat) : Steady (BlockLabel.block id).text :=
  (Steady.of_glue (s := "__zx_blk") (by decide)).append (.of_glue (glue_repr id))

theorem ListVar.steady_text (id : Nat) : Steady (ListVar.fresh id).text :=
  (Steady.of_glue (s := "__zx_list") (by decide)).append (.of_glue (glue_repr id))

end Code

/-! ## Texts put together -/

/-- What holds of texts put together holds of a list of texts with a separator between them. -/
theorem intercalate_closed {P : String → Prop} (happend : ∀ {s t : String}, P s → P t → P (s ++ t))
    (hempty : P "") {separator : String} (hseparator : P separator) {texts : List String}
    (h : ∀ text ∈ texts, P text) : P (separator.intercalate texts) := by
  induction texts with
  | nil => exact hempty
  | cons text texts ih =>
    rw [List.forall_mem_cons] at h
    cases texts with
    | nil =>
      rw [String.intercalate_singleton]
      exact h.1
    | cons other texts =>
      rw [String.intercalate_cons_cons]
      exact happend (happend h.1 hseparator) (ih h.2)

/-- A predicate that holds of generated text on one line and of texts put together. -/
structure Weaves (P : String → Prop) : Prop where
  steady : ∀ {s : String}, Steady s → P s
  append : ∀ {s t : String}, P s → P t → P (s ++ t)

theorem weaves_quiet : Weaves Quiet := ⟨Steady.quiet, Quiet.append⟩

namespace Weaves

open Code

variable {P : String → Prop} (hP : Weaves P)

include hP

theorem glue {s : String} (h : (utf8 s).all isGlue = true) : P s := hP.steady (.of_glue h)

theorem inlineRecord {fields : List String} (h : ∀ field ∈ fields, P field) :
    P (inlineRecord fields) := by
  have hjoined : P (", ".intercalate fields) :=
    intercalate_closed hP.append (hP.glue rfl) (hP.glue (by decide)) h
  unfold Code.inlineRecord
  split
  · exact hP.glue (by decide)
  · exact hP.append (hP.append (hP.glue (by decide)) hjoined) (hP.glue (by decide))

/-- A call with one argument. -/
theorem callWith (b : Builder) {method code : String} (hmethod : (utf8 method).all isGlue = true)
    (h : P code) : P (b.call method ++ "(" ++ code ++ ")") :=
  hP.append (hP.append (hP.steady ((b.steady_call hmethod).append (.of_glue (by decide)))) h)
    (hP.glue (by decide))

theorem formatArgs (b : Builder) {args : List String} (h : ∀ arg ∈ args, P (trim arg)) :
    P (formatArgs b args) := by
  refine hP.inlineRecord fun field hfield => ?_
  obtain ⟨arg, harg, rfl⟩ := List.mem_map.mp hfield
  exact hP.callWith b (by decide) (h arg harg)

/-- A call that is given a format string and its arguments. -/
theorem formatted (b : Builder) {opening format : String} {args : List String} (hopening : P opening)
    (hformat : P ("\"" ++ format ++ "\"")) (hargs : ∀ arg ∈ args, P (trim arg)) :
    P (opening ++ "\"" ++ format ++ "\", " ++ Code.formatArgs b args) := by
  have hall := hP.append (hP.append hopening hformat)
    (hP.append (hP.glue (s := ", ") (by decide)) (hP.formatArgs b hargs))
  have heq : opening ++ ("\"" ++ format ++ "\"") ++ (", " ++ Code.formatArgs b args) =
      opening ++ "\"" ++ format ++ "\", " ++ Code.formatArgs b args := by
    rw [show "\", " = "\"" ++ ", " by decide]
    simp only [String.append_assoc]
  rwa [heq] at hall

theorem optionFields {options : List (String × String)} (h : ∀ o ∈ options, P o.1 ∧ P o.2) :
    P (optionFields options) := by
  refine hP.inlineRecord fun field hfield => ?_
  obtain ⟨o, ho, rfl⟩ := List.mem_map.mp hfield
  exact hP.append (hP.append (hP.append (hP.glue (by decide)) (h o ho).1) (hP.glue (by decide)))
    (h o ho).2

theorem captureText {capture : Option String} (h : ∀ c ∈ capture, P c) :
    P (captureText capture) := by
  cases capture with
  | none => exact hP.glue rfl
  | some c => exact hP.append (h c rfl) (hP.glue (by decide))

theorem armOpening (first : Bool) {head capture : Option String} (hhead : ∀ h ∈ head, P h)
    (hcapture : ∀ c ∈ capture, P c) : P (armOpening first head capture) := by
  cases head with
  | none => exact hP.append (hP.glue (by decide)) (hP.captureText hcapture)
  | some h =>
    have hif : P (if first then "if " else " else if ") := by
      cases first <;> exact hP.glue (by decide)
    exact hP.append (hP.append hif (hhead h rfl)) (hP.glue (by decide))

/-- What stands before the body of a prong. -/
theorem prongOpening {head capture : Option String} (hhead : ∀ h ∈ head, P h)
    (hcapture : ∀ c ∈ capture, P c) : P (head.getD "else" ++ " => " ++ Code.captureText capture) := by
  have hpattern : P (head.getD "else") := by
    cases head with
    | none => exact hP.glue (by decide)
    | some pattern => exact hhead pattern rfl
  exact hP.append (hP.append hpattern (hP.glue (by decide))) (hP.captureText hcapture)

end Weaves

theorem not_mem_splitLines (cs : List Char) : ∀ l ∈ splitLines cs, '\n' ∉ l := by
  induction cs with
  | nil => simp [splitLines]
  | cons c cs ih =>
    unfold splitLines
    split
    · simpa using ih
    · next hc =>
      split
      · simp [Ne.symm hc]
      · next l lines hlines =>
        rw [hlines] at ih
        obtain ⟨hl, hrest⟩ := List.forall_mem_cons.mp ih
        refine List.forall_mem_cons.mpr ⟨?_, hrest⟩
        rw [List.mem_cons, not_or]
        exact ⟨Ne.symm hc, hl⟩

theorem dropReturn_subset (line : List Char) : dropReturn line ⊆ line := by
  unfold dropReturn
  split
  · exact List.dropLast_subset line
  · exact List.Subset.refl line

theorem not_mem_rawLines {text : String} {l : List Char} (h : l ∈ rawLines text) : '\n' ∉ l := by
  obtain ⟨whole, hwhole, rfl⟩ := List.mem_map.mp h
  exact fun hmem => not_mem_splitLines _ whole hwhole (dropReturn_subset whole hmem)

theorem not_mem_verbatimLines {text l : String} (h : l ∈ verbatimLines text) : '\n' ∉ l.toList := by
  obtain ⟨kept, hkept, rfl⟩ := List.mem_map.mp h
  rw [String.toList_ofList]
  exact not_mem_rawLines hkept

/-- A line of a multiline string hides what is in it. -/
theorem leads_verbatim {l : String} (h : '\n' ∉ l.toList) :
    Leads .code .line (utf8 ("\\\\" ++ l)) := by
  have hbytes : ∀ rest, utf8 ("\\\\" ++ l) ++ rest =
      ascii '\\' :: (ascii '\\' :: utf8 l ++ rest) := by
    intro rest
    rw [utf8_append]
    rfl
  have hline : ∀ b ∈ ascii '\\' :: utf8 l, (b != ascii '\n') = true := by
    intro b hb
    rcases List.mem_cons.mp hb with rfl | hb
    · decide
    · refine bne_iff_ne.mpr ?_
      rintro rfl
      exact LineIndex.newline_not_mem h hb
  intro rest hrest
  rw [hbytes]
  refine ⟨(rootless_of_token (.inl rfl) ?_).mpr hrest.2, beginsTemplate_of_firm (by decide) (by decide) _⟩
  -- The token goes up to the end of the line, and the search goes on there.
  have hskip := Cursor.skipWhile_rest (· != ascii '\n') ⟨0, ascii '\\' :: utf8 l ++ rest⟩
  rw [lineLength, List.takeWhile_cons, if_pos (by decide), List.length_cons, Nat.add_sub_cancel]
  exact hskip.trans (List.dropWhile_append_of_pos hline)

end ZigMarkup
