import ZigMarkup.Proofs.Cuts
import ZigMarkup.Proofs.Spelling

/-!
Text without template roots. The search for a root goes from token to token, so what it finds in
a text that is put together depends on where the tokens of the first part end. `Leads` says that
a text may be put before another: if none is found in the other, from where the search may reach
it, then none is found in both.
-/
namespace ZigMarkup

/-- Text in which the search for template roots finds none. -/
def Rootless (text : Bytes) : Prop := nextTemplate? text = none

/-- The search from a place on, and how far it has come. -/
theorem walkFrom_templateVisit (text : Bytes) : ∀ skip offset,
    walkFrom templateVisit (fun _ _ => none) skip () offset text =
      (nextTemplate? (text.drop skip)).map (· + (offset + skip)) := by
  induction text with
  | nil =>
    intro skip offset
    rw [List.drop_nil]
    cases skip <;> rfl
  | cons b rest ih =>
    intro skip offset
    cases skip with
    | succ skip =>
      rw [walkFrom, ih, List.drop_succ_cons]
      congr 2
      funext n
      omega
    | zero =>
      rw [List.drop_zero, nextTemplate?, walk, walkFrom, walkFrom, templateVisit, templateVisit]
      cases lexeme b rest with
      | trivia length | broken length =>
        simp only [ih, Option.map_map]
        congr 1
        funext n
        simp only [Function.comp]
        omega
      | plain =>
        cases beginsTemplate (b :: rest) with
        | true => simp
        | false =>
          simp only [ih, Option.map_map, Bool.false_eq_true, if_false]
          congr 1
          funext n
          simp only [Function.comp]
          omega

/-- One step of the search. -/
theorem nextTemplate?_cons (b : UInt8) (rest : Bytes) : nextTemplate? (b :: rest) =
    match lexeme b rest with
    | .trivia length => (nextTemplate? (rest.drop (length - 1))).map (· + (1 + (length - 1)))
    | .broken length => (nextTemplate? (rest.drop (length - 1))).map (· + (1 + (length - 1)))
    | .plain =>
      if beginsTemplate (b :: rest) then some 0 else (nextTemplate? rest).map (· + 1) := by
  rw [nextTemplate?, walk, walkFrom, templateVisit]
  cases lexeme b rest with
  | trivia length | broken length => simp only [walkFrom_templateVisit]
  | plain =>
    cases beginsTemplate (b :: rest) with
    | true => rfl
    | false => simp [walkFrom_templateVisit]

theorem rootless_of_plain {b : UInt8} {rest : Bytes} (h : lexeme b rest = .plain) :
    Rootless (b :: rest) ↔ beginsTemplate (b :: rest) = false ∧ Rootless rest := by
  rw [Rootless, nextTemplate?_cons, h]
  cases beginsTemplate (b :: rest) <;> simp [Rootless]

/-- A token hides what is in it. -/
theorem rootless_of_token {b : UInt8} {rest after : Bytes} {length : Nat}
    (h : lexeme b rest = .trivia length ∨ lexeme b rest = .broken length)
    (hafter : rest.drop (length - 1) = after) : Rootless (b :: rest) ↔ Rootless after := by
  rw [Rootless, nextTemplate?_cons]
  rcases h with h | h <;> rw [h] <;> simp [Rootless, hafter]

/-! ## Spots -/

/-- Where a text begins: behind code that was put in for a template, where code begins, or on a
line of code, which may have become a comment. -/
inductive Spot where
  | host
  | code
  | line

/-- Text without a root at a spot. In code a parenthesis may stand before it, and on a line the
search may go on only where the next line begins. -/
def Spot.Safe : Spot → Bytes → Prop
  | host, text => Rootless text
  | code, text => Rootless text ∧ beginsTemplate (ascii '(' :: text) = false
  | line, text => (Rootless text ∧ beginsTemplate (ascii '(' :: text) = false) ∧
      Rootless (text.dropWhile (· != ascii '\n'))

theorem Spot.Safe.rootless {p : Spot} {text : Bytes} (h : p.Safe text) : Rootless text := by
  cases p with
  | host => exact h
  | code => exact h.1
  | line => exact h.1.1

/-- Text that may be put before any text that is safe at a spot. -/
def Leads (p q : Spot) (text : Bytes) : Prop := ∀ rest, q.Safe rest → p.Safe (text ++ rest)

/-- Host code that brings no root into a line: put before any text without one, from where it
stands and from the next line on, it leaves none to be found, even right behind a parenthesis. -/
def Quiet (code : String) : Prop := Leads .line .line (utf8 code)

namespace Leads

variable {p q r : Spot} {text more : Bytes}

theorem nil : Leads p p [] := fun _ h => h

theorem append (h : Leads p q text) (hmore : Leads q r more) : Leads p r (text ++ more) := by
  intro rest hrest
  rw [List.append_assoc]
  exact h _ (hmore rest hrest)

theorem in_code (h : Leads .line q text) : Leads .code q text := fun rest hrest => (h rest hrest).1

theorem of_host (h : Leads p .host text) : Leads p q text := fun rest hrest => h rest hrest.rootless

theorem to_line (h : Leads p .code text) : Leads p .line text := fun rest hrest => h rest hrest.1

/-- What stays on its line leads on from any place in it. -/
theorem on_line (h : Leads .code .code text) (hline : ascii '\n' ∉ text) :
    Leads .line .line text := by
  intro rest hrest
  refine ⟨h rest hrest.1, ?_⟩
  rw [List.dropWhile_append_of_pos]
  · exact hrest.2
  · intro b hb
    exact bne_iff_ne.mpr fun heq => hline (heq ▸ hb)

end Leads

/-- A byte that is no blank and no `<` keeps a parenthesis before it from beginning a root. -/
theorem beginsTemplate_of_firm {b : UInt8} (hblank : isAsciiBlank b = false) (hlt : b ≠ ascii '<')
    (rest : Bytes) : beginsTemplate (ascii '(' :: b :: rest) = false := by
  simp only [beginsTemplate, List.dropWhile_cons, hblank, Bool.false_eq_true, if_false]
  split
  · next heq =>
    obtain ⟨rfl, _⟩ := List.cons.inj heq
    simp [hlt]
  · simp

theorem beginsTemplate_of_blank {b : UInt8} (hblank : isAsciiBlank b = true) (rest : Bytes) :
    beginsTemplate (ascii '(' :: b :: rest) = beginsTemplate (ascii '(' :: rest) := by
  simp only [beginsTemplate, List.dropWhile_cons, hblank, if_true]

theorem beginsTemplate_of_ne {b : UInt8} (h : b ≠ ascii '(') (rest : Bytes) :
    beginsTemplate (b :: rest) = false := by
  simp [beginsTemplate, h]

/-- A byte that begins no token, no line and no tag. -/
def isGlue (b : UInt8) : Bool :=
  b != ascii '/' && b != ascii '\\' && b != ascii '"' && b != ascii '\'' && b != ascii '<' &&
    b != ascii '\n'

theorem lexeme_of_isGlue {b : UInt8} (h : isGlue b = true) (rest : Bytes) :
    lexeme b rest = .plain := by
  simp only [isGlue, Bool.and_eq_true, bne_iff_ne, ne_eq] at h
  obtain ⟨⟨⟨⟨⟨hslash, hback⟩, hquote⟩, hchar⟩, _⟩, _⟩ := h
  simp [lexeme, hslash, hback, hquote, hchar]

theorem lexeme_quote (rest : Bytes) : lexeme (ascii '"') rest =
    if (quotedTail (ascii '"') rest).closed = true
    then .trivia ((quotedTail (ascii '"') rest).length + 1)
    else .broken ((quotedTail (ascii '"') rest).length + 1) := rfl

theorem lexeme_apostrophe (rest : Bytes) : lexeme (ascii '\'') rest =
    .trivia (if (quotedTail (ascii '\'') rest).closed = true
      then (quotedTail (ascii '\'') rest).length + 1 else 1) := rfl

/-- Code goes on behind a byte of glue as it does before it. -/
theorem leads_glue_code {text : Bytes} (h : ∀ b ∈ text, isGlue b = true) :
    Leads .code .code text := by
  induction text with
  | nil => exact .nil
  | cons b text ih =>
    have hb := h b (List.mem_cons_self ..)
    intro rest hrest
    obtain ⟨hroot, hopen⟩ := ih (fun c hc => h c (List.mem_cons_of_mem _ hc)) rest hrest
    have hlt : b ≠ ascii '<' := by
      simp only [isGlue, Bool.and_eq_true, bne_iff_ne, ne_eq] at hb
      exact hb.1.2
    refine ⟨(rootless_of_plain (lexeme_of_isGlue hb _)).mpr ⟨?_, hroot⟩, ?_⟩
    · by_cases hparen : b = ascii '('
      · rw [hparen]
        exact hopen
      · exact beginsTemplate_of_ne hparen _
    · cases hblank : isAsciiBlank b with
      | true => exact (beginsTemplate_of_blank hblank _).trans hopen
      | false => exact beginsTemplate_of_firm hblank hlt _

theorem leads_glue {text : Bytes} (h : ∀ b ∈ text, isGlue b = true) : Leads .line .line text := by
  refine (leads_glue_code h).on_line fun hline => ?_
  have := h _ hline
  cases this

theorem leads_glue_at {p : Spot} (hp : p ≠ .host) {text : Bytes}
    (h : ∀ b ∈ text, isGlue b = true) : Leads p p text := by
  cases p with
  | host => exact absurd rfl hp
  | code => exact leads_glue_code h
  | line => exact leads_glue h

theorem leads_newline : Leads .line .code [ascii '\n'] := by
  intro rest hrest
  have hline : Rootless (ascii '\n' :: rest) :=
    (rootless_of_plain rfl).mpr ⟨beginsTemplate_of_ne (by decide) rest, hrest.1⟩
  exact ⟨⟨hline, (beginsTemplate_of_blank (by decide) rest).trans hrest.2⟩, hline⟩

/-- An angle bracket before a blank, as in a comparison, begins no tag. -/
theorem leads_comparison : Leads .code .code [ascii '<', ascii ' '] := by
  intro rest hrest
  have hblank : Rootless (ascii ' ' :: rest) :=
    (rootless_of_plain rfl).mpr ⟨beginsTemplate_of_ne (by decide) rest, hrest.1⟩
  exact ⟨(rootless_of_plain rfl).mpr ⟨beginsTemplate_of_ne (by decide) _, hblank⟩, rfl⟩

/-- The brace behind which host text goes on. -/
theorem leads_close : Leads .code .host [ascii '\x7d'] := by
  intro rest hrest
  exact ⟨(rootless_of_plain rfl).mpr ⟨beginsTemplate_of_ne (by decide) rest, hrest⟩,
    beginsTemplate_of_firm (by decide) (by decide) rest⟩

/-- A string literal is one token, whatever follows it. -/
theorem lexeme_of_isString {bytes : Bytes} (h : IsString bytes) : ∃ inner,
    bytes = ascii '"' :: inner ∧
      ∀ rest, lexeme (ascii '"') (inner ++ rest) = .trivia (inner.length + 1) := by
  obtain ⟨hhead, htoken⟩ := h
  cases bytes with
  | nil => cases hhead
  | cons b inner =>
    cases hhead
    simp only [quotedToken, QuotedToken.mk.injEq, List.length_cons, Nat.add_right_cancel_iff]
      at htoken
    obtain ⟨hlength, hclosed⟩ := htoken
    refine ⟨inner, rfl, fun rest => ?_⟩
    have hsame := quotedTail_take_append hclosed rest
    rw [hlength, List.take_length] at hsame
    rw [lexeme_quote, hsame, hclosed, hlength]
    rfl

/-- A string literal hides what is in it. -/
theorem leads_string {bytes : Bytes} (h : IsString bytes) : Leads .code .code bytes := by
  obtain ⟨inner, rfl, hlexeme⟩ := lexeme_of_isString h
  intro rest hrest
  refine ⟨(rootless_of_token (.inl (hlexeme rest)) ?_).mpr hrest.1,
    beginsTemplate_of_firm (by decide) (by decide) _⟩
  rw [Nat.add_sub_cancel, List.drop_left]

/-! ## Host text -/

/-- Text that ends like the beginning of a root. -/
def EndsOpen (host : Bytes) : Prop :=
  ∃ before blanks, host = before ++ ascii '(' :: (blanks ++ [ascii '<']) ∧
    ∀ b ∈ blanks, isAsciiBlank b = true

theorem EndsOpen.getLast? {host : Bytes} (h : EndsOpen host) :
    host.getLast? = some (ascii '<') := by
  obtain ⟨before, blanks, rfl, _⟩ := h
  rw [← List.cons_append, ← List.append_assoc, List.getLast?_concat]

theorem EndsOpen.append {host : Bytes} (h : EndsOpen host) (more : Bytes) :
    EndsOpen (more ++ host) := by
  obtain ⟨before, blanks, rfl, hblanks⟩ := h
  exact ⟨more ++ before, blanks, by rw [List.append_assoc], hblanks⟩

/-- Code whose first line is glue. -/
def BeginsLine (code : Bytes) : Prop :=
  ∃ first label rest, code = first :: (label ++ ascii '\n' :: rest) ∧
    isAsciiBlank first = false ∧ ∀ b ∈ first :: label, isGlue b = true

section HostText

variable {host after code : Bytes} (hcode : BeginsLine code)

include hcode in
/-- Code in the place of a root makes no root of host text that was none before. -/
theorem beginsTemplate_append {b : UInt8} (h : beginsTemplate (b :: (host ++ after)) = false)
    (hopen : ¬ EndsOpen (b :: host)) : beginsTemplate (b :: (host ++ code)) = false := by
  by_cases hb : b = ascii '('
  · subst hb
    induction host with
    | nil =>
      obtain ⟨first, label, rest, rfl, hblank, hglue⟩ := hcode
      have hfirst := hglue first (List.mem_cons_self ..)
      refine beginsTemplate_of_firm hblank ?_ _
      rintro rfl
      cases hfirst
    | cons x host ih =>
      rw [List.cons_append] at h ⊢
      cases hblank : isAsciiBlank x with
      | true =>
        rw [beginsTemplate_of_blank hblank] at h ⊢
        refine ih h ?_
        rintro ⟨before, blanks, heq, hblanks⟩
        refine hopen ?_
        cases before with
        | nil =>
          obtain ⟨_, rfl⟩ := List.cons.inj heq
          exact ⟨[], x :: blanks, rfl, List.forall_mem_cons.mpr ⟨hblank, hblanks⟩⟩
        | cons y before =>
          obtain ⟨_, rfl⟩ := List.cons.inj heq
          exact ⟨ascii '(' :: x :: before, blanks, rfl, hblanks⟩
      | false =>
        by_cases hlt : x = ascii '<'
        · subst hlt
          cases host with
          | nil => exact absurd ⟨[], [], rfl, by simp⟩ hopen
          | cons y host =>
            simp only [beginsTemplate, List.cons_append, List.dropWhile_cons, hblank,
              Bool.false_eq_true, if_false] at h ⊢
            exact h
        · exact beginsTemplate_of_firm hblank hlt _
  · exact beginsTemplate_of_ne hb _

theorem quotedTail_escape (quote b : UInt8) (rest : Bytes) :
    quotedTail quote (ascii '\\' :: b :: rest) =
      ⟨(quotedTail quote rest).length + 2, (quotedTail quote rest).closed⟩ := by
  rw [quotedTail.eq_def]
  rfl

theorem quotedTail_step (quote : UInt8) {b : UInt8} (h : b ≠ ascii '\\') (rest : Bytes) :
    quotedTail quote (b :: rest) =
      if b = quote then ⟨1, true⟩ else if b = ascii '\n' then ⟨0, false⟩
      else ⟨(quotedTail quote rest).length + 1, (quotedTail quote rest).closed⟩ := by
  rw [quotedTail.eq_def]
  simp only [h, if_false]

theorem quotedTail_glue {label rest : Bytes} (h : ∀ b ∈ label, isGlue b = true) :
    (quotedTail (ascii '\'') (label ++ ascii '\n' :: rest)).closed = false := by
  induction label with
  | nil =>
    rw [List.nil_append, quotedTail_step _ (by decide)]
    rfl
  | cons b label ih =>
    have hb := h b (List.mem_cons_self ..)
    simp only [isGlue, Bool.and_eq_true, bne_iff_ne, ne_eq] at hb
    obtain ⟨⟨⟨⟨⟨_, hback⟩, _⟩, hquote⟩, _⟩, hline⟩ := hb
    rw [List.cons_append, quotedTail_step _ hback, if_neg hquote, if_neg hline]
    exact ih fun c hc => h c (List.mem_cons_of_mem _ hc)

include hcode in
/-- A quote that is not closed in host text is not closed on the line of code either. -/
theorem quotedTail_unclosed : ∀ host : Bytes,
    (quotedTail (ascii '\'') (host ++ after)).closed = false →
      (quotedTail (ascii '\'') (host ++ code)).closed = false
  | [], _ => by
    obtain ⟨first, label, rest, rfl, _, hglue⟩ := hcode
    exact quotedTail_glue hglue
  | b :: host, h => by
    by_cases hb : b = ascii '\\'
    · subst hb
      match host, h with
      | [], _ =>
        obtain ⟨first, label, rest, rfl, _, hglue⟩ := hcode
        rw [List.singleton_append, quotedTail_escape]
        exact quotedTail_glue fun c hc => hglue c (List.mem_cons_of_mem _ hc)
      | c :: host, h =>
        simp only [List.cons_append, quotedTail_escape] at h ⊢
        exact quotedTail_unclosed host h
    · simp only [List.cons_append, quotedTail_step _ hb] at h ⊢
      split
      · next hquote =>
        rw [if_pos hquote] at h
        cases h
      · split
        · rfl
        · next hquote hline =>
          rw [if_neg hquote, if_neg hline] at h
          exact quotedTail_unclosed host h

variable (hafter : after.head? = some (ascii '('))

include hafter in
/-- A quoted token that ends before a root is the same with anything in the place of the root. -/
theorem quotedTail_append (code : Bytes) {quote : UInt8} (hquote : quote ≠ ascii '(') :
    ∀ host : Bytes,
    (quotedTail quote (host ++ after)).length ≤ host.length →
    quotedTail quote (host ++ code) = quotedTail quote (host ++ after)
  | [], h => by
    obtain ⟨rest, rfl⟩ := List.head?_eq_some_iff.mp hafter
    rw [List.nil_append, quotedTail_step _ (by decide), if_neg hquote.symm, if_neg (by decide)] at h
    cases h
  | b :: host, h => by
    by_cases hb : b = ascii '\\'
    · subst hb
      match host, h with
      | [], h =>
        obtain ⟨rest, rfl⟩ := List.head?_eq_some_iff.mp hafter
        rw [List.singleton_append, quotedTail_escape] at h
        exact absurd h (by simp)
      | c :: host, h =>
        simp only [List.cons_append, quotedTail_escape] at h ⊢
        rw [quotedTail_append code hquote host (by simpa using h)]
    · simp only [List.cons_append, quotedTail_step _ hb] at h ⊢
      split
      · rfl
      · split
        · rfl
        · next hne hline =>
          rw [if_neg hne, if_neg hline] at h
          rw [quotedTail_append code hquote host (by simpa using h)]

include hafter in
theorem lineLength_append : ∀ host : Bytes, lineLength (host ++ after) ≤ host.length →
    lineLength (host ++ code) = lineLength (host ++ after)
  | [], h => by
    obtain ⟨rest, rfl⟩ := List.head?_eq_some_iff.mp hafter
    rw [List.nil_append, lineLength, List.takeWhile_cons, if_pos (by decide)] at h
    cases h
  | b :: host, h => by
    simp only [lineLength, List.cons_append, List.takeWhile_cons] at h ⊢
    split
    · next hb =>
      rw [if_pos hb] at h
      exact congrArg (· + 1) (lineLength_append host (by simpa [lineLength] using h))
    · rfl

include hcode hafter in
theorem head?_append_iff (host : Bytes) {b : UInt8} (hb : b = ascii '/' ∨ b = ascii '\\') :
    (host ++ code).head? = some b ↔ (host ++ after).head? = some b := by
  cases host with
  | cons c host => rfl
  | nil =>
    obtain ⟨first, label, rest, rfl, _, hglue⟩ := hcode
    have hfirst := hglue first (List.mem_cons_self ..)
    rw [List.nil_append, List.nil_append, hafter]
    rcases hb with rfl | rfl
    · refine ⟨fun h => ?_, fun h => absurd h (by decide)⟩
      cases h
      cases hfirst
    · refine ⟨fun h => ?_, fun h => absurd h (by decide)⟩
      cases h
      cases hfirst

include hafter in
/-- A token of host text is the same with anything in the place of the root behind it that neither
makes two slashes of one nor closes a quote. -/
theorem lexeme_replaced (b : UInt8) (host : Bytes)
    (hhead : b = ascii '/' ∨ b = ascii '\\' →
      ((host ++ code).head? = some b ↔ (host ++ after).head? = some b))
    (hunclosed : (quotedTail (ascii '\'') (host ++ after)).closed = false →
      (quotedTail (ascii '\'') (host ++ code)).closed = false) :
    match lexeme b (host ++ after) with
    | .plain => lexeme b (host ++ code) = .plain
    | .trivia length => length ≤ host.length + 1 → lexeme b (host ++ code) = .trivia length
    | .broken length => length ≤ host.length + 1 → lexeme b (host ++ code) = .broken length := by
  by_cases hslash : b = ascii '/' ∨ b = ascii '\\'
  · have hplain : ∀ rest : Bytes, rest.head? ≠ some b → lexeme b rest = .plain := by
      intro rest hrest
      have hother : b ≠ ascii '"' ∧ b ≠ ascii '\'' := by
        rcases hslash with rfl | rfl <;> decide
      simp [lexeme, hrest, hother]
    by_cases hsame : (host ++ after).head? = some b
    · have hline : ∀ rest : Bytes, rest.head? = some b →
          lexeme b rest = .trivia (lineLength (b :: rest)) := by
        intro rest hrest
        simp [lexeme, hslash, hrest]
      rw [hline _ hsame, hline _ ((hhead hslash).mpr hsame)]
      exact fun hle => congrArg _ (lineLength_append hafter (b :: host) hle)
    · rw [hplain _ hsame, hplain _ (mt (hhead hslash).mp hsame)]
  rw [not_or] at hslash
  by_cases hquote : b = ascii '"'
  · subst hquote
    have hsame := quotedTail_append hafter code (by decide : ascii '"' ≠ ascii '(') host
    rw [lexeme_quote, lexeme_quote]
    cases hclosed : (quotedTail (ascii '"') (host ++ after)).closed with
    | true =>
      intro hle
      rw [hsame (by omega), hclosed]
      rfl
    | false =>
      intro hle
      rw [hsame (by omega), hclosed]
      rfl
  by_cases hchar : b = ascii '\''
  · subst hchar
    have hsame := quotedTail_append hafter code (by decide : ascii '\'' ≠ ascii '(') host
    rw [lexeme_apostrophe, lexeme_apostrophe]
    cases hclosed : (quotedTail (ascii '\'') (host ++ after)).closed with
    | true =>
      intro hle
      simp only [if_true] at hle ⊢
      rw [hsame (by omega), hclosed, if_pos rfl]
    | false =>
      intro _
      rw [hunclosed hclosed]
      rfl
  · have hplain : ∀ rest, lexeme b rest = .plain := by
      intro rest
      simp [lexeme, hslash, hquote, hchar]
    rw [hplain, hplain]

include hcode hafter in
/-- A token of host text is the same with code in the place of the root behind it. -/
theorem lexeme_append (b : UInt8) (host : Bytes) :
    match lexeme b (host ++ after) with
    | .plain => lexeme b (host ++ code) = .plain
    | .trivia length => length ≤ host.length + 1 → lexeme b (host ++ code) = .trivia length
    | .broken length => length ≤ host.length + 1 → lexeme b (host ++ code) = .broken length :=
  lexeme_replaced hafter b host (head?_append_iff hcode hafter host) (quotedTail_unclosed hcode host)

include hcode hafter in
/-- Host text up to a root is without a root when code stands in the place of that root. -/
theorem rootless_host (h : nextTemplate? (host ++ after) = some host.length)
    (hopen : ¬ EndsOpen host) (hrootless : Rootless code) : Rootless (host ++ code) := by
  induction hn : host.length using Nat.strongRecOn generalizing host with
  | ind n ih =>
    cases host with
    | nil => exact hrootless
    | cons b host =>
      have hsuffix : ∀ k, ¬ EndsOpen (host.drop k) := fun k hend => hopen (by
        have := hend.append (b :: host.take k)
        rwa [List.cons_append, List.take_append_drop] at this)
      -- Behind a token of a length the search goes on in the text or past its end.
      have hskip : ∀ length, (nextTemplate? ((host ++ after).drop (length - 1))).map
          (· + (1 + (length - 1))) = some (host.length + 1) → length ≤ host.length + 1 ∧
            Rootless ((host ++ code).drop (length - 1)) := by
        intro length hfound
        obtain ⟨offset, hoffset, hsum⟩ := Option.map_eq_some_iff.mp hfound
        have hle : length - 1 ≤ host.length := by omega
        rw [List.drop_append_of_le_length hle] at hoffset ⊢
        have hlength : offset = (host.drop (length - 1)).length := by
          rw [List.length_drop]
          omega
        rw [hlength] at hoffset
        refine ⟨by omega, ih _ ?_ hoffset (hsuffix _) rfl⟩
        rw [List.length_drop, ← hn, List.length_cons]
        omega
      have htoken := lexeme_append hcode hafter b host
      rw [List.cons_append, nextTemplate?_cons] at h
      rw [List.cons_append]
      cases hlexeme : lexeme b (host ++ after) with
      | trivia length =>
        simp only [hlexeme] at h htoken
        obtain ⟨hle, hrest⟩ := hskip length h
        exact (rootless_of_token (.inl (htoken hle)) rfl).mpr hrest
      | broken length =>
        simp only [hlexeme] at h htoken
        obtain ⟨hle, hrest⟩ := hskip length h
        exact (rootless_of_token (.inr (htoken hle)) rfl).mpr hrest
      | plain =>
        simp only [hlexeme] at h htoken
        cases hbegins : beginsTemplate (b :: (host ++ after)) with
        | true =>
          rw [hbegins] at h
          cases h
        | false =>
          rw [hbegins] at h
          refine (rootless_of_plain htoken).mpr ⟨beginsTemplate_append hcode hbegins hopen, ?_⟩
          exact (hskip 1 (by simpa using h)).2

end HostText

end ZigMarkup
