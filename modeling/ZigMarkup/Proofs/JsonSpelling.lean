import ZigMarkup.Hydration.Marker
import ZigMarkup.Json.Reader

/-!
Two spellings of one JSON text. Inside a string `>` may be written as an escape, and outside of
strings no `>` can be read at all, so a text that can be read means the same when some of its
`>` are escaped, wherever they stand. This is what keeps the props of a marker from ending its
comment.
-/
namespace ZigMarkup

/-- The second text is the first one with some `>` written as escapes. -/
inductive Respelled : List Char → List Char → Prop
  | nil : Respelled [] []
  | keep (c : Char) {cs ds : List Char} (h : Respelled cs ds) : Respelled (c :: cs) (c :: ds)
  | escape {cs ds : List Char} (h : Respelled cs ds) :
      Respelled ('>' :: cs) ('\\' :: 'u' :: '0' :: '0' :: '3' :: 'e' :: ds)

theorem respelled_commentSafe (cs : List Char) : Respelled cs (commentSafe cs) := by
  fun_induction commentSafe cs with
  | case1 rest ih => exact .keep '-' (.keep '-' (.escape ih))
  | case2 c rest _ ih => exact .keep c ih
  | case3 => exact .nil

namespace Respelled

variable {cs ds : List Char}

/-- Characters other than `>` are kept. -/
theorem of_cons {c : Char} (h : Respelled (c :: cs) ds) (hc : c ≠ '>') :
    ∃ ds', ds = c :: ds' ∧ Respelled cs ds' := by
  cases h with
  | keep _ h => exact ⟨_, rfl, h⟩
  | escape => exact absurd rfl hc

theorem of_append {word : List Char} (h : Respelled (word ++ cs) ds) (hword : '>' ∉ word) :
    ∃ ds', ds = word ++ ds' ∧ Respelled cs ds' := by
  induction word generalizing ds with
  | nil => exact ⟨ds, rfl, h⟩
  | cons c word ih =>
    obtain ⟨_, rfl, hrest⟩ := h.of_cons (List.ne_of_not_mem_cons hword).symm
    obtain ⟨ds', rfl, hcs⟩ := ih hrest (List.not_mem_of_not_mem_cons hword)
    exact ⟨ds', rfl, hcs⟩

/-- A run that neither spelling can take part in is the same in both. -/
theorem run {p : Char → Bool} (h : Respelled cs ds) (hraw : p '>' = false)
    (hescape : p '\\' = false) :
    ds.takeWhile p = cs.takeWhile p ∧ Respelled (cs.dropWhile p) (ds.dropWhile p) := by
  induction h with
  | nil => exact ⟨rfl, .nil⟩
  | keep c h ih =>
    cases hc : p c with
    | true => simpa [hc] using ih
    | false => simpa [hc] using Respelled.keep c h
  | escape h => simpa [hraw, hescape] using h.escape

end Respelled

namespace JsonToken

variable {cs ds rest : List Char}

/-! ## Strings -/

/-- The characters inside a string that stand for one character. -/
inductive Spells : List Char → Char → Prop
  | plain {c : Char} (hquote : c ≠ '"') (hescape : c ≠ '\\') (hraw : ¬ c.toNat < 0x20) : Spells [c] c
  | simple {c char : Char} (h : simpleEscape? c = some char) : Spells ['\\', c] char
  | code {a b c d : Char} {n : Nat} (h : hex4? a b c d = some n) (hs : isSurrogate n = false) :
      Spells ['\\', 'u', a, b, c, d] (Char.ofNat n)
  | pair {a b c d e f g k char : Char} {high low : Nat} (hhigh : hex4? a b c d = some high)
      (hs : isSurrogate high = true) (hlow : hex4? e f g k = some low)
      (h : pair? high low = some char) :
      Spells ['\\', 'u', a, b, c, d, '\\', 'u', e, f, g, k] char

namespace Spells

variable {used : List Char} {char : Char}

theorem stringTail? (h : Spells used char) (tail : List Char) :
    stringTail? (used ++ tail) = (stringTail? tail).map fun p => (char :: p.1, p.2) := by
  cases h with
  | plain hquote hescape hraw =>
    change JsonToken.stringTail? (char :: tail) = _
    rw [JsonToken.stringTail?]
    · simp only [hescape, hraw, decide_false, Bool.or_self, Bool.false_eq_true, if_false]
      cases JsonToken.stringTail? tail <;> rfl
    · exact hquote
    · exact fun _ _ _ _ _ h => absurd h hescape
    · exact fun _ _ h => absurd h hescape
  | @simple c _ h =>
    change JsonToken.stringTail? ('\\' :: c :: tail) = _
    rw [JsonToken.stringTail?]
    · rw [h]
      cases JsonToken.stringTail? tail <;> rfl
    · rintro _ _ _ _ _ rfl
      cases h
  | code h hs =>
    cases htail : JsonToken.stringTail? tail <;> simp [JsonToken.stringTail?, h, hs, htail]
  | pair hhigh hs hlow h =>
    cases htail : JsonToken.stringTail? tail <;>
      simp [JsonToken.stringTail?, hhigh, hs, hlow, h, htail]

end Spells

/-- A string that can be read is closed at once, or it begins with a character. -/
theorem stringTail?_cases {chars : List Char} (h : stringTail? cs = some (chars, rest)) :
    cs = '"' :: rest ∧ chars = [] ∨ ∃ used char tail more, Spells used char ∧ cs = used ++ tail ∧
      chars = char :: more ∧ stringTail? tail = some (more, rest) := by
  fun_cases stringTail? cs with
  | case1 => cases h
  | case2 =>
    cases h
    exact .inl ⟨rfl, rfl⟩
  | case3 a b c d tail =>
    simp only [stringTail?, Option.bind_eq_bind, Option.bind_eq_some_iff] at h
    obtain ⟨n, hn, h⟩ := h
    split at h
    · next hs =>
      split at h
      · next e f g k tail =>
        simp only [Option.bind_eq_some_iff] at h
        obtain ⟨low, hlow, char, hchar, ⟨more, _⟩, hmore, h⟩ := h
        obtain ⟨rfl, rfl⟩ := Prod.mk.inj (Option.some.inj h)
        exact .inr ⟨_, char, tail, more, .pair hn hs hlow hchar, rfl, rfl, hmore⟩
      · cases h
    · next hs =>
      simp only [Option.bind_eq_some_iff] at h
      obtain ⟨⟨more, _⟩, hmore, h⟩ := h
      obtain ⟨rfl, rfl⟩ := Prod.mk.inj (Option.some.inj h)
      exact .inr ⟨_, _, tail, more, .code hn (Bool.eq_false_iff.mpr hs), rfl, rfl, hmore⟩
  | case4 c tail hcode =>
    rw [stringTail?] at h
    · simp only [Option.bind_eq_bind, Option.bind_eq_some_iff] at h
      obtain ⟨char, hchar, ⟨more, _⟩, hmore, h⟩ := h
      obtain ⟨rfl, rfl⟩ := Prod.mk.inj (Option.some.inj h)
      exact .inr ⟨_, char, tail, more, .simple hchar, rfl, rfl, hmore⟩
    · exact hcode
  | case5 c tail hquote hcode hescape hraw =>
    rw [stringTail?, if_pos hraw] at h
    · cases h
    · exact hquote
    · exact hcode
    · exact hescape
  | case6 c tail hquote hcode hescape hraw =>
    rw [stringTail?, if_neg hraw] at h
    · simp only [Option.bind_eq_bind, Option.bind_eq_some_iff] at h
      obtain ⟨⟨more, _⟩, hmore, h⟩ := h
      obtain ⟨rfl, rfl⟩ := Prod.mk.inj (Option.some.inj h)
      simp only [Bool.or_eq_true, decide_eq_true_eq, not_or] at hraw
      exact .inr ⟨[c], c, tail, more, .plain hquote hraw.1 hraw.2, rfl, rfl, hmore⟩
    · exact hquote
    · exact hcode
    · exact hescape

theorem not_mem_of_hex4? {a b c d : Char} {n : Nat} (h : hex4? a b c d = some n) :
    '>' ∉ ['\\', 'u', a, b, c, d] := by
  have hclose : hexValue? '>' = none := rfl
  simp only [List.mem_cons, List.not_mem_nil, or_false, not_or]
  refine ⟨by decide, by decide, ?_, ?_, ?_, ?_⟩ <;>
  · rintro rfl
    simp [hex4?, hclose] at h

/-- No escape holds a `>`, so one that is respelled stands for itself. -/
theorem Spells.respelled {used : List Char} {char : Char} (h : Spells used char)
    (hspell : Respelled (used ++ cs) ds) :
    ∃ used' ds', Spells used' char ∧ ds = used' ++ ds' ∧ Respelled cs ds' := by
  have hkept : '>' ∉ used → ∃ used' ds', Spells used' char ∧ ds = used' ++ ds' ∧ Respelled cs ds' :=
    fun hused => by
      obtain ⟨ds', hds, hcs⟩ := hspell.of_append hused
      exact ⟨used, ds', h, hds, hcs⟩
  cases h with
  | plain hquote hescape hraw =>
    cases hspell with
    | keep _ hcs => exact ⟨_, _, .plain hquote hescape hraw, rfl, hcs⟩
    | escape hcs =>
      exact ⟨['\\', 'u', '0', '0', '3', 'e'], _, .code (n := 0x3E) rfl rfl, rfl, hcs⟩
  | @simple c _ h =>
    refine hkept ?_
    simp only [List.mem_cons, List.not_mem_nil, or_false, not_or]
    refine ⟨by decide, ?_⟩
    rintro rfl
    cases h
  | code h hs => exact hkept (not_mem_of_hex4? h)
  | @pair a b c d e f g k _ _ _ hhigh hs hlow h =>
    refine hkept fun hmem => ?_
    have hboth : '>' ∈ ['\\', 'u', a, b, c, d] ++ ['\\', 'u', e, f, g, k] := hmem
    rcases List.mem_append.mp hboth with hmem | hmem
    · exact not_mem_of_hex4? hhigh hmem
    · exact not_mem_of_hex4? hlow hmem

/-- From another spelling of a text, `read` reads the same and leaves another spelling of the
rest. -/
def ReadsAlike {α : Type} (read : List Char → Option (α × List Char)) : Prop :=
  ∀ cs ds a rest, Respelled cs ds → read cs = some (a, rest) →
    ∃ rest', read ds = some (a, rest') ∧ Respelled rest rest'

theorem stringTail?_readsAlike : ReadsAlike stringTail? := by
  intro cs ds chars rest hspell h
  induction chars generalizing cs ds with
  | nil =>
    rcases stringTail?_cases h with ⟨rfl, _⟩ | ⟨_, _, _, _, _, _, hchars, _⟩
    · obtain ⟨rest', rfl, hrest⟩ := hspell.of_cons (by decide)
      exact ⟨rest', rfl, hrest⟩
    · cases hchars
  | cons char chars ih =>
    rcases stringTail?_cases h with ⟨_, hchars⟩ | ⟨used, _, tail, _, hused, rfl, hchars, htail⟩
    · cases hchars
    · obtain ⟨rfl, rfl⟩ := List.cons.inj hchars
      obtain ⟨used', tail', hused', rfl, hspell'⟩ := hused.respelled hspell
      obtain ⟨rest', hread, hrest⟩ := ih tail tail' hspell' htail
      exact ⟨rest', by rw [hused'.stringTail?, hread]; rfl, hrest⟩

/-! ## Numbers -/

theorem takeDigits_respelled (h : Respelled cs ds) : ∃ rest',
    takeDigits ds = ((takeDigits cs).1, rest') ∧ Respelled (takeDigits cs).2 rest' := by
  obtain ⟨hdigits, hrest⟩ := h.run (p := Char.isDigit) rfl rfl
  exact ⟨_, by rw [takeDigits, takeDigits, hdigits], hrest⟩

theorem fraction?_of_ne {c : Char} (hc : c ≠ '.') (cs : List Char) :
    fraction? (c :: cs) = some (none, c :: cs) := by
  unfold fraction?
  split
  · next heq => exact absurd (List.cons.inj heq).1 hc
  · rfl

theorem fraction?_readsAlike : ReadsAlike fraction? := by
  intro cs ds digits rest h hread
  cases h with
  | nil =>
    cases hread
    exact ⟨[], rfl, .nil⟩
  | @keep c cs ds h =>
    by_cases hc : c = '.'
    · subst hc
      obtain ⟨rest', hds, hrest⟩ := takeDigits_respelled h
      rw [fraction?] at hread ⊢
      rw [hds]
      rcases hcs : takeDigits cs with ⟨_ | ⟨d, ds⟩, tail⟩
      · rw [hcs] at hread
        cases hread
      · rw [hcs] at hread hrest
        cases hread
        exact ⟨rest', rfl, hrest⟩
    · rw [fraction?_of_ne hc] at hread ⊢
      cases hread
      exact ⟨_, rfl, h.keep c⟩
  | escape h =>
    cases hread
    exact ⟨_, rfl, h.escape⟩

theorem exponentDigits?_readsAlike (negative : Bool) : ReadsAlike (exponentDigits? negative) := by
  intro cs ds exponent rest h hread
  obtain ⟨rest', hds, hrest⟩ := takeDigits_respelled h
  unfold exponentDigits? at hread ⊢
  rw [hds]
  rcases hcs : takeDigits cs with ⟨_ | ⟨d, ds⟩, tail⟩
  · rw [hcs] at hread
    cases hread
  · rw [hcs] at hread hrest
    cases hread
    exact ⟨rest', rfl, hrest⟩

theorem exponent?_of_ne {c : Char} (hc : ¬ (c = 'e' || c = 'E') = true) (cs : List Char) :
    exponent? (c :: cs) = some (none, c :: cs) := by
  unfold exponent?
  exact if_neg hc

theorem exponent?_unsigned {c d : Char} (hc : (c = 'e' || c = 'E') = true) (hplus : d ≠ '+')
    (hminus : d ≠ '-') (cs : List Char) :
    exponent? (c :: d :: cs) = exponentDigits? false (d :: cs) := by
  rw [exponent?]
  · exact if_pos hc
  · simp [hplus]
  · simp [hminus]

theorem exponent?_readsAlike : ReadsAlike exponent? := by
  intro cs ds exponent rest h hread
  cases h with
  | nil =>
    cases hread
    exact ⟨[], rfl, .nil⟩
  | @keep c cs ds h =>
    by_cases hc : (c = 'e' || c = 'E') = true
    · cases h with
      | nil =>
        rw [exponent?, if_pos hc] at hread
        · cases hread
        · simp
        · simp
      | @keep d cs ds h =>
        by_cases hplus : d = '+'
        · subst hplus
          rw [exponent?, if_pos hc] at hread ⊢
          exact exponentDigits?_readsAlike false cs ds _ _ h hread
        by_cases hminus : d = '-'
        · subst hminus
          rw [exponent?, if_pos hc] at hread ⊢
          exact exponentDigits?_readsAlike true cs ds _ _ h hread
        · rw [exponent?_unsigned hc hplus hminus] at hread ⊢
          exact exponentDigits?_readsAlike false _ _ _ _ (h.keep d) hread
      | escape h =>
        rw [exponent?_unsigned hc (by decide) (by decide)] at hread ⊢
        exact exponentDigits?_readsAlike false _ _ _ _ h.escape hread
    · rw [exponent?_of_ne hc] at hread ⊢
      cases hread
      exact ⟨_, rfl, h.keep c⟩
  | escape h =>
    cases hread
    exact ⟨_, rfl, h.escape⟩

theorem number?_readsAlike (negative : Bool) : ReadsAlike (number? negative) := by
  intro cs ds token rest h hread
  obtain ⟨tail, hds, htail⟩ := takeDigits_respelled h
  unfold number? at hread ⊢
  rw [hds]
  rcases hcs : takeDigits cs with ⟨whole, tail'⟩
  rw [hcs] at hread htail
  dsimp only at hread htail ⊢
  split at hread
  · cases hread
  · cases hread
  · simp only [Option.bind_eq_bind, Option.bind_eq_some_iff] at hread
    obtain ⟨⟨fraction, rest₁⟩, hfraction, ⟨exponent, rest₂⟩, hexponent, n, hn, hread⟩ := hread
    obtain ⟨rest₁', hfraction', h₁⟩ := fraction?_readsAlike _ _ _ _ htail hfraction
    obtain ⟨rest₂', hexponent', h₂⟩ := exponent?_readsAlike _ _ _ _ h₁ hexponent
    cases hread
    refine ⟨rest₂', ?_, h₂⟩
    simp [hfraction', hexponent', hn]

/-! ## Texts -/

/-- The tokens that are always written alike. -/
def words : List (List Char × JsonToken) :=
  [(['['], .openArray), ([']'], .closeArray), (['\x7b'], .openObject), (['\x7d'], .closeObject),
    ([','], .comma), ([':'], .colon), (['n', 'u', 'l', 'l'], .scalar .null),
    (['t', 'r', 'u', 'e'], .scalar (.bool true)), (['f', 'a', 'l', 's', 'e'], .scalar (.bool false))]

/-- What may be the next token of a text. -/
inductive Next (cs : List Char) (token : JsonToken) (rest : List Char) : Prop
  | word {word : List Char} (h : (word, token) ∈ words) (hcs : cs = word ++ rest)
  | string {chars tail : List Char} (h : stringTail? tail = some (chars, rest))
      (hcs : cs = '"' :: tail) (htoken : token = .string (String.ofList chars))
  | negative {tail : List Char} (h : number? true tail = some (token, rest)) (hcs : cs = '-' :: tail)
  | number {c : Char} {tail : List Char} (h : number? false cs = some (token, rest))
      (hc : c.isDigit = true) (hcs : cs = c :: tail)

theorem exists_digit_of_number? {negative : Bool} {token : JsonToken}
    (h : number? negative cs = some (token, rest)) :
    ∃ c tail, c.isDigit = true ∧ cs = c :: tail := by
  cases cs with
  | nil => cases h
  | cons c tail =>
    refine ⟨c, tail, ?_, rfl⟩
    cases hc : c.isDigit with
    | true => rfl
    | false => simp [number?, takeDigits, hc] at h

theorem next?_cases {token : JsonToken} (h : next? cs = some (token, rest)) :
    Next cs token rest := by
  revert h
  fun_cases next? cs with
  | case7 tail =>
    intro h
    obtain ⟨⟨chars, rest⟩, hchars, hread⟩ := Option.map_eq_some_iff.mp h
    cases hread
    exact .string hchars rfl rfl
  | case11 tail => exact fun h => .negative h rfl
  | case12 =>
    intro h
    obtain ⟨c, tail, hc, rfl⟩ := exists_digit_of_number? h
    exact .number h hc rfl
  | _ =>
    intro h
    cases h
    exact .word (by simp [words]; rfl) rfl

theorem next?_digit {c : Char} (hc : c.isDigit = true) (cs : List Char) :
    next? (c :: cs) = number? false (c :: cs) := by
  generalize hcs : c :: cs = text
  fun_cases next? text with
  | case12 => rfl
  | _ =>
    obtain ⟨rfl, _⟩ := List.cons.inj hcs
    cases hc

theorem next?_word {word : List Char} {token : JsonToken} (h : (word, token) ∈ words) :
    0 < word.length ∧ '>' ∉ word ∧ ∀ tail, next? (word ++ tail) = some (token, tail) := by
  simp only [words, List.mem_cons, List.not_mem_nil, or_false, Prod.mk.injEq] at h
  rcases h with h | h | h | h | h | h | h | h | h <;>
  · obtain ⟨rfl, rfl⟩ := h
    exact ⟨by decide, by decide, fun _ => rfl⟩

theorem length_dropDigits (cs : List Char) : (takeDigits cs).2.length ≤ cs.length :=
  (List.dropWhile_suffix _).length_le

theorem fraction?_length {digits : Option (List Nat)} (h : fraction? cs = some (digits, rest)) :
    rest.length ≤ cs.length := by
  unfold fraction? at h
  split at h
  · next tail =>
    have hle := length_dropDigits tail
    split at h
    · cases h
    · next hdigits =>
      cases h
      rw [hdigits] at hle
      exact Nat.le_succ_of_le hle
  · cases h
    exact Nat.le_refl _

theorem exponentDigits?_length {negative : Bool} {exponent : Option Int}
    (h : exponentDigits? negative cs = some (exponent, rest)) : rest.length ≤ cs.length := by
  have hle := length_dropDigits cs
  unfold exponentDigits? at h
  split at h
  · cases h
  · next hdigits =>
    cases h
    rwa [hdigits] at hle

theorem exponent?_length {exponent : Option Int} (h : exponent? cs = some (exponent, rest)) :
    rest.length ≤ cs.length := by
  unfold exponent? at h
  split at h
  · split at h
    · split at h <;>
      · have hle := exponentDigits?_length h
        simp only [List.length_cons] at hle ⊢
        omega
    · cases h
      exact Nat.le_refl _
  · cases h
    exact Nat.le_refl _

theorem number?_length {negative : Bool} {token : JsonToken}
    (h : number? negative cs = some (token, rest)) : rest.length < cs.length := by
  obtain ⟨c, tail, hc, rfl⟩ := exists_digit_of_number? h
  have hle : (takeDigits (c :: tail)).2.length ≤ tail.length := by
    simp only [takeDigits, List.dropWhile_cons_of_pos hc]
    exact (List.dropWhile_suffix _).length_le
  unfold number? at h
  rcases takeDigits (c :: tail) with ⟨whole, rest₀⟩
  dsimp only at h hle
  split at h
  · cases h
  · cases h
  · simp only [Option.bind_eq_bind, Option.bind_eq_some_iff] at h
    obtain ⟨⟨fraction, rest₁⟩, hfraction, ⟨exponent, rest₂⟩, hexponent, n, hn, h⟩ := h
    cases h
    have h₁ := fraction?_length hfraction
    have h₂ := exponent?_length hexponent
    simp only [List.length_cons] at *
    omega

theorem stringTail?_length {chars : List Char} (h : stringTail? cs = some (chars, rest)) :
    rest.length < cs.length := by
  induction chars generalizing cs with
  | nil =>
    rcases stringTail?_cases h with ⟨rfl, _⟩ | ⟨_, _, _, _, _, _, hchars, _⟩
    · exact Nat.lt_succ_self _
    · cases hchars
  | cons char chars ih =>
    rcases stringTail?_cases h with ⟨_, hchars⟩ | ⟨used, _, tail, _, _, rfl, hchars, htail⟩
    · cases hchars
    · obtain ⟨_, rfl⟩ := List.cons.inj hchars
      rw [List.length_append]
      exact Nat.lt_add_left _ (ih htail)

/-- Every token is longer than nothing. -/
theorem next?_length {token : JsonToken} (h : next? cs = some (token, rest)) :
    rest.length < cs.length := by
  cases next?_cases h with
  | word hword hcs =>
    subst hcs
    rw [List.length_append]
    exact Nat.lt_add_of_pos_left (next?_word hword).1
  | string hchars hcs =>
    subst hcs
    exact Nat.lt_succ_of_lt (stringTail?_length hchars)
  | negative hnumber hcs =>
    subst hcs
    exact Nat.lt_succ_of_lt (number?_length hnumber)
  | number hnumber => exact number?_length hnumber

theorem next?_readsAlike : ReadsAlike next? := by
  intro cs ds token rest h hread
  cases next?_cases hread with
  | word hword hcs =>
    subst hcs
    obtain ⟨_, hkept, hnext⟩ := next?_word hword
    obtain ⟨rest', rfl, hrest⟩ := h.of_append hkept
    exact ⟨rest', hnext rest', hrest⟩
  | string hchars hcs htoken =>
    subst hcs htoken
    obtain ⟨_, rfl, htail⟩ := h.of_cons (by decide)
    obtain ⟨rest', hread', hrest⟩ := stringTail?_readsAlike _ _ _ _ htail hchars
    exact ⟨rest', by simp [next?, hread'], hrest⟩
  | negative hnumber hcs =>
    subst hcs
    obtain ⟨_, rfl, htail⟩ := h.of_cons (by decide)
    exact number?_readsAlike true _ _ _ _ htail hnumber
  | number hnumber hc hcs =>
    subst hcs
    have hne : ∀ c : Char, c.isDigit = true → c ≠ '>' := by
      rintro _ hc rfl
      cases hc
    obtain ⟨ds', rfl, htail⟩ := h.of_cons (hne _ hc)
    rw [next?_digit hc]
    exact number?_readsAlike false _ _ _ _ (htail.keep _) hnumber

theorem tokensFrom_of_blank (h : cs.dropWhile isJsonBlank = []) (n : Nat) :
    tokensFrom n cs = some [] := by
  cases n with
  | zero => rfl
  | succ n => rw [tokensFrom, h]

theorem tokensFrom_succ {c : Char} {tail : List Char} (h : cs.dropWhile isJsonBlank = c :: tail)
    (n : Nat) : tokensFrom (n + 1) cs = (next? (c :: tail)).bind fun p =>
      (tokensFrom n p.2).map (p.1 :: ·) := by
  rw [tokensFrom, h]
  dsimp only [bind, Option.bind]
  cases next? (c :: tail) with
  | none => rfl
  | some p => cases htail : tokensFrom n p.2 <;> simp [htail]

/-- A text is read into the same tokens in both spellings. -/
theorem tokensFrom_respelled {n m : Nat} {tokens : List JsonToken} (hn : cs.length ≤ n)
    (hm : ds.length ≤ m) (h : Respelled cs ds) (hread : tokensFrom n cs = some tokens) :
    tokensFrom m ds = some tokens := by
  induction n generalizing m cs ds tokens with
  | zero =>
    obtain rfl := List.length_eq_zero_iff.mp (Nat.le_zero.mp hn)
    cases h
    cases hread
    exact tokensFrom_of_blank rfl m
  | succ n ih =>
    obtain ⟨_, hrun⟩ := h.run (p := isJsonBlank) rfl rfl
    have hcs := (List.dropWhile_suffix isJsonBlank (l := cs)).length_le
    have hds := (List.dropWhile_suffix isJsonBlank (l := ds)).length_le
    generalize hcs' : cs.dropWhile isJsonBlank = cs' at *
    generalize hds' : ds.dropWhile isJsonBlank = ds' at *
    cases cs' with
    | nil =>
      cases hrun
      rw [tokensFrom_of_blank hcs'] at hread
      rw [tokensFrom_of_blank hds', hread]
    | cons c tail =>
      rw [tokensFrom_succ hcs', Option.bind_eq_some_iff] at hread
      obtain ⟨⟨token, rest⟩, hnext, hread⟩ := hread
      obtain ⟨more, hmore, rfl⟩ := Option.map_eq_some_iff.mp hread
      obtain ⟨rest', hnext', hrest⟩ := next?_readsAlike _ _ _ _ hrun hnext
      have hlength := next?_length hnext
      have hlength' := next?_length hnext'
      obtain ⟨d, tail', rfl⟩ : ∃ d tail', ds' = d :: tail' := by
        cases hrun <;> exact ⟨_, _, rfl⟩
      obtain ⟨m, rfl⟩ : ∃ k, m = k + 1 := ⟨m - 1, by omega⟩
      have htail : tokensFrom m rest' = some more := ih (by omega) (by omega) hrest hmore
      rw [tokensFrom_succ hds', hnext']
      simp [htail]

end JsonToken

/-- Whoever reads a JSON text reads the same value from its other spellings. -/
theorem JsonValue.ofText?_respelled {s t : String} {v : JsonValue}
    (h : Respelled s.toList t.toList) (hread : JsonValue.ofText? s = some v) :
    JsonValue.ofText? t = some v := by
  obtain ⟨tokens, htokens, hread⟩ := Option.bind_eq_some_iff.mp hread
  have htokens' : JsonToken.tokens? t.toList = some tokens :=
    JsonToken.tokensFrom_respelled (Nat.le_refl _) (Nat.le_refl _) h htokens
  unfold JsonValue.ofText?
  rw [htokens']
  exact hread

end ZigMarkup
