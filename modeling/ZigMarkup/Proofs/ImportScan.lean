import ZigMarkup.Proofs.Boundaries
import ZigMarkup.Proofs.HostText
import ZigMarkup.Proofs.Lossless
import ZigMarkup.Proofs.Roots

/-!
Where an import is looked for. The template roots of a file are found by one scan over the whole
source, which goes from token to token and from behind each root on. The runtime's import is
looked for in each piece of host text by itself, with the root behind it cut off. `Scanned` are
the offsets at which the one scan stands; an import is found in a piece exactly where the one
scan meets it.
-/
namespace ZigMarkup

open Tree Parser

/-! ## The search for the next root -/

/-- Offsets at which the search for the next template root stands on its way. -/
inductive Searched : Bytes → Nat → Prop
  | here (text : Bytes) : Searched text 0
  | token {b : UInt8} {rest : Bytes} {length n : Nat}
      (h : lexeme b rest = .trivia length ∨ lexeme b rest = .broken length)
      (hrest : Searched (rest.drop (length - 1)) n) : Searched (b :: rest) (length + n)
  | byte {b : UInt8} {rest : Bytes} {n : Nat} (h : lexeme b rest = .plain)
      (hother : beginsTemplate (b :: rest) = false) (hrest : Searched rest n) :
      Searched (b :: rest) (n + 1)

theorem token_pos {b : UInt8} {rest : Bytes} {length : Nat}
    (h : lexeme b rest = .trivia length ∨ lexeme b rest = .broken length) : 0 < length := by
  rcases h with h | h
  · exact trivia_pos h
  · rw [(broken_cases h).2]
    exact Nat.succ_pos _

theorem drop_token {b : UInt8} {rest : Bytes} {length : Nat} (hpos : 0 < length) (n : Nat) :
    (b :: rest).drop (length + n) = (rest.drop (length - 1)).drop n := by
  rw [show length + n = length - 1 + n + 1 by omega, List.drop_succ_cons, List.drop_drop]

theorem nextTemplate?_token {b : UInt8} {rest : Bytes} {length : Nat}
    (h : lexeme b rest = .trivia length ∨ lexeme b rest = .broken length) :
    nextTemplate? (b :: rest) = (nextTemplate? (rest.drop (length - 1))).map (· + length) := by
  have hlength : 1 + (length - 1) = length := by
    have := token_pos h
    omega
  rw [nextTemplate?_cons]
  rcases h with h | h <;> simp only [h, hlength]

theorem nextTemplate?_byte {b : UInt8} {rest : Bytes} (h : lexeme b rest = .plain)
    (hother : beginsTemplate (b :: rest) = false) :
    nextTemplate? (b :: rest) = (nextTemplate? rest).map (· + 1) := by
  rw [nextTemplate?_cons, h]
  simp only [hother, Bool.false_eq_true, if_false]

theorem nextTemplate?_begins {text : Bytes} (h : beginsTemplate text = true) :
    nextTemplate? text = some 0 := by
  obtain ⟨rest, rfl⟩ := exists_cons_of_beginsTemplate h
  rw [nextTemplate?_cons, lexeme_of_not_opens (by decide)]
  simp only [h, if_true]

/-- What the search finds does not depend on where on its way it is begun. -/
theorem Searched.nextTemplate? {text : Bytes} {k : Nat} (h : Searched text k) :
    nextTemplate? text = (nextTemplate? (text.drop k)).map (· + k) := by
  induction h with
  | here text => simp
  | @token b rest length n hlexeme hrest ih =>
    rw [nextTemplate?_token hlexeme, ih, drop_token (token_pos hlexeme), Option.map_map]
    congr 1
    funext m
    simp only [Function.comp]
    omega
  | @byte b rest n hlexeme hother hrest ih =>
    rw [nextTemplate?_byte hlexeme hother, ih, Option.map_map, List.drop_succ_cons]
    rfl

/-- The search comes by the root that it finds. -/
theorem searched_of_nextTemplate? {text : Bytes} {m : Nat} (h : nextTemplate? text = some m) :
    Searched text m := by
  induction hn : text.length using Nat.strongRecOn generalizing text m with
  | ind n ih =>
    cases text with
    | nil => cases h
    | cons b rest =>
      have htoken : ∀ length, lexeme b rest = .trivia length ∨ lexeme b rest = .broken length →
          Searched (b :: rest) m := by
        intro length hlexeme
        rw [nextTemplate?_token hlexeme] at h
        obtain ⟨k, hk, rfl⟩ := Option.map_eq_some_iff.mp h
        have hrest := ih _ (by simp only [← hn, List.length_drop, List.length_cons]; omega) hk rfl
        exact Nat.add_comm length k ▸ .token hlexeme hrest
      cases hlexeme : lexeme b rest with
      | trivia length => exact htoken length (.inl hlexeme)
      | broken length => exact htoken length (.inr hlexeme)
      | plain =>
        cases hbegins : beginsTemplate (b :: rest) with
        | true =>
          rw [nextTemplate?_begins hbegins] at h
          cases h
          exact .here _
        | false =>
          rw [nextTemplate?_byte hlexeme hbegins] at h
          obtain ⟨k, hk, rfl⟩ := Option.map_eq_some_iff.mp h
          exact .byte hlexeme hbegins (ih _ (by simp [← hn]) hk rfl)

theorem Searched.trans {text : Bytes} {a b : Nat} (h : Searched text a)
    (hrest : Searched (text.drop a) b) : Searched text (a + b) := by
  induction h with
  | here text => simpa using hrest
  | token hlexeme _ ih =>
    rw [drop_token (token_pos hlexeme)] at hrest
    exact Nat.add_assoc _ _ b ▸ .token hlexeme (ih hrest)
  | byte hlexeme hother _ ih =>
    exact Nat.add_right_comm _ b 1 ▸ .byte hlexeme hother (ih hrest)

/-! ## The scan of a file -/

/-- Where the root that begins at an offset ends, whether or not it can be read. -/
def rootEnd (source : Bytes) (n : Nat) : Nat :=
  (rootOrError (nested (source.length + 1)) (cursorAt source n)).2.pos

/-- Offsets at which the scan that finds the template roots of a source stands: it passes over
tokens, other bytes and roots. -/
inductive Scanned (source : Bytes) : Nat → Prop
  | start : Scanned source 0
  | token {n length : Nat} {b : UInt8} {rest : Bytes} (h : Scanned source n)
      (hdrop : source.drop n = b :: rest)
      (hlexeme : lexeme b rest = .trivia length ∨ lexeme b rest = .broken length) :
      Scanned source (n + length)
  | byte {n : Nat} {b : UInt8} {rest : Bytes} (h : Scanned source n)
      (hdrop : source.drop n = b :: rest) (hlexeme : lexeme b rest = .plain)
      (hother : beginsTemplate (b :: rest) = false) : Scanned source (n + 1)
  | root {n : Nat} (h : Scanned source n) (hbegins : beginsTemplate (source.drop n) = true) :
      Scanned source (rootEnd source n)

theorem Scanned.search {source : Bytes} {n k : Nat} (h : Scanned source n)
    (hsearch : Searched (source.drop n) k) : Scanned source (n + k) := by
  generalize hdrop : source.drop n = text at hsearch
  induction hsearch generalizing n with
  | here text => exact h
  | @token b rest length m hlexeme hrest ih =>
    rw [← Nat.add_assoc]
    refine ih (h.token hdrop hlexeme) ?_
    rw [← List.drop_drop, hdrop]
    exact drop_token (token_pos hlexeme) 0
  | @byte b rest m hlexeme hother hrest ih =>
    rw [Nat.add_comm m 1, ← Nat.add_assoc]
    refine ih (h.byte hdrop hlexeme hother) ?_
    rw [← List.drop_drop, hdrop]
    rfl

/-- A part of a file: host text up to the next root, or a root from where it begins. -/
inductive IsRead (source : Bytes) (t : Tree) : Prop where
  | host (hkind : t.kind = .hostText) (hspelled : Spelled source t)
  | root (hkind : t.kind = .templateRoot)
      (hbegins : beginsTemplate (source.drop t.span.start) = true)
      (hend : rootEnd source t.span.start = t.span.stop)

theorem fileItems_roots {source : Bytes} {g : Nested} (hg : SpellsNested source g) (turns : Nat) :
    ∀ c : Cursor, c.On source → ∀ t ∈ fileItems g turns c, t.kind = .templateRoot →
      beginsTemplate (source.drop t.span.start) = true ∧
        (rootOrError g (cursorAt source t.span.start)).2.pos = t.span.stop := by
  induction turns with
  | zero => simp [fileItems]
  | succ turns ih =>
    intro c hc t ht hkind
    unfold fileItems at ht
    rcases hnext : c.nextTemplate with ⟨found, c'⟩
    have hfrom := (nextTemplate_from hc.from hnext).1
    have hhost :
        t ∉ (if c.pos < c'.pos then [Tree.leaf .hostText (c'.spanFrom c.pos)] else []) := by
      intro hmem
      split at hmem
      · rw [List.mem_singleton.mp hmem] at hkind
        cases hkind
      · cases hmem
    cases found with
    | false =>
      simp only [hnext, Bool.false_eq_true, if_false] at ht
      exact absurd ht hhost
    | true =>
      rcases hroot : rootOrError g c' with ⟨root, next⟩
      have hopen := atTemplate_of_nextTemplate hnext
      obtain ⟨_, hnextFrom, hspan, _⟩ := rootOrError_ok hg hfrom hopen hroot
      simp only [hnext, hroot, if_true] at ht
      rcases List.mem_append.mp ht with ht | ht
      · exact absurd ht hhost
      rcases List.mem_cons.mp ht with rfl | ht
      · have hcursor : cursorAt source t.span.start = c' := by
          rw [hspan, cursorAt, ← hfrom.rest]
        refine ⟨?_, by rw [hcursor, hroot, hspan]⟩
        rw [hspan, ← hfrom.rest]
        exact hopen
      · exact ih next hnextFrom.toOn t ht hkind

theorem isRead_of_mem {source : Bytes} {t : Tree} (ht : t ∈ (parse source).children) :
    IsRead source t := by
  rcases (parse_shaped source).here t ht with hkind | hkind
  · exact .host hkind ((parse_spells source).child ht).here
  · obtain ⟨hbegins, hend⟩ := fileItems_roots (nested_spells source _) _ _
      (Cursor.on_ofBytes source) t ht hkind
    exact .root hkind hbegins hend

/-! ## Tiles -/

section Covering

variable {source : Bytes} {stop start n : Nat} {ts : List Tree} {t u : Tree}

theorem start_lt_stop (h : Tiles stop start ts) (ht : t ∈ ts) : t.span.start < t.span.stop := by
  induction ts generalizing start with
  | nil => cases ht
  | cons first ts ih =>
    obtain ⟨hstart, hlt, hrest⟩ := h
    rcases List.mem_cons.mp ht with rfl | ht
    · exact hstart ▸ hlt
    · exact ih hrest ht

theorem eq_of_tiles (h : Tiles stop start ts) (ht : t ∈ ts) (hu : u ∈ ts)
    (htn : t.span.start ≤ n ∧ n < t.span.stop) (hun : u.span.start ≤ n ∧ n < u.span.stop) :
    t = u := by
  induction ts generalizing start with
  | nil => cases ht
  | cons first ts ih =>
    obtain ⟨_, _, hrest⟩ := h
    rcases List.mem_cons.mp ht with rfl | hts
    · rcases List.mem_cons.mp hu with rfl | hu
      · rfl
      · have := hrest.row.le.2 u hu
        omega
    · rcases List.mem_cons.mp hu with rfl | hu
      · have := hrest.row.le.2 t hts
        omega
      · exact ih hrest hts hu

/-- Where one tile ends the next begins. -/
theorem exists_tile_at (h : Tiles stop start ts)
    (hn : n = start ∨ ∃ t ∈ ts, t.span.stop = n) (hlt : n < stop) :
    ∃ t ∈ ts, t.span.start = n := by
  induction ts generalizing start with
  | nil =>
    obtain rfl : start = stop := h
    rcases hn with rfl | ⟨_, ht, _⟩
    · exact absurd hlt (Nat.lt_irrefl _)
    · cases ht
  | cons first ts ih =>
    obtain ⟨hstart, _, hrest⟩ := h
    have hlater : n = first.span.stop ∨ (∃ t ∈ ts, t.span.stop = n) →
        ∃ t ∈ first :: ts, t.span.start = n := by
      intro hn
      obtain ⟨t, ht, htn⟩ := ih hrest hn
      exact ⟨t, List.mem_cons_of_mem _ ht, htn⟩
    rcases hn with rfl | ⟨t, ht, htn⟩
    · exact ⟨first, List.mem_cons_self, hstart⟩
    rcases List.mem_cons.mp ht with rfl | ht
    · exact hlater (.inl htn.symm)
    · exact hlater (.inr ⟨t, ht, htn⟩)

theorem nextTemplate?_of_host (hkind : t.kind = .hostText) (hspelled : Spelled source t) :
    nextTemplate? (source.drop t.span.start) =
      if t.span.stop < source.length then some t.span.length else none := by
  simpa only [Spelled, hkind] using hspelled

/-- The scan comes by the beginning of every part. -/
theorem scanned_of_tiles (h : Tiles source.length start ts) (hread : ∀ t ∈ ts, IsRead source t)
    (hscanned : Scanned source start) : ∀ t ∈ ts, Scanned source t.span.start := by
  induction ts generalizing start with
  | nil => simp
  | cons first ts ih =>
    obtain ⟨rfl, hlt, hrest⟩ := h
    intro t ht
    rcases List.mem_cons.mp ht with rfl | ht
    · exact hscanned
    refine ih hrest (fun u hu => hread u (List.mem_cons_of_mem _ hu)) ?_ t ht
    cases hread first List.mem_cons_self with
    | root hkind hbegins hend => exact hend ▸ hscanned.root hbegins
    | host hkind hspelled =>
      have hbehind := hrest.row.le.2 t ht
      have hsome := start_lt_stop hrest ht
      have hfound := nextTemplate?_of_host hkind hspelled
      rw [if_pos (by omega)] at hfound
      have hstop : first.span.start + first.span.length = first.span.stop := by
        rw [Span.length]
        omega
      exact hstop ▸ hscanned.search (searched_of_nextTemplate? hfound)

/-- A part in which the scan stands: on its way through host text, or where a root begins. -/
structure StandsIn (source : Bytes) (n : Nat) (t : Tree) : Prop where
  start_le : t.span.start ≤ n
  lt_stop : n < t.span.stop
  host : t.kind = .hostText → Searched (source.drop t.span.start) (n - t.span.start)
  root : t.kind = .templateRoot → n = t.span.start

theorem standsIn_start (h : t.span.start < t.span.stop) : StandsIn source t.span.start t :=
  ⟨Nat.le_refl _, h, fun _ => Nat.sub_self _ ▸ .here _, fun _ => rfl⟩

theorem exists_standsIn_at (h : Tiles source.length 0 ts)
    (hn : n = 0 ∨ ∃ t ∈ ts, t.span.stop = n) (hlt : n < source.length) :
    ∃ t ∈ ts, StandsIn source n t := by
  obtain ⟨t, ht, rfl⟩ := exists_tile_at h hn hlt
  exact ⟨t, ht, standsIn_start (start_lt_stop h ht)⟩

/-- No root begins at an offset inside host text by which the search comes. -/
theorem beginsTemplate_of_standsIn (hstands : StandsIn source n t) (hread : IsRead source t) :
    beginsTemplate (source.drop n) = true ↔ t.kind = .templateRoot := by
  cases hread with
  | root hkind hbegins _ => simpa [hkind, hstands.root hkind] using hbegins
  | host hkind hspelled =>
    simp only [hkind, reduceCtorEq, iff_false]
    intro hbegins
    obtain ⟨hle, hlt, hsearched, _⟩ := hstands
    have hfound := (hsearched hkind).nextTemplate?
    rw [nextTemplate?_of_host hkind hspelled, List.drop_drop, Nat.add_sub_cancel' hle,
      nextTemplate?_begins hbegins, Option.map_some, Nat.zero_add] at hfound
    split at hfound
    · have hlength := Option.some.inj hfound
      rw [Span.length] at hlength
      omega
    · cases hfound

/-- From host text the scan goes on in it or comes to its end. -/
theorem exists_standsIn_behind (h : Tiles source.length 0 ts) (ht : t ∈ ts)
    (hread : IsRead source t) (hstands : StandsIn source n t) {k : Nat}
    (hother : beginsTemplate (source.drop n) = false) (hsearch : Searched (source.drop n) k)
    (hlt : n + k < source.length) : ∃ u ∈ ts, StandsIn source (n + k) u := by
  cases hread with
  | root hkind hbegins _ =>
    rw [← hstands.root hkind, hother] at hbegins
    cases hbegins
  | host hkind hspelled =>
    obtain ⟨hle, _, hsearched, _⟩ := hstands
    have hdrop : (source.drop t.span.start).drop (n - t.span.start) = source.drop n := by
      rw [List.drop_drop, Nat.add_sub_cancel' hle]
    have hfar := (hsearched hkind).trans (hdrop.symm ▸ hsearch)
    have hfound := hfar.nextTemplate?
    rw [nextTemplate?_of_host hkind hspelled] at hfound
    have hstop : n + k ≤ t.span.stop := by
      split at hfound
      · obtain ⟨m, _, hm⟩ := Option.map_eq_some_iff.mp hfound.symm
        rw [Span.length] at hm
        omega
      · omega
    rcases Nat.lt_or_eq_of_le hstop with hin | heq
    · refine ⟨t, ht, Nat.le_trans hle (Nat.le_add_right _ _), hin, fun _ => ?_, fun hroot => ?_⟩
      · rwa [show n + k - t.span.start = n - t.span.start + k by omega]
      · rw [hkind] at hroot
        cases hroot
    · exact exists_standsIn_at h (.inr ⟨t, ht, heq.symm⟩) hlt

/-- Wherever the scan stands, it stands in a part. -/
theorem exists_standsIn (h : Scanned source n) (hlt : n < source.length) :
    ∃ t ∈ (parse source).children, StandsIn source n t := by
  have htiles := parse_tiles source
  induction h with
  | start => exact exists_standsIn_at htiles (.inl rfl) hlt
  | @token m length b rest _ hdrop hlexeme ih =>
    obtain ⟨t, ht, hstands⟩ := ih (lt_of_drop_eq_cons hdrop)
    have hother : beginsTemplate (source.drop m) = false := by
      rw [hdrop]
      refine beginsTemplate_of_ne ?_ rest
      rintro rfl
      rcases hlexeme with hlexeme | hlexeme <;> cases hlexeme
    exact exists_standsIn_behind htiles ht (isRead_of_mem ht) hstands hother
      (hdrop ▸ .token hlexeme (.here _)) hlt
  | @byte m b rest _ hdrop hlexeme hother ih =>
    obtain ⟨t, ht, hstands⟩ := ih (lt_of_drop_eq_cons hdrop)
    exact exists_standsIn_behind htiles ht (isRead_of_mem ht) hstands (hdrop ▸ hother)
      (hdrop ▸ .byte hlexeme hother (.here _)) hlt
  | @root m _ hbegins ih =>
    have hm : m < source.length := by
      obtain ⟨rest, hrest⟩ := exists_cons_of_beginsTemplate hbegins
      exact lt_of_drop_eq_cons hrest
    obtain ⟨t, ht, hstands⟩ := ih hm
    have hkind := (beginsTemplate_of_standsIn hstands (isRead_of_mem ht)).mp hbegins
    have hend : rootEnd source m = t.span.stop := by
      cases isRead_of_mem ht with
      | root _ _ hend => exact hstands.root hkind ▸ hend
      | host hhost _ => exact absurd (hkind.symm.trans hhost) (by decide)
    exact exists_standsIn_at htiles (.inr ⟨t, ht, hend.symm⟩) hlt

end Covering

/-! ## A piece of host text by itself -/

/-- The beginning of the runtime's import. -/
def importText (runtime : String) : Bytes := utf8 ("const " ++ runtime ++ " = @import(")

theorem importText_eq_cons (runtime : String) : ∃ rest, importText runtime = ascii 'c' :: rest := by
  rw [importText, utf8_append, utf8_append]
  exact ⟨_, rfl⟩

theorem importText_length_pos (runtime : String) : 0 < (importText runtime).length := by
  obtain ⟨rest, hrest⟩ := importText_eq_cons runtime
  rw [hrest]
  exact Nat.succ_pos _

theorem head_of_importText {runtime : String} {b : UInt8} {rest : Bytes}
    (h : importText runtime <+: b :: rest) : b = ascii 'c' := by
  obtain ⟨_, hcons⟩ := importText_eq_cons runtime
  rw [hcons] at h
  exact (List.cons_prefix_cons.mp h).1.symm

theorem walkFrom_importVisit (runtime : String) (text : Bytes) : ∀ skip offset,
    walkFrom (importVisit (importText runtime)) (fun _ _ => false) skip () offset text =
      importsRuntime runtime (text.drop skip) := by
  induction text with
  | nil =>
    intro skip offset
    rw [List.drop_nil]
    cases skip <;> rfl
  | cons b rest ih =>
    intro skip offset
    cases skip with
    | succ skip => rw [walkFrom, ih, List.drop_succ_cons]
    | zero =>
      change _ = walkFrom (importVisit (importText runtime)) _ 0 () 0 (b :: rest)
      rw [walkFrom, walkFrom, importVisit, importVisit]
      cases lexeme b rest with
      | trivia length | broken length => simp only [ih]
      | plain => cases (importText runtime).isPrefixOf (b :: rest) <;> simp [ih]

section Piece

variable {runtime : String} {b : UInt8} {rest : Bytes}

theorem importsRuntime_plain (h : lexeme b rest = .plain) : importsRuntime runtime (b :: rest) =
    ((importText runtime).isPrefixOf (b :: rest) || importsRuntime runtime rest) := by
  change walkFrom (importVisit (importText runtime)) _ 0 () 0 (b :: rest) = _
  rw [walkFrom, importVisit, h]
  cases (importText runtime).isPrefixOf (b :: rest) <;> simp [walkFrom_importVisit]

/-- No import begins at the end of a line, so it does not matter on which side of it the look for
one goes on behind a string that is broken off. -/
theorem importsRuntime_token {length : Nat}
    (h : lexeme b rest = .trivia length ∨ lexeme b rest = .broken length) :
    importsRuntime runtime (b :: rest) = importsRuntime runtime (rest.drop (length - 1)) := by
  change walkFrom (importVisit (importText runtime)) _ 0 () 0 (b :: rest) = _
  rw [walkFrom, importVisit]
  rcases h with h | h
  · simp only [h, walkFrom_importVisit]
  · simp only [h, walkFrom_importVisit, Nat.add_sub_cancel]
    obtain ⟨rfl, rfl⟩ := broken_cases h
    rw [Nat.add_sub_cancel]
    have hopen : (quotedTail (ascii '"') rest).closed = false := by
      rw [lexeme_quote] at h
      split at h
      · cases h
      · next hnot => simpa using hnot
    rcases quotedTail_open hopen with hend | hline
    · rw [List.drop_eq_nil_of_le (Nat.le_of_eq hend.symm),
        List.drop_eq_nil_of_le (by omega)]
    · obtain ⟨hlt, hget⟩ := List.getElem?_eq_some_iff.mp hline
      rw [List.drop_eq_getElem_cons hlt, hget, importsRuntime_plain rfl]
      have hnone : (importText runtime).isPrefixOf
          (ascii '\n' :: rest.drop ((quotedTail (ascii '"') rest).length + 1)) = false := by
        rw [← Bool.not_eq_true, List.isPrefixOf_iff_prefix]
        intro hbegins
        exact absurd (head_of_importText hbegins) (by decide)
      rw [hnone, Bool.false_or]

end Piece

/-- Host text and what is behind it: nothing, or the next template root. -/
def HostUpTo (host after : Bytes) : Prop :=
  after = [] ∧ nextTemplate? host = none ∨
    after.head? = some (ascii '(') ∧ nextTemplate? (host ++ after) = some host.length

namespace HostUpTo

variable {b : UInt8} {host after : Bytes}

/-- A step of the search does not lead past the root. -/
theorem behind (h : HostUpTo host after) {k : Nat}
    (hstep : nextTemplate? (host ++ after) = (nextTemplate? ((host ++ after).drop k)).map (· + k)) :
    (host ++ after).drop k = host.drop k ++ after ∧ HostUpTo (host.drop k) after ∧
      (after ≠ [] → k ≤ host.length) := by
  rcases h with ⟨rfl, hnone⟩ | ⟨hhead, hfound⟩
  · rw [List.append_nil, hnone] at hstep
    simp only [List.append_nil, ne_eq, not_true_eq_false, false_implies, and_true, true_and]
    exact .inl ⟨rfl, Option.map_eq_none_iff.mp hstep.symm⟩
  · rw [hfound] at hstep
    obtain ⟨m, hm, hsum⟩ := Option.map_eq_some_iff.mp hstep.symm
    have hle : k ≤ host.length := by omega
    rw [List.drop_append_of_le_length hle] at hm ⊢
    refine ⟨rfl, .inr ⟨hhead, ?_⟩, fun _ => hle⟩
    rw [hm, List.length_drop]
    congr 1
    omega

/-- A token of host text is the same with the root behind it cut off. -/
theorem lexeme_eq (h : HostUpTo (b :: host) after) : lexeme b host = lexeme b (host ++ after) := by
  have hwithin : ∀ {length : Nat}, lexeme b (host ++ after) = .trivia length ∨
      lexeme b (host ++ after) = .broken length → after ≠ [] → length ≤ host.length + 1 := by
    intro length hlexeme
    refine (h.behind ?_).2.2
    rw [List.cons_append, nextTemplate?_token hlexeme]
    exact congrArg (Option.map (· + length) <| nextTemplate? ·)
      (drop_token (token_pos hlexeme) 0).symm
  rcases h with ⟨rfl, _⟩ | ⟨hhead, _⟩
  · rw [List.append_nil]
  have hne : after ≠ [] := by
    rintro rfl
    cases hhead
  have hslash : b = ascii '/' ∨ b = ascii '\\' →
      ((host ++ []).head? = some b ↔ (host ++ after).head? = some b) := by
    intro hb
    cases host with
    | cons c host => rfl
    | nil =>
      rw [List.nil_append, List.nil_append, hhead]
      rcases hb with rfl | rfl <;> decide
  -- A quote that is closed in the text is closed there whatever follows.
  have hclosed : (quotedTail (ascii '\'') (host ++ after)).closed = false →
      (quotedTail (ascii '\'') (host ++ [])).closed = false := by
    rw [List.append_nil]
    intro hopen
    rw [← Bool.not_eq_true]
    intro hclosed
    have hsame := quotedTail_take_append hclosed
      (host.drop (quotedTail (ascii '\'') host).length ++ after)
    rw [← List.append_assoc, List.take_append_drop] at hsame
    rw [hsame, hclosed] at hopen
    cases hopen
  have hsame := lexeme_replaced hhead b host hslash hclosed
  rw [List.append_nil] at hsame
  cases hlexeme : lexeme b (host ++ after) with
  | plain => simpa only [hlexeme] using hsame
  | trivia length =>
    rw [hlexeme] at hsame
    exact hsame (hwithin (.inl hlexeme) hne)
  | broken length =>
    rw [hlexeme] at hsame
    exact hsame (hwithin (.inr hlexeme) hne)

end HostUpTo

/-- The import of the runtime that a search through a text comes by, before an offset. -/
def FoundBefore (runtime : String) (stop : Nat) (text : Bytes) : Prop :=
  ∃ k, Searched text k ∧ k + (importText runtime).length ≤ stop ∧ importText runtime <+: text.drop k

section FoundBefore

variable {runtime : String} {b : UInt8} {rest : Bytes} {stop : Nat}

theorem foundBefore_token {length : Nat}
    (h : lexeme b rest = .trivia length ∨ lexeme b rest = .broken length) :
    FoundBefore runtime stop (b :: rest) ↔
      FoundBefore runtime (stop - length) (rest.drop (length - 1)) := by
  have hpos := importText_length_pos runtime
  constructor
  · rintro ⟨k, hsearched, hle, hbegins⟩
    cases hsearched with
    | here =>
      obtain rfl := head_of_importText hbegins
      rcases h with h | h <;> cases h
    | @token _ _ length' n h' hrest =>
      obtain rfl : length' = length := by
        rcases h with h | h <;> rcases h' with h' | h' <;> cases h.symm.trans h' <;> rfl
      rw [drop_token (token_pos h)] at hbegins
      exact ⟨n, hrest, by omega, hbegins⟩
    | byte h' _ _ => rcases h with h | h <;> cases h.symm.trans h'
  · rintro ⟨k, hsearched, hle, hbegins⟩
    exact ⟨length + k, .token h hsearched, by omega, by rwa [drop_token (token_pos h)]⟩

theorem foundBefore_byte (h : lexeme b rest = .plain)
    (hother : beginsTemplate (b :: rest) = false) : FoundBefore runtime (stop + 1) (b :: rest) ↔
      (importText runtime).length ≤ stop + 1 ∧ importText runtime <+: b :: rest ∨
        FoundBefore runtime stop rest := by
  constructor
  · rintro ⟨k, hsearched, hle, hbegins⟩
    cases hsearched with
    | here => exact .inl ⟨by omega, hbegins⟩
    | token h' _ => rcases h' with h' | h' <;> cases h.symm.trans h'
    | @byte _ _ n _ _ hrest => exact .inr ⟨n, hrest, by omega, hbegins⟩
  · rintro (⟨hle, hbegins⟩ | ⟨k, hsearched, hle, hbegins⟩)
    · exact ⟨0, .here _, by omega, hbegins⟩
    · exact ⟨k + 1, .byte h hother hsearched, by omega, hbegins⟩

end FoundBefore

/-- In a piece of host text by itself an import is found just where the search for the root behind
it comes by one that ends before the root. -/
theorem importsRuntime_iff {runtime : String} {host after : Bytes} (h : HostUpTo host after) :
    importsRuntime runtime host = true ↔ FoundBefore runtime host.length (host ++ after) := by
  induction hn : host.length using Nat.strongRecOn generalizing host with
  | ind n ih =>
    subst hn
    cases host with
    | nil =>
      refine iff_of_false (by simp [importsRuntime, walk, walkFrom]) ?_
      rintro ⟨k, _, hle, _⟩
      have := importText_length_pos runtime
      simp only [List.length_nil] at hle
      omega
    | cons b host =>
      have hsame := h.lexeme_eq
      rw [List.cons_append, List.length_cons]
      have htoken : ∀ length, lexeme b host = .trivia length ∨ lexeme b host = .broken length →
          (importsRuntime runtime (b :: host) = true ↔
            FoundBefore runtime (host.length + 1) (b :: (host ++ after))) := by
        intro length hlexeme
        have hwhole : lexeme b (host ++ after) = .trivia length ∨
            lexeme b (host ++ after) = .broken length := hsame ▸ hlexeme
        have hpos := token_pos hlexeme
        have hdrop : ∀ rest : Bytes, (b :: rest).drop length = rest.drop (length - 1) := fun rest =>
          drop_token hpos 0
        obtain ⟨hcut, hrest, _⟩ := h.behind (k := length) (by
          rw [List.cons_append, nextTemplate?_token hwhole, hdrop])
        rw [List.cons_append, hdrop, hdrop] at hcut
        rw [hdrop] at hrest
        rw [importsRuntime_token hlexeme, foundBefore_token hwhole, hcut,
          ih _ (by simp only [List.length_drop, List.length_cons]; omega) hrest rfl,
          List.length_drop, show host.length + 1 - length = host.length - (length - 1) by omega]
      cases hlexeme : lexeme b host with
      | trivia length => exact htoken length (.inl hlexeme)
      | broken length => exact htoken length (.inr hlexeme)
      | plain =>
        have hwhole : lexeme b (host ++ after) = .plain := hsame ▸ hlexeme
        have hother : beginsTemplate (b :: (host ++ after)) = false := by
          rw [← Bool.not_eq_true]
          intro hbegins
          have hzero := nextTemplate?_begins hbegins
          rcases h with ⟨rfl, hnone⟩ | ⟨_, hfound⟩
          · rw [List.append_nil, hnone] at hzero
            cases hzero
          · rw [← List.cons_append, hfound] at hzero
            cases hzero
        have hrest : HostUpTo host after :=
          (h.behind (k := 1) (nextTemplate?_byte hwhole hother)).2.1
        rw [importsRuntime_plain hlexeme, Bool.or_eq_true, List.isPrefixOf_iff_prefix,
          foundBefore_byte hwhole hother, ih _ (by simp) hrest rfl]
        refine or_congr ⟨fun hbegins => ⟨hbegins.length_le, hbegins.trans ?_⟩, ?_⟩ Iff.rfl
        · rw [← List.cons_append]
          exact List.prefix_append _ _
        · rintro ⟨hle, hbegins⟩
          exact List.prefix_of_prefix_length_le hbegins (List.prefix_append (b :: host) after) hle

/-! ## Files -/

/-- The scan of a source comes, outside of all roots, by an import of the runtime that ends in the
same host text. -/
def MeetsImport (source : Bytes) (runtime : String) : Prop :=
  ∃ n, Scanned source n ∧
    (∀ root ∈ (parse source).templateRoots, n < root.span.start ∨ root.span.stop ≤ n) ∧
    ∃ host ∈ (parse source).childrenOf .hostText, host.span.start ≤ n ∧
      n + (importText runtime).length ≤ host.span.stop ∧ importText runtime <+: source.drop n

theorem mem_childrenOf {t u : Tree} {kind : Kind} :
    u ∈ t.childrenOf kind ↔ u ∈ t.children ∧ u.kind = kind := by
  simp [childrenOf]

/-- The scan stands where roots begin, and a root begins wherever it meets one. -/
theorem root_start_iff (source : Bytes) (n : Nat) :
    (∃ root ∈ (parse source).templateRoots, root.span.start = n) ↔
      Scanned source n ∧ beginsTemplate (source.drop n) = true := by
  constructor
  · rintro ⟨root, hroot, rfl⟩
    obtain ⟨hmem, hkind⟩ := mem_childrenOf.mp hroot
    have hscanned := scanned_of_tiles (parse_tiles source) (fun _ => isRead_of_mem) .start root hmem
    refine ⟨hscanned, ?_⟩
    have hstands : StandsIn source root.span.start root :=
      standsIn_start (start_lt_stop (parse_tiles source) hmem)
    exact (beginsTemplate_of_standsIn hstands (isRead_of_mem hmem)).mpr hkind
  · rintro ⟨hscanned, hbegins⟩
    have hlt : n < source.length := by
      obtain ⟨rest, hrest⟩ := exists_cons_of_beginsTemplate hbegins
      exact lt_of_drop_eq_cons hrest
    obtain ⟨t, ht, hstands⟩ := exists_standsIn hscanned hlt
    have hkind := (beginsTemplate_of_standsIn hstands (isRead_of_mem ht)).mp hbegins
    exact ⟨t, mem_childrenOf.mpr ⟨ht, hkind⟩, (hstands.root hkind).symm⟩

section Pieces

variable {source : Bytes} {t : Tree} (ht : t ∈ (parse source).children)

include ht in
theorem slice_append_behind :
    t.span.slice source ++ source.drop t.span.stop = source.drop t.span.start :=
  (slice_append_drop source rfl (Nat.le_of_lt (start_lt_stop (parse_tiles source) ht))).symm

include ht in
theorem length_slice_of_mem : (t.span.slice source).length = t.span.stop - t.span.start :=
  Span.length_slice (Nat.le_of_lt (start_lt_stop (parse_tiles source) ht))
    ((parse_tiles source).row.le.2 t ht).2

include ht in
theorem hostUpTo_of_mem (hkind : t.kind = .hostText) :
    HostUpTo (t.span.slice source) (source.drop t.span.stop) := by
  have hlt := start_lt_stop (parse_tiles source) ht
  have hspelled := ((parse_spells source).child ht).here
  have hfound := nextTemplate?_of_host hkind hspelled
  by_cases hlast : t.span.stop < source.length
  · obtain ⟨rest, hrest⟩ := exists_cons_of_beginsTemplate
      (begins_behind hkind hspelled (Nat.le_of_lt hlt) hlast)
    rw [if_pos hlast, ← slice_append_behind ht] at hfound
    refine .inr ⟨by rw [hrest]; rfl, ?_⟩
    rw [hfound, length_slice_of_mem ht, Span.length]
  · have hnil : source.drop t.span.stop = [] := List.drop_eq_nil_of_le (Nat.le_of_not_lt hlast)
    rw [if_neg hlast, ← slice_append_behind ht, hnil, List.append_nil] at hfound
    exact .inl ⟨hnil, hfound⟩

end Pieces

/-- An import is found in one of the pieces of host text just where the scan comes by it. -/
theorem hasImport_iff (options : Options) (source : Bytes) :
    hasImport options source (parse source) = true ↔ MeetsImport source options.runtime := by
  have htiles := parse_tiles source
  have hlength := importText_length_pos options.runtime
  rw [hasImport, List.any_eq_true]
  constructor
  · rintro ⟨host, hhost, himports⟩
    obtain ⟨hmem, hkind⟩ := mem_childrenOf.mp hhost
    obtain ⟨k, hsearched, hle, hbegins⟩ :=
      (importsRuntime_iff (hostUpTo_of_mem hmem hkind)).mp himports
    rw [slice_append_behind hmem] at hsearched hbegins
    rw [length_slice_of_mem hmem] at hle
    have hscanned := scanned_of_tiles htiles (fun _ => isRead_of_mem) .start host hmem
    refine ⟨_, hscanned.search hsearched, fun root hroot => ?_, host, hhost,
      Nat.le_add_right _ _, by omega, by rwa [← List.drop_drop]⟩
    -- Otherwise the two parts are the same.
    obtain ⟨hroot, hrootKind⟩ := mem_childrenOf.mp hroot
    refine Decidable.or_iff_not_imp_left.mpr fun hbehind => Nat.le_of_not_lt fun hbefore => ?_
    have hsame := eq_of_tiles htiles hroot hmem ⟨Nat.le_of_not_lt hbehind, hbefore⟩
      ⟨Nat.le_add_right _ _, by omega⟩
    rw [hsame, hkind] at hrootKind
    cases hrootKind
  · rintro ⟨n, hscanned, _, host, hhost, hstart, hstop, hbegins⟩
    obtain ⟨hmem, hkind⟩ := mem_childrenOf.mp hhost
    refine ⟨host, hhost, (importsRuntime_iff (hostUpTo_of_mem hmem hkind)).mpr ?_⟩
    have hlast := (htiles.row.le.2 host hmem).2
    obtain ⟨t, ht, hstands⟩ := exists_standsIn hscanned (by omega)
    obtain rfl := eq_of_tiles htiles ht hmem ⟨hstands.start_le, hstands.lt_stop⟩
      ⟨hstart, by omega⟩
    rw [slice_append_behind hmem, length_slice_of_mem hmem]
    refine ⟨n - t.span.start, hstands.host hkind, by omega, ?_⟩
    rwa [List.drop_drop, Nat.add_sub_cancel' hstart]

/-- Whether an import is added makes no difference to the code of the templates. -/
theorem replaceRoots_injectImport (options : Options) (inject : Bool) (source : Bytes)
    (lines : LineIndex) (parts : List Tree) : ∀ templates : List Template,
    replaceRoots { options with injectImport := inject } source lines templates parts =
      replaceRoots options source lines templates parts := by
  induction parts with
  | nil => exact fun _ => rfl
  | cons part parts ih =>
    intro templates
    unfold replaceRoots
    split
    · cases templates with
      | nil => exact ih []
      | cons template templates =>
        simp only [ih]
        rfl
    · simp only [ih]

theorem generate_injectImport {options : Options} {source : Bytes} {file : Tree}
    {compiled : Compiled} (h : generate options source file = .ok compiled)
    (htemplates : 0 < compiled.templates) :
    ∃ plain, generate { options with injectImport := false } source file = .ok plain ∧
      compiled.code = addedImport options source file ++ plain.code := by
  obtain ⟨templates, hok, h⟩ := Checked.ok_of_bind h
  have hsome : ¬ templates.isEmpty = true := by
    intro hempty
    rw [if_pos hempty] at h
    cases h
    cases htemplates
  rw [if_neg hsome] at h
  cases h
  refine ⟨_, (congrArg (· >>= _) hok).trans (if_neg hsome), ?_⟩
  simp [replaceRoots_injectImport, addedImport]

/-- The import decision follows the scan by which the roots were found: that scan meets exactly
the roots of the tree, an import is found where it meets one in host text, and for a file with
templates the import line is put in front exactly where it meets none. -/
theorem import_decision_follows_scan (options : Options) (source : Bytes) :
    (∀ n, (∃ root ∈ (parse source).templateRoots, root.span.start = n) ↔
      Scanned source n ∧ beginsTemplate (source.drop n) = true) ∧
    (hasImport options source (parse source) = true ↔ MeetsImport source options.runtime) ∧
    (∀ compiled, generate options source (parse source) = .ok compiled →
      0 < compiled.templates → options.injectImport = true →
      ∃ plain, generate { options with injectImport := false } source (parse source) = .ok plain ∧
        (MeetsImport source options.runtime → compiled.code = plain.code) ∧
        (¬ MeetsImport source options.runtime →
          compiled.code = importLine options ++ plain.code)) := by
  have himport := hasImport_iff options source
  refine ⟨root_start_iff source, himport, fun compiled hcompiled hcount hinject => ?_⟩
  obtain ⟨plain, hplain, hcode⟩ := generate_injectImport hcompiled hcount
  refine ⟨plain, hplain, fun hmeets => ?_, fun hnot => ?_⟩
  · rw [hcode, addedImport, himport.mpr hmeets]
    simp
  · rw [hcode, addedImport, eq_false_of_ne_true (mt himport.mp hnot), hinject]
    simp

/-- The import stands behind a comment and a string that is broken off, and each mentions it. -/
def mentioningSource : Bytes :=
  utf8 "// const zigx = @import(\n\"const zigx = @import(\nconst zigx = @import(\"zigx\");\n(<p/>)"

/-- The parenthesis of the import is that of a root. -/
def swallowingSource : Bytes := utf8 "const zigx = @import(<p/>);\n"

theorem import_decision_follows_scan_mentioned :
    (∃ compiled plain, generate {} mentioningSource (parse mentioningSource) = .ok compiled ∧
      0 < compiled.templates ∧ MeetsImport mentioningSource "zigx" ∧
      generate { injectImport := false } mentioningSource (parse mentioningSource) = .ok plain ∧
      compiled.code = plain.code) ∧
    ∃ compiled plain, generate {} swallowingSource (parse swallowingSource) = .ok compiled ∧
      0 < compiled.templates ∧ ¬ MeetsImport swallowingSource "zigx" ∧
      generate { injectImport := false } swallowingSource (parse swallowingSource) = .ok plain ∧
      compiled.code = importLine {} ++ plain.code := by
  have hcount : ∀ source, ((generate {} source (parse source)).toOption.any
      fun compiled => decide (0 < compiled.templates)) = true →
      ∃ compiled, generate {} source (parse source) = .ok compiled ∧ 0 < compiled.templates := by
    intro source h
    cases hrun : generate {} source (parse source) with
    | error e =>
      rw [hrun] at h
      cases h
    | ok compiled =>
      rw [hrun] at h
      exact ⟨compiled, rfl, of_decide_eq_true h⟩
  constructor
  · obtain ⟨compiled, hcompiled, hpos⟩ := hcount mentioningSource (by decide +kernel)
    obtain ⟨_, himport, hcode⟩ := import_decision_follows_scan {} mentioningSource
    have hmeets : MeetsImport mentioningSource "zigx" := himport.mp (by decide +kernel)
    obtain ⟨plain, hplain, hsame, _⟩ := hcode compiled hcompiled hpos rfl
    exact ⟨compiled, plain, hcompiled, hpos, hmeets, hplain, hsame hmeets⟩
  · obtain ⟨compiled, hcompiled, hpos⟩ := hcount swallowingSource (by decide +kernel)
    obtain ⟨_, himport, hcode⟩ := import_decision_follows_scan {} swallowingSource
    have hmeets : ¬ MeetsImport swallowingSource "zigx" := mt himport.mpr (by decide +kernel)
    obtain ⟨plain, hplain, _, hadded⟩ := hcode compiled hcompiled hpos rfl
    exact ⟨compiled, plain, hcompiled, hpos, hmeets, hplain, hadded hmeets⟩

end ZigMarkup
