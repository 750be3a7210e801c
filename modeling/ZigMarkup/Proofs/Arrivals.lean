import ZigMarkup.Proofs.Boundaries

/-!
Where reading arrives. Begun at a boundary of a source, a step of the reader ends at one, or it
fails with a span between two and stops at one. `Goes` is the rule for steps put together; it
also tells which offset each step comes to, so that spans are known as numbers.
-/
namespace ZigMarkup

variable {source : Bytes} {n m : Nat}

/-! ## Moving a cursor -/

theorem cursorAt_skip (source : Bytes) (n k : Nat) :
    (cursorAt source n).skip k = cursorAt source (n + k) := by
  simp only [Cursor.skip, cursorAt, List.drop_drop]

theorem cursorAt_bump {b : UInt8} {rest : Bytes} (h : source.drop n = b :: rest) :
    (cursorAt source n).bump = cursorAt source (n + 1) := by
  have hlength : min 1 (cursorAt source n).rest.length = 1 := by
    simp [cursorAt, h]
  rw [Cursor.bump, Cursor.advance, hlength, cursorAt_skip]

/-- Going on to a later boundary never goes past the end. -/
theorem cursorAt_advance (hm : m ≤ source.length) (hle : n ≤ m) :
    (cursorAt source n).advance (m - n) = cursorAt source m := by
  have hlength : min (m - n) (cursorAt source n).rest.length = m - n := by
    simp only [cursorAt, List.length_drop]
    omega
  rw [Cursor.advance, hlength, cursorAt_skip, Nat.add_sub_cancel' hle]

theorem exists_drop_of_peek {b : UInt8} (h : (cursorAt source n).peek = some b) :
    ∃ rest, source.drop n = b :: rest := List.head?_eq_some_iff.mp h

theorem exists_drop_of_startsWith {text : String} (h : (cursorAt source n).startsWith text = true) :
    ∃ rest, source.drop n = utf8 text ++ rest := by
  obtain ⟨rest, hrest⟩ := List.isPrefixOf_iff_prefix.mp h
  exact ⟨rest, hrest.symm⟩

theorem Boundary.ahead {run rest : Bytes} (hn : Boundary source n)
    (h : source.drop n = run ++ rest) (hrun : run.all isAscii = true) :
    Boundary source (n + run.length) := by
  have hrest := boundary_of_ascii_run (h ▸ hn.text) (List.all_eq_true.mp hrun)
  rw [← h] at hrest
  exact hn.shift hrest

theorem Boundary.next {b : UInt8} {rest : Bytes} (hn : Boundary source n)
    (h : source.drop n = b :: rest) (hb : isAscii b = true) : Boundary source (n + 1) :=
  @Boundary.ahead source n [b] rest hn h (by simpa using hb)

/-- The blanks that lie ahead of an offset. -/
def blanksAt (source : Bytes) (n : Nat) : Nat := ((source.drop n).takeWhile isAsciiBlank).length

theorem cursorAt_skipBlanks (source : Bytes) (n : Nat) :
    (cursorAt source n).skipBlanks = cursorAt source (n + blanksAt source n) :=
  cursorAt_skip source n _

theorem Boundary.behindBlanks (hn : Boundary source n) :
    Boundary source (n + blanksAt source n) :=
  hn.shift (boundary_takeWhile (fun _ => isAscii_of_blank) hn.text)

theorem Boundary.keyword {word : String} (hn : Boundary source n)
    (h : (cursorAt source n).atKeyword word = true) (hword : (utf8 word).all isAscii = true) :
    Boundary source (n + (utf8 word).length) := by
  unfold Cursor.atKeyword at h
  obtain ⟨rest, hrest⟩ := exists_drop_of_startsWith (Bool.and_eq_true_iff.mp h).1
  exact hn.ahead hrest hword

/-- A group of host code, up to the closer that reading comes to. -/
structure GroupAt (source : Bytes) (n m : Nat) : Prop where
  two_le : n + 2 ≤ m
  last : Boundary source (m - 1)
  reach : Reaches (source.drop n) (m - 1 - n)
  closer : ∃ b rest, isCloser b = true ∧ source.drop (m - 1) = b :: rest

namespace ScanM

variable {α β : Type} {R : α → Nat → Prop}

/-- Begun at an offset, reading comes to a boundary where `R` holds of what it gives, or it
fails with a span between boundaries, at a boundary. -/
def Goes (source : Bytes) (n : Nat) (p : ScanM α) (R : α → Nat → Prop) : Prop :=
  match p (cursorAt source n) with
  | .ok a next => ∃ m, next = cursorAt source m ∧ Boundary source m ∧ R a m
  | .error e reached =>
    e.span.Cuts source ∧ ∃ m, reached = cursorAt source m ∧ Boundary source m

theorem Goes.pure {a : α} (hn : Boundary source n) (h : R a n) : Goes source n (pure a) R :=
  ⟨n, rfl, hn, h⟩

theorem Goes.bind {x : ScanM α} {f : α → ScanM β} {Q : α → Nat → Prop} {R : β → Nat → Prop}
    (hx : Goes source n x Q)
    (hf : ∀ a m, Boundary source m → Q a m → Goes source m (f a) R) :
    Goes source n (x >>= f) R := by
  unfold Goes at hx ⊢
  change match EStateM.bind x f (cursorAt source n) with | .ok a next => _ | .error e reached => _
  unfold EStateM.bind
  split at hx
  · next a next hok =>
    obtain ⟨m, rfl, hm, hQ⟩ := hx
    rw [hok]
    exact hf a m hm hQ
  · next e reached herror =>
    rw [herror]
    exact hx

theorem Goes.mono {p : ScanM α} {Q : α → Nat → Prop} (h : Goes source n p Q)
    (hQR : ∀ a m, Q a m → R a m) : Goes source n p R := by
  unfold Goes at h ⊢
  split at h
  · obtain ⟨m, hnext, hm, hQ⟩ := h
    exact ⟨m, hnext, hm, hQR _ m hQ⟩
  · exact h

theorem Goes.ite {c : Prop} [Decidable c] {x y : ScanM α} (hx : c → Goes source n x R)
    (hy : ¬ c → Goes source n y R) : Goes source n (if c then x else y) R := by
  split
  · next h => exact hx h
  · next h => exact hy h

theorem Goes.get {f : Cursor → ScanM α} (h : Goes source n (f (cursorAt source n)) R) :
    Goes source n (get >>= f) R := h

theorem goes_get {R : Cursor → Nat → Prop} (hn : Boundary source n) (h : R (cursorAt source n) n) :
    Goes source n get R := ⟨n, rfl, hn, h⟩

theorem Goes.set {f : PUnit → ScanM α} {c : Cursor} (hc : c = cursorAt source m)
    (h : Goes source m (f ⟨⟩) R) : Goes source n (set c >>= f) R := by
  subst hc
  exact h

theorem Goes.modify {f : PUnit → ScanM α} {move : Cursor → Cursor}
    (hmove : move (cursorAt source n) = cursorAt source m) (h : Goes source m (f ⟨⟩) R) :
    Goes source n (modify move >>= f) R := by
  unfold Goes
  change match f ⟨⟩ (move (cursorAt source n)) with | .ok a next => _ | .error e reached => _
  rw [hmove]
  exact h

theorem goes_fail {span : Span} {fault : Fault} (hn : Boundary source n)
    (hspan : span.Cuts source) : Goes source n (fail span fault) R :=
  ⟨hspan, n, rfl, hn⟩

theorem goes_expected {what : Wanted} (hn : Boundary source n) :
    Goes source n (expected what) R :=
  .get (goes_fail hn hn.point)

theorem Goes.skipBlanks {f : Unit → ScanM α} (hn : Boundary source n)
    (h : ∀ m, Boundary source m → n ≤ m →
      (∀ x ∈ Span.slice ⟨n, m⟩ source, isAsciiBlank x = true) → Goes source m (f ()) R) :
    Goes source n (skipBlanks >>= f) R := by
  have hrun := boundary_takeWhile (p := isAsciiBlank) (fun _ => isAscii_of_blank) hn.text
  refine Goes.modify (cursorAt_skip source n _) (h _ (hn.shift hrun) (Nat.le_add_right _ _) ?_)
  have hsplit : source.drop n = (source.drop n).takeWhile isAsciiBlank ++
      (source.drop n).dropWhile isAsciiBlank := List.takeWhile_append_dropWhile.symm
  change ∀ x ∈ Span.slice ⟨n, n + ((source.drop n).takeWhile isAsciiBlank).length⟩ source, _
  rw [Span.slice_of_drop hsplit]
  exact List.all_eq_true.mp List.all_takeWhile

/-- Reading what a measure finds. -/
theorem Goes.read {f : Unit → ScanM α} {measure : Bytes → Except Failure Nat}
    (hn : Boundary source n) (hmeasure : Bounded (source.drop n) (measure (source.drop n)))
    (h : ∀ k, measure (source.drop n) = .ok k → Boundary source (n + k) →
      Goes source (n + k) (f ()) R) : Goes source n (read measure >>= f) R := by
  refine Goes.bind (Q := fun _ m => ∃ k, measure (source.drop n) = .ok k ∧ m = n + k) ?_ ?_
  · have hrest : (cursorAt source n).rest = source.drop n := rfl
    unfold Goes ScanM.read
    rw [hrest]
    cases hresult : measure (source.drop n) with
    | ok k =>
      rw [hresult] at hmeasure
      exact ⟨n + k, cursorAt_skip source n k, hn.shift hmeasure, k, rfl, rfl⟩
    | error failure =>
      rw [hresult] at hmeasure
      exact ⟨hmeasure.1.shift hn, n + failure.reached, cursorAt_skip source n _, hn.shift hmeasure.2⟩
  · rintro _ m hm ⟨k, hk, rfl⟩
    exact h k hk hm

theorem Goes.eat {f : Bool → ScanM α} {text : String} {run : Bytes} (hn : Boundary source n)
    (htext : utf8 text = run) (hrun : run.all isAscii = true)
    (hyes : ∀ rest, source.drop n = run ++ rest → Boundary source (n + run.length) →
      Goes source (n + run.length) (f true) R)
    (hno : (cursorAt source n).startsWith text = false → Goes source n (f false) R) :
    Goes source n (eat text >>= f) R := by
  unfold Goes
  cases hstart : (cursorAt source n).startsWith text with
  | true =>
    obtain ⟨rest, hrest⟩ := exists_drop_of_startsWith hstart
    rw [htext] at hrest
    rw [bind_of_ok (eat_eq text (cursorAt source n)), hstart, if_pos rfl, htext, cursorAt_skip]
    exact hyes rest hrest (hn.ahead hrest hrun)
  | false =>
    rw [bind_of_ok (eat_eq text (cursorAt source n)), hstart, if_neg Bool.false_ne_true]
    exact hno hstart

theorem Goes.expect {f : Unit → ScanM α} {text : String} {what : Wanted} {run : Bytes}
    (hn : Boundary source n) (htext : utf8 text = run) (hrun : run.all isAscii = true)
    (h : ∀ rest, source.drop n = run ++ rest → Boundary source (n + run.length) →
      Goes source (n + run.length) (f ()) R) : Goes source n (expect text what >>= f) R := by
  refine Goes.bind (Q := fun _ m => ∃ rest, source.drop n = run ++ rest ∧ m = n + run.length) ?_ ?_
  · refine Goes.eat hn htext hrun (fun rest hrest hm => ?_) fun _ => goes_expected hn
    exact .pure hm ⟨rest, hrest, rfl⟩
  · rintro _ m hm ⟨rest, hrest, rfl⟩
    exact h rest hrest hm

theorem Goes.word {f : Option Span → ScanM α} {p : UInt8 → Bool} (hn : Boundary source n)
    (hp : ∀ b, p b = true → isAscii b = true) (hstart : ∀ b, isIdentStart b = true → p b = true)
    (hyes : ∀ m, Boundary source m → n < m → (∀ x ∈ Span.slice ⟨n, m⟩ source, p x = true) →
      Goes source m (f (some ⟨n, m⟩)) R)
    (hno : (cursorAt source n).peek.any isIdentStart = false → Goes source n (f none) R) :
    Goes source n (word p >>= f) R := by
  refine Goes.bind (Q := fun o m =>
    (∀ span ∈ o, n < m ∧ span = ⟨n, m⟩ ∧ ∀ x ∈ Span.slice ⟨n, m⟩ source, p x = true) ∧
      (o = none → m = n ∧ (cursorAt source n).peek.any isIdentStart = false)) ?_ ?_
  · refine Goes.get (.ite (fun hpeek => ?_) fun hpeek =>
      .pure hn ⟨by simp, fun _ => ⟨rfl, by simpa using hpeek⟩⟩)
    have hrun := hn.shift (boundary_takeWhile hp hn.text)
    have hlt : 0 < ((source.drop n).takeWhile p).length := by
      cases hdrop : source.drop n with
      | nil =>
        rw [Cursor.peek, cursorAt, hdrop] at hpeek
        cases hpeek
      | cons b rest =>
        have hb : isIdentStart b = true := by simpa [Cursor.peek, cursorAt, hdrop] using hpeek
        rw [List.takeWhile_cons, if_pos (hstart b hb)]
        exact Nat.succ_pos _
    have hsplit : source.drop n = (source.drop n).takeWhile p ++ (source.drop n).dropWhile p :=
      List.takeWhile_append_dropWhile.symm
    refine Goes.set (cursorAt_skip source n _) (.pure hrun ⟨?_, by simp⟩)
    rintro span ⟨rfl⟩
    refine ⟨Nat.lt_add_of_pos_right hlt, rfl, ?_⟩
    change ∀ x ∈ Span.slice ⟨n, n + ((source.drop n).takeWhile p).length⟩ source, _
    rw [Span.slice_of_drop hsplit]
    exact List.all_eq_true.mp List.all_takeWhile
  · intro o m hm ho
    cases o with
    | some span =>
      obtain ⟨hlt, rfl, hall⟩ := ho.1 span rfl
      exact hyes m hm hlt hall
    | none =>
      obtain ⟨rfl, hpeek⟩ := ho.2 rfl
      exact hno hpeek

theorem Goes.ident {f : Option Span → ScanM α} (hn : Boundary source n)
    (hyes : ∀ m, Boundary source m → n < m → Goes source m (f (some ⟨n, m⟩)) R)
    (hno : Goes source n (f none) R) : Goes source n (ident >>= f) R :=
  .word hn (fun b hb => isAscii_of_nameByte (by simp [isNameByte, hb]))
    (fun b hb => by simp [isIdentByte, hb]) (fun m hm hlt _ => hyes m hm hlt) fun _ => hno

theorem Goes.name {f : Option Span → ScanM α} (hn : Boundary source n)
    (hyes : ∀ m, Boundary source m → n < m → Goes source m (f (some ⟨n, m⟩)) R)
    (hno : (cursorAt source n).peek.any isIdentStart = false → Goes source n (f none) R) :
    Goes source n (name >>= f) R :=
  .word hn (fun b hb => isAscii_of_nameByte hb) (fun b hb => by simp [isNameByte, isIdentByte, hb])
    (fun m hm hlt _ => hyes m hm hlt) hno

theorem Goes.capture {f : Option Span → ScanM α} (hn : Boundary source n)
    (hyes : ∀ m, Boundary source m → n < m → IsCapture (Span.slice ⟨n, m⟩ source) →
      Goes source m (f (some ⟨n, m⟩)) R)
    (hno : Goes source n (f none) R) : Goes source n (capture >>= f) R := by
  have hbounded := captureLength_bounded hn.text _ rfl
  refine Goes.bind (Q := fun o m =>
    (∀ span ∈ o, n < m ∧ span = ⟨n, m⟩ ∧ IsCapture (Span.slice ⟨n, m⟩ source)) ∧
      (o = none → m = n)) ?_ ?_
  · have hrest : (cursorAt source n).rest = source.drop n := rfl
    unfold Goes ScanM.capture
    rw [hrest]
    cases hresult : captureLength (source.drop n) with
    | ok o =>
      rw [hresult] at hbounded
      cases o with
      | none => exact ⟨n, rfl, hn, by simp, fun _ => rfl⟩
      | some length =>
        have hcapture := captureLength_isCapture hresult
        have hlt : 0 < length := by
          obtain ⟨inner, hinner, _⟩ := hcapture
          refine Nat.pos_of_ne_zero ?_
          rintro rfl
          cases hinner
        have hslice : Span.slice ⟨n, n + length⟩ source = (source.drop n).take length := by
          rw [Span.slice, Span.length, Nat.add_sub_cancel_left]
        refine ⟨n + length, cursorAt_skip source n length, hn.shift hbounded, ?_, by simp⟩
        rintro span ⟨rfl⟩
        refine ⟨Nat.lt_add_of_pos_right hlt, rfl, ?_⟩
        rw [hslice]
        exact hcapture
    | error failure =>
      rw [hresult] at hbounded
      exact ⟨hbounded.1.shift hn, n + failure.reached, cursorAt_skip source n _, hn.shift hbounded.2⟩
  · intro o m hm ho
    cases o with
    | some span =>
      obtain ⟨hlt, rfl, hcapture⟩ := ho.1 span rfl
      exact hyes m hm hlt hcapture
    | none =>
      obtain rfl : m = n := ho.2 rfl
      exact hno

/-- What a step of a repetition adds to the results of those that follow it. Each step that
yields something reads something. -/
def Adds (Q : Nat → List α → Nat → Prop) (n : Nat) : Option α → Nat → Prop
  | none, m => Q n [] m
  | some a, m => n < m ∧ ∀ as l, Q m as l → Q n (a :: as) l

theorem goes_many {step : ScanM (Option α)} {Q : Nat → List α → Nat → Prop}
    (hstep : ∀ n, Boundary source n → Goes source n step (Adds Q n))
    (hn : Boundary source n) : Goes source n (many step) (Q n) := by
  suffices h : ∀ turns n, Boundary source n → Goes source n (manyFrom step turns) (Q n) from
    .get (h _ n hn)
  intro turns
  induction turns with
  | zero => exact fun n hn => .get (goes_fail hn hn.point)
  | succ turns ih =>
    intro n hn
    refine (hstep n hn).bind fun o m hm ho => ?_
    cases o with
    | none => exact .pure hm ho
    | some a => exact (ih m hm).bind fun as l hl has => .pure hl (ho.2 as l has)

theorem Goes.group {f : Unit → ScanM α} {opener : UInt8} {rest : Bytes} (hn : Boundary source n)
    (hdrop : source.drop n = opener :: rest) (hopener : (closerOf? opener).isSome = true)
    (h : ∀ m, Boundary source m → GroupAt source n m → Goes source m (f ()) R) :
    Goes source n (group >>= f) R := by
  refine Goes.read hn (groupLength_bounded hn.text hdrop (isAscii_of_opener hopener)) ?_
  intro k hk hm
  obtain ⟨closer, after, hpos, hcloser, hlast, hreach⟩ := groupLength_reaches hk
  have hlast' : source.drop (n + k - 1) = closer :: after := by
    rw [← hlast, List.drop_drop, Nat.add_sub_assoc hpos]
  have hone : 1 < k := by
    refine Nat.lt_of_not_le fun hle => ?_
    -- The opener would be its own closer.
    obtain rfl : k = 1 := by omega
    rw [Nat.sub_self, List.drop_zero, hdrop] at hlast
    obtain ⟨rfl, _⟩ := List.cons.inj hlast
    unfold closerOf? at hopener
    split at hopener
    · next hb => rw [hb] at hcloser; cases hcloser
    split at hopener
    · next hb => rw [hb] at hcloser; cases hcloser
    split at hopener
    · next hb => rw [hb] at hcloser; cases hcloser
    · cases hopener
  refine h (n + k) hm ⟨by omega, ?_, ?_, closer, after, hcloser, hlast'⟩
  · have hhere := (Boundary.of_ascii hn.text hlast (isAscii_of_closer hcloser)).1
    have hshift := hn.shift hhere
    rwa [← Nat.add_sub_assoc hpos] at hshift
  · rwa [show n + k - 1 - n = k - 1 by omega]

theorem Goes.parens {f : Unit → ScanM α} {what : Wanted} (hn : Boundary source n)
    (h : ∀ m, Boundary source m → GroupAt source n m → Goes source m (f ()) R) :
    Goes source n (Parser.parens what >>= f) R := by
  refine Goes.bind (Q := fun _ m => GroupAt source n m) ?_ fun _ m hm hgroup => h m hm hgroup
  refine Goes.get (.ite (fun hpeek => ?_) fun _ => goes_expected hn)
  obtain ⟨rest, hdrop⟩ := exists_drop_of_peek hpeek
  rw [← bind_pure ScanM.group]
  exact Goes.group hn hdrop (by decide) fun m hm hgroup => .pure hm hgroup

end ScanM

end ZigMarkup
