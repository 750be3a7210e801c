import ZigMarkup.Proofs.Arrivals

/-!
What the reader builds is sited: its nodes are cut out of the source at boundaries, and the host
code in them is read from token to token as far as a cut allows. A tree with no error in it is
also laid out as the source is, its parts in order and inside of it.
-/
namespace ZigMarkup

open ScanM

variable {source : Bytes} {n m k : Nat}

/-! ## Host code between two offsets -/

/-- Reading from token to token comes from one offset to another. -/
def Passes (source : Bytes) (n m : Nat) : Prop := n ≤ m ∧ Reaches (source.drop n) (m - n)

theorem Passes.trans (h : Passes source n k) (hk : Passes source k m) : Passes source n m := by
  obtain ⟨hnk, hfirst⟩ := h
  obtain ⟨hkm, hsecond⟩ := hk
  refine ⟨Nat.le_trans hnk hkm, ?_⟩
  rw [show m - n = (k - n) + (m - k) by omega]
  refine hfirst.trans ?_
  rwa [List.drop_drop, show n + (k - n) = k by omega]

theorem passes_of_unmarked (hnm : n ≤ m) (hm : m ≤ source.length)
    (h : ∀ x ∈ Span.slice ⟨n, m⟩ source, opensToken x = false) : Passes source n m := by
  refine ⟨hnm, ?_⟩
  have hreach := Reaches.plain_append h (.here (source.drop m))
  rwa [← Span.drop_start ⟨n, m⟩ source hnm, Nat.add_zero, Span.length_slice hnm hm] at hreach

theorem opensToken_of_blank {b : UInt8} (h : isAsciiBlank b = true) : opensToken b = false := by
  rcases Surface.blank_cases h with rfl | rfl | rfl | rfl | rfl <;> decide

/-- From the beginning of a piece through a group at its end. -/
theorem GroupAt.shut (h : GroupAt source k m) (hbefore : Passes source n k) :
    Shut (Span.slice ⟨n, m⟩ source) := by
  obtain ⟨b, rest, hb, hdrop⟩ := h.closer
  have htwo := h.two_le
  have hlt := lt_of_drop_eq_cons hdrop
  obtain ⟨hle, hreach⟩ := hbefore.trans ⟨by omega, h.reach⟩
  have hlast : Span.slice ⟨m - 1, m⟩ source = [b] := by
    rw [Span.slice, hdrop, Span.length, show m - (m - 1) = 1 by omega]
    rfl
  rw [Span.slice_append source hle (Nat.sub_le m 1), hlast]
  rw [Span.drop_start ⟨n, m - 1⟩ source hle, ← Span.length_slice hle (Nat.le_of_lt hlt), hdrop]
    at hreach
  exact Shut.of_closer hb hreach

theorem GroupAt.passes (h : GroupAt source n m) : Passes source n m := by
  obtain ⟨b, rest, hb, hdrop⟩ := h.closer
  have htwo := h.two_le
  refine ⟨by omega, ?_⟩
  have hlast : (source.drop n).drop (m - 1 - n) = b :: rest := by
    rw [List.drop_drop, show n + (m - 1 - n) = m - 1 by omega, hdrop]
  have hnext := h.reach.next hlast (plain_of_isCloser hb rest)
  rwa [show m - 1 - n + 1 = m - n by omega] at hnext

theorem GroupAt.trims {opener : UInt8} {rest : Bytes} (hn : Boundary source n)
    (hdrop : source.drop n = opener :: rest) (hopener : (closerOf? opener).isSome = true)
    (h : GroupAt source n m) :
    Trims source (n + 1) (m - 1) (Parser.trimmed ((cursorAt source n).skip 1) (m - 1)) := by
  have htwo := h.two_le
  rw [cursorAt_skip]
  exact trims_trimmed (hn.next hdrop (isAscii_of_opener hopener)) h.last (by omega)

theorem opensToken_of_opener {b : UInt8} (h : (closerOf? b).isSome = true) :
    opensToken b = false := by
  unfold closerOf? at h
  split at h
  · next hb => rw [hb]; decide
  split at h
  · next hb => rw [hb]; decide
  split at h
  · next hb => rw [hb]; decide
  · cases h

/-- Reading comes from behind the opener of a group to its closer. -/
theorem GroupAt.inside {opener : UInt8} {rest : Bytes} (hdrop : source.drop n = opener :: rest)
    (hopener : (closerOf? opener).isSome = true) (h : GroupAt source n m) :
    Reaches (source.drop (n + 1)) (m - 1 - (n + 1)) := by
  have htwo := h.two_le
  have hreach := h.reach
  rw [hdrop, show m - 1 - n = m - 1 - (n + 1) + 1 by omega] at hreach
  rw [← List.drop_drop, hdrop]
  exact hreach.of_byte (lexeme_of_not_opens (opensToken_of_opener hopener) rest)

/-- Code that holds a capture with a byte in it that may begin a token. -/
def MarkedCapture (code : Bytes) : Prop :=
  ∃ before capture after, code = before ++ capture ++ after ∧ IsCapture capture ∧
    ∃ b ∈ capture, opensToken b = true

theorem MarkedCapture.append {code : Bytes} (h : MarkedCapture code) (more : Bytes) :
    MarkedCapture (code ++ more) := by
  obtain ⟨before, capture, after, rfl, hcapture, hmark⟩ := h
  exact ⟨before, capture, after ++ more, by simp, hcapture, hmark⟩

/-- A capture is read as it stands, unless a token may begin in it. -/
theorem IsCapture.cases {capture : Bytes} (h : IsCapture capture) (before after : Bytes) :
    (∀ b ∈ capture, opensToken b = false) ∨ MarkedCapture (before ++ capture ++ after) := by
  by_cases hmark : ∃ b ∈ capture, opensToken b = true
  · exact .inr ⟨before, capture, after, rfl, h, hmark⟩
  · refine .inl fun b hb => ?_
    cases hb' : opensToken b with
    | false => rfl
    | true => exact absurd ⟨b, hb, hb'⟩ hmark

namespace Tree

/-! ## Facts about nodes -/

/-- No node of the tree is an error. -/
abbrev Clean (t : Tree) : Prop := t.Everywhere (·.kind ≠ .error)

/-- Trees in order between two offsets. -/
def Row (stop : Nat) : Nat → List Tree → Prop
  | start, [] => start ≤ stop
  | start, t :: ts => start ≤ t.span.start ∧ t.span.start ≤ t.span.stop ∧ Row stop t.span.stop ts

theorem Row.weaken {ts : List Tree} (h : Row m k ts) (hle : n ≤ k) : Row m n ts := by
  cases ts with
  | nil => exact Nat.le_trans hle h
  | cons t ts => exact ⟨Nat.le_trans hle h.1, h.2⟩

theorem Row.append {as bs : List Tree} (ha : Row k n as) (hb : Row m k bs) :
    Row m n (as ++ bs) := by
  induction as generalizing n with
  | nil => exact hb.weaken ha
  | cons t ts ih => exact ⟨ha.1, ha.2.1, ih ha.2.2⟩

theorem Tiles.append {as bs : List Tree} (ha : Tiles k n as) (hb : Tiles m k bs) :
    Tiles m n (as ++ bs) := by
  induction as generalizing n with
  | nil =>
    obtain rfl : n = k := ha
    exact hb
  | cons t ts ih => exact ⟨ha.1, ha.2.1, ih ha.2.2⟩

/-- How the children of elements, fragments and bodies in braces cover their parent. -/
def Covered (source : Bytes) (t : Tree) : Prop :=
  match t.kind with
  | .element => Tiles t.span.stop t.span.start t.children
  | .fragment => Tiles t.span.stop (t.span.start + 2) t.children
  | .body => (t.span.slice source).head? = some (ascii '\x7b') →
      t.span.start + 2 ≤ t.span.stop ∧ source[t.span.stop - 1]? = some (ascii '\x7d') ∧
        Tiles (t.span.stop - 1) (t.span.start + 1) t.children
  | _ => True

/-- A node laid out as the source is. -/
structure Laid (source : Bytes) (t : Tree) : Prop where
  row : Row t.span.stop t.span.start t.children
  covered : Covered source t

/-- How far the host code of a node is read from token to token. -/
def Held (source : Bytes) (t : Tree) : Prop :=
  match t.kind with
  | .hostExpr | .pattern => Shut (t.span.slice source) ∨ EndsInLine (t.span.slice source)
  | .header => Shut (t.span.slice source) ∨ MarkedCapture (t.span.slice source)
  | .capture => IsCapture (t.span.slice source)
  | .switchBlock => ∀ head ∈ t.children.head?, Shut (head.span.slice source)
  | _ => True

/-- A node cut out of the source at boundaries, with its host code held. -/
structure Sited (source : Bytes) (t : Tree) : Prop where
  cuts : t.span.Cuts source
  held : Held source t

/-- A tree read from one offset up to another. -/
structure Whole (source : Bytes) (n : Nat) (t : Tree) (m : Nat) : Prop where
  lt : n < m
  sited : t.Everywhere (Sited source)
  laid : t.Clean → t.span = ⟨n, m⟩ ∧ t.Everywhere (Laid source)

/-- Trees read between two offsets, with other text around them. -/
structure Parts (source : Bytes) (n : Nat) (ts : List Tree) (m : Nat) : Prop where
  le : n ≤ m
  sited : ∀ t ∈ ts, t.Everywhere (Sited source)
  laid : (∀ t ∈ ts, t.Clean) → Row m n ts ∧ ∀ t ∈ ts, t.Everywhere (Laid source)

/-- Trees read one right behind the other. -/
structure Run (source : Bytes) (n : Nat) (ts : List Tree) (m : Nat) : Prop
    extends Parts source n ts m where
  tiles : (∀ t ∈ ts, t.Clean) → Tiles m n ts

namespace Parts

theorem nil (h : n ≤ m) : Parts source n [] m := ⟨h, by simp, fun _ => ⟨h, by simp⟩⟩

theorem append {as bs : List Tree} (ha : Parts source n as k) (hb : Parts source k bs m) :
    Parts source n (as ++ bs) m := by
  refine ⟨Nat.le_trans ha.le hb.le, ?_, fun hclean => ?_⟩
  · intro t ht
    rcases List.mem_append.mp ht with ht | ht
    · exact ha.sited t ht
    · exact hb.sited t ht
  · obtain ⟨harow, halaid⟩ := ha.laid fun t ht => hclean t (List.mem_append_left _ ht)
    obtain ⟨hbrow, hblaid⟩ := hb.laid fun t ht => hclean t (List.mem_append_right _ ht)
    refine ⟨harow.append hbrow, fun t ht => ?_⟩
    rcases List.mem_append.mp ht with ht | ht
    · exact halaid t ht
    · exact hblaid t ht

/-- Text around trees changes nothing about them. -/
theorem widen {ts : List Tree} {l : Nat} (h : Parts source k ts l) (hle : n ≤ k) (hlm : l ≤ m) :
    Parts source n ts m := by
  have hall := ((nil hle).append h).append (nil hlm)
  simpa using hall

theorem of_whole {t : Tree} (h : Whole source n t m) : Parts source n [t] m := by
  have hle := Nat.le_of_lt h.lt
  refine ⟨hle, by simpa using h.sited, fun hclean => ?_⟩
  obtain ⟨hspan, hlaid⟩ := h.laid (hclean t (by simp))
  refine ⟨?_, by simpa using hlaid⟩
  unfold Row Row
  rw [hspan]
  exact ⟨Nat.le_refl n, hle, Nat.le_refl m⟩

theorem cons {t : Tree} {ts : List Tree} (h : Whole source n t k) (hts : Parts source k ts m) :
    Parts source n (t :: ts) m := (of_whole h).append hts

/-- A leaf with text around it. -/
theorem leaf {kind : Kind} {span : Span} (hcuts : span.Cuts source) (hstart : n ≤ span.start)
    (hstop : span.stop ≤ m) (hheld : Held source (.leaf kind span))
    (hcovered : Covered source (.leaf kind span)) : Parts source n [.leaf kind span] m := by
  have hle := hcuts.le
  refine ⟨by omega, by simpa using everywhere_leaf ⟨hcuts, hheld⟩, fun _ => ?_⟩
  refine ⟨⟨hstart, hle, hstop⟩, by simpa using everywhere_leaf ⟨hle, hcovered⟩⟩

end Parts

namespace Run

theorem nil (source : Bytes) (n : Nat) : Run source n [] n :=
  ⟨Parts.nil (Nat.le_refl n), fun _ => rfl⟩

theorem append {as bs : List Tree} (ha : Run source n as k) (hb : Run source k bs m) :
    Run source n (as ++ bs) m := by
  refine ⟨ha.toParts.append hb.toParts, fun hclean => ?_⟩
  exact (ha.tiles fun t ht => hclean t (List.mem_append_left _ ht)).append
    (hb.tiles fun t ht => hclean t (List.mem_append_right _ ht))

theorem of_whole {t : Tree} (h : Whole source n t m) : Run source n [t] m := by
  refine ⟨Parts.of_whole h, fun hclean => ?_⟩
  have hspan := (h.laid (hclean t (by simp))).1
  have hlt := h.lt
  unfold Tiles Tiles
  rw [hspan]
  exact ⟨rfl, hlt, rfl⟩

theorem cons {t : Tree} {ts : List Tree} (h : Whole source n t k) (hts : Run source k ts m) :
    Run source n (t :: ts) m := (of_whole h).append hts

end Run

/-- A node over its parts. -/
theorem whole_node {kind : Kind} {ts : List Tree} (hn : Boundary source n) (hm : Boundary source m)
    (hlt : n < m) (hparts : Parts source n ts m) (hheld : Held source (.node kind ⟨n, m⟩ ts))
    (hcovered : (∀ t ∈ ts, t.Clean) → Covered source (.node kind ⟨n, m⟩ ts)) :
    Whole source n (.node kind ⟨n, m⟩ ts) m := by
  refine ⟨hlt, everywhere_iff.mpr ⟨⟨⟨Nat.le_of_lt hlt, hn, hm⟩, hheld⟩, hparts.sited⟩, ?_⟩
  intro hclean
  have hts : ∀ t ∈ ts, t.Clean := fun t ht => hclean.child ht
  obtain ⟨hrow, hlaid⟩ := hparts.laid hts
  exact ⟨rfl, everywhere_iff.mpr ⟨⟨hrow, hcovered hts⟩, hlaid⟩⟩

theorem whole_leaf {kind : Kind} (hn : Boundary source n) (hm : Boundary source m) (hlt : n < m)
    (hheld : Held source (.leaf kind ⟨n, m⟩)) (hcovered : Covered source (.leaf kind ⟨n, m⟩)) :
    Whole source n (.leaf kind ⟨n, m⟩) m :=
  whole_node hn hm hlt (.nil (Nat.le_of_lt hlt)) hheld fun _ => hcovered

theorem whole_error {span : Span} {message : String} (hspan : span.Cuts source) (hlt : n < m) :
    Whole source n (.error span message) m := by
  refine ⟨hlt, everywhere_iff.mpr ⟨⟨hspan, trivial⟩, by simp [Tree.error]⟩, fun hclean => ?_⟩
  exact absurd rfl hclean.here

end Tree

/-- The host code between the brackets of a group. -/
theorem GroupAt.parts {opener : UInt8} {rest : Bytes} (hn : Boundary source n)
    (hdrop : source.drop n = opener :: rest) (hopener : (closerOf? opener).isSome = true)
    (h : GroupAt source n m) :
    Tree.Parts source n [.leaf .hostExpr (Parser.trimmed ((cursorAt source n).skip 1) (m - 1))] m := by
  have htrims := h.trims hn hdrop hopener
  have hstart := htrims.start_le
  have hstop := htrims.le_stop
  refine Tree.Parts.leaf htrims.cuts (by omega) (by omega) ?_ trivial
  exact htrims.held h.last.le (h.inside hdrop hopener)

namespace Parser

open Tree

theorem goes_leafFrom {kind : Kind} {R : Tree → Nat → Prop} (hm : Boundary source m)
    (h : R (.leaf kind ⟨n, m⟩) m) : Goes source m (leafFrom kind (cursorAt source n)) R :=
  .get (.pure hm h)

theorem goes_nodeFrom {kind : Kind} {ts : List Tree} {R : Tree → Nat → Prop}
    (hm : Boundary source m) (h : R (.node kind ⟨n, m⟩ ts) m) :
    Goes source m (nodeFrom kind (cursorAt source n) ts) R :=
  .get (.pure hm h)

/-! ## Parts that hold no markup -/

theorem goes_comment {rest : Bytes} (hn : Boundary source n)
    (hdrop : source.drop n = utf8 "<!--" ++ rest) : Goes source n comment (Whole source n) := by
  have hopen : Boundary source (n + 4) := hn.ahead hdrop (by decide)
  refine Goes.get ?_
  split
  · next inner hinner =>
    have hinner' : indexOf? (utf8 "-->") (source.drop (n + 4)) = some inner := by
      rw [← List.drop_drop]
      exact hinner
    obtain ⟨after, hafter⟩ := List.isPrefixOf_iff_prefix.mp
      (indexOf?_isPrefixOf (by decide) hinner')
    have hdash : (source.drop (n + 4)).drop inner = ascii '-' :: (utf8 "->" ++ after) := by
      rw [← hafter]
      rfl
    have hclose := hopen.shift (Boundary.of_ascii hopen.text hdash (by decide)).1
    have hdashes : source.drop (n + 4 + inner) = utf8 "-->" ++ after := by
      rw [← List.drop_drop, hafter]
    have hend : Boundary source (n + 4 + inner + 3) := hclose.ahead hdashes (by decide)
    have hstop : n + 4 + inner + 3 = n + (inner + 7) := by omega
    rw [hstop] at hend
    refine Goes.set (cursorAt_skip source n _) (goes_leafFrom hend ?_)
    exact whole_leaf hn hend (by omega) trivial trivial
  · exact goes_fail hn ⟨Nat.le_add_right _ _, hn, hopen⟩

theorem goes_endTag (hn : Boundary source n) : Goes source n endTag (Whole source n) := by
  -- What stands between the name and the end is the same with and without a name.
  have hclose : ∀ (ts : List Tree) (k : Nat), Boundary source k → Parts source n ts k →
      Goes source k (do
        skipBlanks
        expect ">" .closingTagEnd
        nodeFrom .endTag (cursorAt source n) ts) (Whole source n) := by
    intro ts k hk hts
    refine Goes.skipBlanks hk fun a ha hka _ => ?_
    refine Goes.expect ha Surface.utf8_close (by decide) fun _ _ hend => goes_nodeFrom hend ?_
    have hle := hts.le
    have hlt : n < a + 1 := by omega
    exact whole_node hn hend hlt (hts.widen (Nat.le_refl n) (Nat.le_succ_of_le hka)) trivial
      fun _ => trivial
  refine Goes.get (Goes.expect hn Surface.utf8_openEnd (by decide) fun _ _ hopen => ?_)
  refine Goes.skipBlanks hopen fun a ha hle _ => Goes.name ha (fun b hb hlt => ?_) fun _ => ?_
  · have hname : Whole source a (.leaf .tagName ⟨a, b⟩) b := whole_leaf ha hb hlt trivial trivial
    refine hclose [.leaf .tagName ⟨a, b⟩] b hb ((Parts.of_whole hname).widen ?_ (Nat.le_refl b))
    exact Nat.le_trans (Nat.le_add_right n _) hle
  · exact hclose [] a ha (.nil (Nat.le_trans (Nat.le_add_right n _) hle))

theorem goes_strayEndTag {α : Type} {R : α → Nat → Prop} (hn : Boundary source n) :
    Goes source n (strayEndTag : ScanM α) R :=
  .get ((goes_endTag hn).bind fun _ _ hm htag => .get (goes_fail hm htag.sited.here.cuts))

theorem goes_text {b : UInt8} {rest : Bytes} (hn : Boundary source n)
    (hdrop : source.drop n = b :: rest) (hb : isTextByte b = true) :
    Goes source n text (Whole source n) := by
  have hstops : ∀ x, isTextByte x = false → isAscii x = true := by
    intro x hx
    simp only [isTextByte, Bool.and_eq_false_iff, bne_eq_false_iff_eq] at hx
    rcases hx with (rfl | rfl) | rfl <;> decide
  have hend := hn.shift (boundary_before hstops hn.text)
  have hlt : 0 < ((source.drop n).takeWhile isTextByte).length := by
    rw [hdrop, List.takeWhile_cons, if_pos hb]
    exact Nat.succ_pos _
  refine Goes.get (Goes.set (cursorAt_skip source n _) (goes_leafFrom hend ?_))
  exact whole_leaf hn hend (Nat.lt_add_of_pos_right hlt) trivial trivial

/-! ## Attributes -/

/-- Pieces of a template string up to the backquote that ends it. -/
structure Pieces (source : Bytes) (n : Nat) (pieces : List (Tree × Option Span)) (m : Nat) :
    Prop where
  parts : Parts source n (pieces.map (·.1)) m
  faults : ∀ p ∈ pieces, ∀ span ∈ p.2, span.Cuts source
  ends : ∃ rest, source.drop m = ascii '\x60' :: rest

theorem Pieces.cons {p : Tree × Option Span} {pieces : List (Tree × Option Span)}
    (hp : Parts source n [p.1] k) (hfault : ∀ span ∈ p.2, span.Cuts source)
    (h : Pieces source k pieces m) : Pieces source n (p :: pieces) m := by
  refine ⟨hp.append h.parts, fun q hq => ?_, h.ends⟩
  rcases List.mem_cons.mp hq with rfl | hq
  · exact hfault
  · exact h.faults q hq

theorem goes_templatePiece (hopening : Span.Cuts source ⟨k, k + 1⟩) (hn : Boundary source n) :
    Goes source n (templatePiece (cursorAt source k)) (Adds (Pieces source) n) := by
  refine Goes.get ?_
  split
  · exact goes_fail hn hopening
  · next b hpeek =>
    obtain ⟨rest, hdrop⟩ := exists_drop_of_peek hpeek
    refine Goes.ite (fun hb => ?_) fun hend => .ite (fun hb => ?_) fun hbrace => ?_
    · subst hb
      exact .pure hn ⟨.nil (Nat.le_refl n), by simp, rest, hdrop⟩
    · subst hb
      refine Goes.group hn hdrop (by decide) fun m hm hgroup => ?_
      have htwo := hgroup.two_le
      refine Goes.get (.pure hm ⟨by omega, fun ps l hps => ?_⟩)
      refine Pieces.cons (hgroup.parts hn hdrop (by decide)) ?_ hps
      intro span hspan
      dsimp only at hspan
      split at hspan
      · obtain rfl := Option.mem_some.mp hspan
        exact ⟨by change n ≤ m; omega, hn, hm⟩
      · cases hspan
    · have hstops : ∀ x, (x != ascii '\x60' && x != ascii '\x7b') = false → isAscii x = true := by
        intro x hx
        rw [Bool.and_eq_false_iff, bne_eq_false_iff_eq, bne_eq_false_iff_eq] at hx
        rcases hx with rfl | rfl <;> decide
      have hstop := hn.shift (boundary_before hstops hn.text)
      have hlt : 0 < ((source.drop n).takeWhile
          fun x => x != ascii '\x60' && x != ascii '\x7b').length := by
        rw [hdrop, List.takeWhile_cons, if_pos (by simp [hend, hbrace])]
        exact Nat.succ_pos _
      have hmore := Nat.lt_add_of_pos_right (n := n) hlt
      refine Goes.set (cursorAt_skip source n _)
        (Goes.get (.pure hstop ⟨hmore, fun ps l hps => ?_⟩))
      exact Pieces.cons (.of_whole (whole_leaf hn hstop hmore trivial trivial)) (by simp) hps

theorem goes_templateString {rest : Bytes} (hn : Boundary source n)
    (hdrop : source.drop n = ascii '\x60' :: rest) :
    Goes source n templateString (Whole source n) := by
  have hopen := hn.next hdrop (by decide)
  have hopening : Span.Cuts source ⟨n, n + 1⟩ := ⟨Nat.le_succ n, hn, hopen⟩
  refine Goes.get (Goes.set (cursorAt_bump hdrop) ?_)
  refine (goes_many (fun k hk => goes_templatePiece hopening hk) hopen).bind fun pieces k hk hp => ?_
  obtain ⟨after, hafter⟩ := hp.ends
  refine Goes.modify (cursorAt_bump hafter) ?_
  have hend := hk.next hafter (by decide)
  split
  · next span hspan =>
    obtain ⟨p, hmem, hfault⟩ := List.exists_of_findSome?_eq_some hspan
    exact goes_fail hend (hp.faults p hmem span hfault)
  · have hle := hp.parts.le
    refine goes_nodeFrom hend (whole_node hn hend (by omega) ?_ trivial fun _ => trivial)
    exact hp.parts.widen (Nat.le_succ n) (Nat.le_succ k)

/-- What is known of the productions one level further in. -/
structure SitedNested (source : Bytes) (g : Nested) : Prop where
  tag : ∀ n rest, Boundary source n → source.drop n = ascii '<' :: rest →
    Goes source n g.tag (Whole source n)
  braces : ∀ kind, kind = .expressionBlock ∨ kind = .exprValue → ∀ n rest, Boundary source n →
    source.drop n = ascii '\x7b' :: rest → Goes source n (g.braces kind) (Whole source n)

theorem goes_stringValue {rest : Bytes} (hn : Boundary source n)
    (hdrop : source.drop n = ascii '"' :: rest) :
    Goes source n (do ScanM.string; leafFrom .stringValue (cursorAt source n)) (Whole source n) := by
  refine Goes.read hn (stringLength_bounded hn.text (by rw [hdrop]; rfl)) fun k hk hm => ?_
  have hpos : 0 < k := by
    rw [hdrop] at hk
    unfold stringLength at hk
    dsimp only at hk
    split at hk
    · cases hk
      exact Nat.succ_pos _
    · cases hk
  exact goes_leafFrom hm (whole_leaf hn hm (Nat.lt_add_of_pos_right hpos) trivial trivial)

/-- A dot and a name begin no token. -/
theorem goes_dottedName {rest : Bytes} (hn : Boundary source n)
    (hdrop : source.drop n = ascii '.' :: rest) :
    Goes source n (do
      set (((cursorAt source n).skip 1).skipWhile isIdentByte)
      let span := (← get).spanFrom (cursorAt source n).pos
      return Tree.node .exprValue span [.leaf .hostExpr span]) (Whole source n) := by
  have hone := hn.next hdrop (by decide)
  have hident : ∀ b, isIdentByte b = true → isAscii b = true :=
    fun b hb => isAscii_of_nameByte (by simp [isNameByte, hb])
  have hsplit : source.drop n = (ascii '.' :: (source.drop (n + 1)).takeWhile isIdentByte) ++
      (source.drop (n + 1)).dropWhile isIdentByte := by
    rw [List.cons_append, List.takeWhile_append_dropWhile, hdrop, ← List.drop_drop, hdrop]
    rfl
  have hcursor : ((cursorAt source n).skip 1).skipWhile isIdentByte =
      cursorAt source (n + (ascii '.' :: (source.drop (n + 1)).takeWhile isIdentByte).length) := by
    rw [cursorAt_skip]
    refine (cursorAt_skip source (n + 1) _).trans (congrArg (cursorAt source) ?_)
    change n + 1 + ((source.drop (n + 1)).takeWhile isIdentByte).length = _
    rw [List.length_cons]
    omega
  have hall : ∀ x ∈ ascii '.' :: (source.drop (n + 1)).takeWhile isIdentByte,
      isNameByte x = true := by
    intro x hx
    rcases List.mem_cons.mp hx with rfl | hx
    · decide
    · have hx' := List.all_eq_true.mp List.all_takeWhile x hx
      simp [isNameByte, hx']
  have hslice := Span.slice_of_drop hsplit
  have hm := hn.ahead hsplit (List.all_eq_true.mpr fun x hx => isAscii_of_nameByte (hall x hx))
  have hlt : 0 < (ascii '.' :: (source.drop (n + 1)).takeWhile isIdentByte).length :=
    Nat.succ_pos _
  generalize ascii '.' :: (source.drop (n + 1)).takeWhile isIdentByte = word at *
  have hcode : Whole source n (.leaf .hostExpr ⟨n, n + word.length⟩) (n + word.length) := by
    refine whole_leaf hn hm (Nat.lt_add_of_pos_right hlt) (.inl ?_) trivial
    change Shut (Span.slice ⟨n, n + word.length⟩ source)
    rw [hslice]
    exact Shut.nil.append fun x hx => opensToken_of_plain (isPlainByte_of_isNameByte (hall x hx))
  refine Goes.set hcursor (.get (.pure hm ?_))
  exact whole_node hn hm (Nat.lt_add_of_pos_right hlt) (.of_whole hcode) trivial fun _ => trivial

theorem goes_attributeValue {g : Nested} (hg : SitedNested source g) (hn : Boundary source n) :
    Goes source n (attributeValue g) (Whole source n) := by
  refine Goes.get (.ite (fun hpeek => ?_) fun _ => .ite (fun hpeek => ?_) fun _ =>
    .ite (fun hpeek => ?_) fun _ => .ite (fun hdot => ?_) fun _ => goes_expected hn)
  · obtain ⟨rest, hdrop⟩ := exists_drop_of_peek hpeek
    exact goes_stringValue hn hdrop
  · obtain ⟨rest, hdrop⟩ := exists_drop_of_peek hpeek
    exact hg.braces .exprValue (.inr rfl) n rest hn hdrop
  · obtain ⟨rest, hdrop⟩ := exists_drop_of_peek hpeek
    exact goes_templateString hn hdrop
  · simp only [Bool.and_eq_true, decide_eq_true_eq] at hdot
    obtain ⟨rest, hdrop⟩ := exists_drop_of_peek hdot.1
    exact goes_dottedName hn hdrop

theorem goes_attributeValue? {g : Nested} (hg : SitedNested source g) (hn : Boundary source n) :
    Goes source n (attributeValue? g) fun o m => Parts source n o.toList m := by
  refine Goes.get (.skipBlanks hn fun a ha hle _ => ?_)
  refine Goes.eat ha Surface.utf8_equals (by decide) (fun _ _ hequals => ?_) fun _ => ?_
  · refine Goes.skipBlanks hequals fun b hb hle' _ => ?_
    refine (goes_attributeValue hg hb).bind fun value m hm hvalue => .pure hm ?_
    refine (Parts.of_whole hvalue).widen ?_ (Nat.le_refl m)
    exact Nat.le_trans hle (Nat.le_trans (Nat.le_add_right a _) hle')
  · exact Goes.set rfl (.pure hn (.nil (Nat.le_refl n)))

/-- The two dots of a spread are the first thing in its braces. -/
theorem trims_dots {span : Span} {rest : Bytes} (h : Trims source n m span) (hnk : n ≤ k)
    (hblank : ∀ x ∈ Span.slice ⟨n, k⟩ source, isAsciiBlank x = true)
    (hdots : source.drop k = ascii '.' :: ascii '.' :: rest) (hkm : k + 2 ≤ m) :
    span.start = k ∧ k + 2 ≤ span.stop := by
  have hfirst : source[k]? = some (ascii '.') := by rw [← List.head?_drop, hdots]; rfl
  have hsecond : source[k + 1]? = some (ascii '.') := by
    rw [← List.head?_drop, ← List.drop_drop, hdots]
    rfl
  have hstart := h.start_le
  have hle := h.cuts.le
  -- No dot is a blank, so both dots lie inside.
  have hinside : ∀ i, k ≤ i → i < m → source[i]? = some (ascii '.') →
      span.start ≤ i ∧ i < span.stop := by
    intro i hki him hi
    constructor
    · refine Nat.le_of_not_lt fun hlt => ?_
      have hdot := h.front _ (Span.mem_slice (Nat.le_trans hnk hki) hlt hi)
      exact absurd hdot (by decide)
    · refine Nat.lt_of_not_le fun hge => ?_
      have hdot := h.back _ (Span.mem_slice hge him hi)
      exact absurd hdot (by decide)
  obtain ⟨hbefore, hlt⟩ := hinside k (Nat.le_refl k) (by omega) hfirst
  obtain ⟨_, hstop⟩ := hinside (k + 1) (Nat.le_succ k) (by omega) hsecond
  refine ⟨Nat.le_antisymm hbefore (Nat.le_of_not_lt fun hgt => ?_), by omega⟩
  -- Otherwise a blank would be the first thing inside.
  have hbound : span.start < source.length := by
    have := h.cuts.stop.le
    omega
  have hdrop := List.drop_eq_getElem_cons hbound
  have hx := hblank _ (Span.mem_slice hstart hgt (List.getElem?_eq_getElem hbound))
  rw [h.first _ _ hdrop (by omega)] at hx
  cases hx

/-- The closer of a group lies behind the blanks and the dots at its beginning. -/
theorem dots_before_closer {rest : Bytes} (h : GroupAt source n m)
    (hblank : ∀ x ∈ Span.slice ⟨n + 1, k⟩ source, isAsciiBlank x = true)
    (hdots : source.drop k = ascii '.' :: ascii '.' :: rest) : k + 2 ≤ m - 1 := by
  obtain ⟨b, after, hb, hlast⟩ := h.closer
  have htwo := h.two_le
  have hget : source[m - 1]? = some b := by rw [← List.head?_drop, hlast]; rfl
  refine Nat.le_of_not_lt fun hlt => ?_
  rcases Nat.lt_or_ge (m - 1) k with hbefore | hge
  · have hb' := hblank b (Span.mem_slice (by omega) hbefore hget)
    rcases Surface.blank_cases hb' with rfl | rfl | rfl | rfl | rfl <;> cases hb
  · obtain ⟨i, hi⟩ : ∃ i, m - 1 = k + i := ⟨m - 1 - k, by omega⟩
    rw [hi, ← List.getElem?_drop, hdots] at hget
    match i, hget with
    | 0, hget =>
      obtain rfl := Option.some.inj hget
      cases hb
    | 1, hget =>
      obtain rfl := Option.some.inj hget
      cases hb
    | i + 2, _ => omega

theorem goes_spread {rest dots : Bytes} {l : Nat} (hn : Boundary source n)
    (hdrop : source.drop n = ascii '\x7b' :: rest) (hkb : Boundary source k) (hk : n + 1 ≤ k)
    (hblank : ∀ x ∈ Span.slice ⟨n + 1, k⟩ source, isAsciiBlank x = true)
    (hdots : source.drop k = ascii '.' :: ascii '.' :: dots) :
    Goes source l (spread (cursorAt source n)) (Whole source n) := by
  refine Goes.set rfl (Goes.group hn hdrop (by decide) fun m hm hgroup => .get ?_)
  have htwo := hgroup.two_le
  have hclose := dots_before_closer hgroup hblank hdots
  have htrims := hgroup.trims hn hdrop (by decide)
  obtain ⟨hstart, hstop⟩ := trims_dots htrims hk hblank hdots hclose
  have hlast := hgroup.last.le
  have hrun : source.drop k = [ascii '.', ascii '.'] ++ dots := hdots
  have hbehind : Boundary source (k + 2) := hkb.ahead hrun (by decide)
  have hcursor : (cursorAt source n).skip
      ((trimmed ((cursorAt source n).skip 1) (m - 1)).start + 2 - n) = cursorAt source (k + 2) := by
    rw [hstart, cursorAt_skip, show n + (k + 2 - n) = k + 2 by omega]
  have hinner := (trims_trimmed hbehind htrims.cuts.stop hstop).extend htrims.le_stop htrims.back
  have hunmarked : ∀ x ∈ Span.slice ⟨n + 1, k + 2⟩ source, opensToken x = false := by
    intro x hx
    rw [Span.slice_append source hk (Nat.le_add_right k 2)] at hx
    rcases List.mem_append.mp hx with hx | hx
    · exact opensToken_of_blank (hblank x hx)
    · have hslice : Span.slice ⟨k, k + 2⟩ source = [ascii '.', ascii '.'] :=
        Span.slice_of_drop hrun
      rw [hslice] at hx
      simp only [List.mem_cons, List.not_mem_nil, or_false, or_self] at hx
      rw [hx]
      decide
  have hheld := hinner.held hlast
    ((hgroup.inside hdrop (by decide)).behind (by omega) hclose hlast hunmarked)
  have hle := hinner.start_le
  have hge := hinner.le_stop
  dsimp only
  refine Goes.ite (fun _ => goes_fail hm ⟨show n ≤ m by omega, hn, hm⟩) fun _ => goes_nodeFrom hm ?_
  refine whole_node hn hm (by omega) ?_ trivial fun _ => trivial
  change Parts source n [.leaf .hostExpr (trimmed ((cursorAt source n).skip
    ((trimmed ((cursorAt source n).skip 1) (m - 1)).start + 2 - n))
      (trimmed ((cursorAt source n).skip 1) (m - 1)).stop)] m
  rw [hcursor]
  exact Parts.leaf hinner.cuts (by omega) (by omega) hheld trivial

theorem goes_bracedAttribute {rest : Bytes} (hn : Boundary source n)
    (hdrop : source.drop n = ascii '\x7b' :: rest) :
    Goes source n bracedAttribute (Whole source n) := by
  have hopen := hn.next hdrop (by decide)
  -- The name and the brace behind it, whether a builtin is meant or not.
  have hname : ∀ kind : Kind, (∀ span ts, Held source (.node kind span ts)) →
      (∀ span ts, Covered source (.node kind span ts)) → ∀ k, Boundary source k → n < k →
      ∀ f : Option Span → ScanM Tree, f none = expected .bracedName →
        (∀ name, f (some name) = do
          skipBlanks
          expect "\x7d" .shorthandEnd
          nodeFrom kind (cursorAt source n) [.leaf .attrName name]) →
        Goes source k (ident >>= f) (Whole source n) := by
    intro kind hheld hcovered k hk hlt f hnone hsome
    refine Goes.ident hk (fun a ha hka => ?_) (hnone ▸ goes_expected hk)
    rw [hsome]
    refine Goes.skipBlanks ha fun b hb hab _ => ?_
    refine Goes.expect hb Surface.utf8_closeBrace (by decide) fun _ _ hend => goes_nodeFrom hend ?_
    have hleaf : Whole source k (.leaf .attrName ⟨k, a⟩) a := whole_leaf hk ha hka trivial trivial
    refine whole_node hn hend (show n < b + 1 by omega) ?_ (hheld _ _) fun _ => hcovered _ _
    exact (Parts.of_whole hleaf).widen (Nat.le_of_lt hlt) (Nat.le_succ_of_le hab)
  refine Goes.get (Goes.set (cursorAt_bump hdrop) (.skipBlanks hopen fun k hk hle hblank => ?_))
  refine Goes.eat hk Surface.utf8_dots (by decide) (fun dots hdots _ => ?_) fun _ => ?_
  · exact goes_spread hn hdrop hk hle hblank hdots
  · refine Goes.eat hk Surface.utf8_at (by decide) (fun _ _ hat => ?_) fun _ => ?_
    · exact hname .builtinShorthandAttribute (fun _ _ => trivial) (fun _ _ => trivial) _ hat
        (show n < k + 1 by omega) _ rfl fun _ => rfl
    · exact hname .shorthandAttribute (fun _ _ => trivial) (fun _ _ => trivial) k hk hle _ rfl
        fun _ => rfl

theorem goes_attr {g : Nested} (hg : SitedNested source g) (hn : Boundary source n) :
    Goes source n (attr g) (Whole source n) := by
  have hnamed : ∀ kind : Kind, (∀ span ts, Held source (.node kind span ts)) →
      (∀ span ts, Covered source (.node kind span ts)) → ∀ k a, Boundary source k → Boundary source a →
        n ≤ k → k < a → Goes source a (do
          let value ← attributeValue? g
          nodeFrom kind (cursorAt source n) (.leaf .attrName ⟨k, a⟩ :: value.toList))
          (Whole source n) := by
    intro kind hheld hcovered k a hk ha hnk hka
    refine (goes_attributeValue? hg ha).bind fun value m hm hvalue => goes_nodeFrom hm ?_
    have hleaf : Whole source k (.leaf .attrName ⟨k, a⟩) a := whole_leaf hk ha hka trivial trivial
    have hle := hvalue.le
    refine whole_node hn hm (by omega) ?_ (hheld _ _) fun _ => hcovered _ _
    exact (Parts.cons hleaf hvalue).widen hnk (Nat.le_refl m)
  refine Goes.get ?_
  split
  · exact goes_fail hn hn.point
  · next b hpeek =>
    obtain ⟨rest, hdrop⟩ := exists_drop_of_peek hpeek
    refine Goes.ite (fun hb => ?_) fun _ => .ite (fun hb => ?_) fun _ => ?_
    · subst hb
      have hat := hn.next hdrop (by decide)
      refine Goes.set (cursorAt_bump hdrop) (Goes.ident hat (fun a ha hlt => ?_) (goes_expected hat))
      exact hnamed .builtinAttribute (fun _ _ => trivial) (fun _ _ => trivial) _ a hat ha
        (Nat.le_succ n) hlt
    · subst hb
      exact goes_bracedAttribute hn hdrop
    · refine Goes.name hn (fun a ha hlt => ?_) fun _ => ?_
      · exact hnamed .staticAttribute (fun _ _ => trivial) (fun _ _ => trivial) n a hn ha
          (Nat.le_refl n) hlt
      · obtain ⟨c, hc, _, hsize⟩ := boundary_headChar (hdrop ▸ hn.text : IsText (b :: rest))
        have hhead : (headChar? (cursorAt source n).rest).getD '?' = c := by
          change (headChar? (source.drop n)).getD '?' = c
          rw [hdrop, hc]
          rfl
        dsimp only
        rw [hhead]
        exact goes_fail hn ⟨Nat.le_add_right _ _, hn, hn.shift (hdrop ▸ hsize)⟩

/-- A character that no attribute begins with is named as a whole. -/
theorem attr_of_not_ascii {g : Nested} {b : UInt8} {rest : Bytes} (hn : Boundary source n)
    (hdrop : source.drop n = b :: rest) (hb : isAscii b = false) {e : ScanError} {reached : Cursor}
    (h : attr g (cursorAt source n) = .error e reached) : n + 1 ≤ e.span.stop := by
  have hne : ∀ x : UInt8, isAscii x = true → b ≠ x := by
    rintro x hx rfl
    rw [hb] at hx
    cases hx
  have hpeek : (cursorAt source n).peek = some b := by rw [Cursor.peek, cursorAt, hdrop]; rfl
  have hstart : isIdentStart b = false := by
    cases hident : isIdentStart b with
    | false => rfl
    | true =>
      rw [isAscii_of_nameByte (by simp [isNameByte, isIdentByte, hident])] at hb
      cases hb
  have hname : ScanM.name (cursorAt source n) = .ok none (cursorAt source n) := by
    change (if (cursorAt source n).peek.any isIdentStart = true then _ else _ : ScanM _) _ = _
    rw [hpeek, if_neg (by simp [hstart])]
    rfl
  obtain ⟨c, hc, hpos, _⟩ := boundary_headChar (hdrop ▸ hn.text : IsText (b :: rest))
  have hhead : (headChar? (cursorAt source n).rest).getD '?' = c := by
    change (headChar? (source.drop n)).getD '?' = c
    rw [hdrop, hc]
    rfl
  unfold attr at h
  rw [bind_of_ok (rfl : (get : ScanM Cursor) (cursorAt source n) = .ok _ _)] at h
  simp only [hpeek, hne (ascii '@') (by decide), hne (ascii '\x7b') (by decide), if_false] at h
  rw [bind_of_ok hname] at h
  cases h
  change n + 1 ≤ n + ((headChar? (cursorAt source n).rest).getD '?').utf8Size
  rw [hhead]
  omega

theorem goes_attrOrError {g : Nested} (hg : SitedNested source g) {b : UInt8} {rest : Bytes}
    (hn : Boundary source n) (hdrop : source.drop n = b :: rest) :
    Goes source n (attrOrError g) (Whole source n) := by
  have hattr := goes_attr hg hn
  unfold Goes at hattr ⊢
  unfold attrOrError
  cases hresult : attr g (cursorAt source n) with
  | ok t next =>
    rw [hresult] at hattr
    exact hattr
  | error e reached =>
    rw [hresult] at hattr
    obtain ⟨hspan, r, rfl, hr⟩ := hattr
    -- Reading goes on behind the error, the first character and all that was read.
    have hstop : Boundary source (max (max e.span.stop (n + 1)) r) := by
      refine Boundary.max ?_ hr
      cases hb : isAscii b with
      | true => exact hspan.stop.max (hn.next hdrop hb)
      | false =>
        rw [Nat.max_eq_left (attr_of_not_ascii hn hdrop hb hresult)]
        exact hspan.stop
    have hlt : n < max (max e.span.stop (n + 1)) r := by omega
    have hresume := cursorAt_advance hstop.le (Nat.le_of_lt hlt)
    have hend := hstop.shift (attributeRest_bounded hstop.text)
    refine ⟨_, ?_, hend, whole_error hspan (by omega)⟩
    change ((cursorAt source n).advance (max (max e.span.stop (n + 1)) r - n)).skip (attributeRest
      ((cursorAt source n).advance (max (max e.span.stop (n + 1)) r - n)).rest) = _
    rw [hresume, cursorAt_skip]
    rfl

/-! ## Control flow -/

theorem goes_continueClause {before : Nat} (hk : Boundary source k) :
    Goes source k (continueClause (cursorAt source before)) fun stop _ =>
      stop = cursorAt source before ∨ ∃ g m, stop = cursorAt source m ∧ Boundary source m ∧
        Passes source k g ∧ GroupAt source g m := by
  refine Goes.skipBlanks hk fun a ha hka hfirst => ?_
  refine Goes.eat ha Surface.utf8_colon (by decide) (fun rest hcolon hbehind => ?_) fun _ =>
    .pure ha (.inl rfl)
  refine Goes.skipBlanks hbehind fun g hg hle hsecond => Goes.parens hg fun m hm hgroup => ?_
  refine goes_get hm (.inr ?_)
  refine ⟨g, m, rfl, hm, ?_, hgroup⟩
  have hone : Span.slice ⟨a, a + [ascii ':'].length⟩ source = [ascii ':'] :=
    Span.slice_of_drop hcolon
  refine (passes_of_unmarked hka ha.le fun x hx => opensToken_of_blank (hfirst x hx)).trans ?_
  refine Passes.trans (k := a + [ascii ':'].length) ?_
    (passes_of_unmarked hle hg.le fun x hx => opensToken_of_blank (hsecond x hx))
  refine passes_of_unmarked (Nat.le_add_right _ _) hbehind.le fun x hx => ?_
  rw [hone, List.mem_singleton] at hx
  rw [hx]
  decide

/-- What is known of a header whose captures have been read. -/
theorem goes_headerEnd {before : Nat} (withContinue : Bool) (hn : Boundary source n)
    (hk : Boundary source k) (hbefore : Boundary source before) (hlt : n < before)
    (hnk : n ≤ k)
    (hopen : Passes source n k ∨ MarkedCapture (Span.slice ⟨n, k⟩ source))
    (hdone : Shut (Span.slice ⟨n, before⟩ source) ∨
      MarkedCapture (Span.slice ⟨n, before⟩ source)) :
    Goes source k (do
      let stop ← if withContinue then continueClause (cursorAt source before)
        else pure (cursorAt source before)
      set stop
      leafFrom .header (cursorAt source n)) (Whole source n) := by
  have hleaf : ∀ l m, Boundary source m → n < m →
      (Shut (Span.slice ⟨n, m⟩ source) ∨ MarkedCapture (Span.slice ⟨n, m⟩ source)) →
      Goes source l (do
        set (cursorAt source m)
        leafFrom .header (cursorAt source n)) (Whole source n) := by
    intro l m hm hnm hheld
    exact Goes.set rfl (goes_leafFrom hm (whole_leaf hn hm hnm hheld trivial))
  cases withContinue with
  | false => exact hleaf k before hbefore hlt hdone
  | true =>
    refine (goes_continueClause hk).bind fun stop l hl hstop => ?_
    rcases hstop with rfl | ⟨g, m, rfl, hm, hpasses, hgroup⟩
    · exact hleaf l before hbefore hlt hdone
    · have htwo := hgroup.two_le
      have hkg := hpasses.1
      refine hleaf l m hm (by omega) ?_
      rcases hopen with hopen | hmarked
      · exact .inl (hgroup.shut (hopen.trans hpasses))
      · refine .inr ?_
        rw [Span.slice_append source hnk (by omega)]
        exact hmarked.append _

theorem goes_header (withContinue : Bool) (hn : Boundary source n) :
    Goes source n (header withContinue) (Whole source n) := by
  refine Goes.get (Goes.parens hn fun c hc hgroup => .get ?_)
  have htwo := hgroup.two_le
  have hshut := hgroup.shut ⟨Nat.le_refl n, by rw [Nat.sub_self]; exact .here _⟩
  refine Goes.skipBlanks hc fun a ha hca hblank => ?_
  have hgap : ∀ x ∈ Span.slice ⟨c, a⟩ source, opensToken x = false :=
    fun x hx => opensToken_of_blank (hblank x hx)
  have hpasses := hgroup.passes.trans (passes_of_unmarked hca ha.le hgap)
  refine Goes.capture ha (fun b hb hab hcapture => ?_) ?_
  · have hslice : Span.slice ⟨n, b⟩ source = Span.slice ⟨n, c⟩ source ++
        Span.slice ⟨c, a⟩ source ++ Span.slice ⟨a, b⟩ source := by
      rw [Span.slice_append source (show n ≤ a by omega) (Nat.le_of_lt hab),
        Span.slice_append source (show n ≤ c by omega) hca]
    rcases hcapture.cases (Span.slice ⟨n, c⟩ source ++ Span.slice ⟨c, a⟩ source) []
      with hplain | hmarked
    · refine Goes.get (goes_headerEnd withContinue hn hb hb (by omega) (by omega) (.inl ?_) (.inl ?_))
      · exact hpasses.trans (passes_of_unmarked (Nat.le_of_lt hab) hb.le hplain)
      · rw [hslice]
        exact (hshut.append hgap).append hplain
    · rw [List.append_nil, ← hslice] at hmarked
      exact Goes.get (goes_headerEnd withContinue hn hb hb (by omega) (by omega) (.inr hmarked)
        (.inr hmarked))
  · exact goes_headerEnd withContinue hn ha hc (by omega) (by omega) (.inl hpasses) (.inl hshut)

section ControlFlow

variable {body : ScanM Tree}
  (hbody : ∀ n, Boundary source n → Goes source n body (Whole source n))

include hbody

theorem goes_headedBranch (withContinue : Bool) (hn : Boundary source n) (hk : Boundary source k)
    (hlt : n < k) :
    Goes source k (headedBranch body (cursorAt source n) withContinue) (Whole source n) := by
  refine Goes.skipBlanks hk fun a ha hka _ => ?_
  refine (goes_header withContinue ha).bind fun head b hb hhead => ?_
  refine Goes.skipBlanks hb fun c hc hbc _ => (hbody c hc).bind fun inner m hm hinner => ?_
  have hheadlt := hhead.lt
  have hinnerlt := hinner.lt
  refine goes_nodeFrom hm (whole_node hn hm (by omega) ?_ trivial fun _ => trivial)
  have hparts := Parts.cons hhead ((Parts.of_whole hinner).widen hbc (Nat.le_refl m))
  exact hparts.widen (by omega) (Nat.le_refl m)

theorem goes_capturedBody (hn : Boundary source n) :
    Goes source n (capturedBody body) fun ts m => n < m ∧ Parts source n ts m := by
  refine Goes.capture hn (fun a ha hlt hcapture => ?_) ?_
  · refine Goes.skipBlanks ha fun b hb hab _ => (hbody b hb).bind fun inner m hm hinner => ?_
    have hleaf : Whole source n (.leaf .capture ⟨n, a⟩) a := whole_leaf hn ha hlt hcapture trivial
    have hinnerlt := hinner.lt
    refine .pure hm ⟨by omega, Parts.cons hleaf ?_⟩
    exact (Parts.of_whole hinner).widen hab (Nat.le_refl m)
  · exact (hbody n hn).bind fun inner m hm hinner => .pure hm ⟨hinner.lt, .of_whole hinner⟩

theorem goes_elseIf? (hn : Boundary source n) :
    Goes source n (elseIf? body) (Adds (Parts source) n) := by
  refine Goes.get ?_
  dsimp only
  rw [cursorAt_skipBlanks, cursorAt_skip, cursorAt_skipBlanks]
  refine Goes.ite (fun hwords => ?_) fun _ => .pure hn (Parts.nil (Nat.le_refl n))
  obtain ⟨helse, hif⟩ := Bool.and_eq_true_iff.mp hwords
  have hstart := hn.behindBlanks
  have hbehind := (hstart.keyword helse (by decide)).behindBlanks
  have hcondition := hbehind.keyword hif (by decide)
  refine Goes.set (cursorAt_skip _ _ _) ?_
  refine (goes_headedBranch hbody false hstart hcondition ?_).bind fun t m hm ht =>
    .pure hm ⟨Nat.lt_of_le_of_lt (Nat.le_add_right n _) ht.lt, fun ts l hts => ?_⟩
  · have hlength : (utf8 "else").length = 4 := by decide
    omega
  · exact ((Parts.of_whole ht).widen (Nat.le_add_right n _) (Nat.le_refl m)).append hts

theorem goes_else? (hn : Boundary source n) :
    Goes source n (else? body) fun o m => Parts source n o.toList m := by
  refine Goes.get ?_
  dsimp only
  rw [cursorAt_skipBlanks, cursorAt_skip, cursorAt_skipBlanks]
  refine Goes.ite (fun hword => ?_) fun _ => .pure hn (.nil (Nat.le_refl n))
  have hstart := hn.behindBlanks
  have hbehind := (hstart.keyword hword (by decide)).behindBlanks
  refine Goes.set rfl ((goes_capturedBody hbody hbehind).bind fun ts m hm hts => ?_)
  have hlt := hts.1
  refine Goes.bind (goes_nodeFrom hm (whole_node hstart hm ?_ ?_ trivial fun _ => trivial))
    fun t l hl ht => .pure hl ((Parts.of_whole ht).widen (Nat.le_add_right n _) (Nat.le_refl l))
  · omega
  · exact hts.2.widen (by omega) (Nat.le_refl m)

theorem goes_ifBlock (hn : Boundary source n) (hword : (cursorAt source n).atKeyword "if" = true) :
    Goes source n (ifBlock body) (Whole source n) := by
  have hbehind : Boundary source (n + 2) := hn.keyword hword (by decide)
  refine Goes.get (Goes.set (cursorAt_skip source n 2) ?_)
  refine (goes_headedBranch hbody false hn hbehind (by omega)).bind fun first a ha hfirst => ?_
  refine (goes_many (fun k hk => goes_elseIf? hbody hk) ha).bind fun others b hb hothers => ?_
  refine (goes_else? hbody hb).bind fun last m hm hlast => goes_nodeFrom hm ?_
  have hparts := (Parts.cons hfirst hothers).append hlast
  have hfirstlt := hfirst.lt
  have hle := hothers.le
  have hle' := hlast.le
  exact whole_node hn hm (by omega) hparts trivial fun _ => trivial

theorem goes_loopBlock {flow : FlowKind} (hflow : flow = .forLoop ∨ flow = .whileLoop)
    (hn : Boundary source n) (hword : (cursorAt source n).atKeyword flow.keyword = true) :
    Goes source n (loopBlock body flow) (Whole source n) := by
  have hascii : (utf8 flow.keyword).all isAscii = true := by
    rcases hflow with rfl | rfl <;> decide
  have hpos : 0 < (utf8 flow.keyword).length := by
    rcases hflow with rfl | rfl <;> decide
  have hbehind := hn.keyword hword hascii
  refine Goes.get (Goes.set (cursorAt_skip source n _) ?_)
  refine (goes_headedBranch hbody _ hn hbehind (by omega)).bind fun branch m hm hbranch => ?_
  refine goes_nodeFrom hm ?_
  rcases hflow with rfl | rfl
  · exact whole_node hn hm hbranch.lt (.of_whole hbranch) trivial fun _ => trivial
  · exact whole_node hn hm hbranch.lt (.of_whole hbranch) trivial fun _ => trivial

theorem goes_prong? (hopening : Span.Cuts source ⟨k, k + 6⟩) (hn : Boundary source n) :
    Goes source n (prong? body (cursorAt source k)) (Adds (Parts source) n) := by
  refine Goes.skipBlanks hn fun a ha hna _ => ?_
  refine Goes.eat ha Surface.utf8_closeBrace (by decide) (fun _ _ hend => ?_) fun _ => ?_
  · exact .pure hend (Parts.nil (show n ≤ a + 1 by omega))
  refine Goes.get (.ite (fun _ => goes_fail ha hopening) fun _ => ?_)
  have hmeasure : Bounded (source.drop a) (lengthUntil (utf8 "=>") (source.drop a)) :=
    lengthUntil_bounded ha.text (by decide)
  refine Goes.read ha hmeasure fun j hj hb => Goes.get ?_
  have htrims := trims_trimmed ha hb (Nat.le_add_right a j)
  have hreach := lengthUntil_reaches (by decide) hj
  have hheld := htrims.held hb.le (by rwa [Nat.add_sub_cancel_left])
  obtain ⟨rest, hrest⟩ := List.isPrefixOf_iff_prefix.mp (lengthUntil_finds (by decide) hj).2
  have hrun : source.drop (a + j) = utf8 "=>" ++ rest := by rw [← List.drop_drop, hrest]
  have harrow : Boundary source (a + j + 2) := hb.ahead hrun (by decide)
  refine Goes.ite (fun _ => goes_expected hb) fun _ => ?_
  refine Goes.modify (cursorAt_skip source (a + j) 2) (.skipBlanks harrow fun c hc hle _ => ?_)
  refine (goes_capturedBody hbody hc).bind fun ts m hm hts => ?_
  have hlt := hts.1
  have hstart := htrims.start_le
  have hstop := htrims.le_stop
  have hpattern : Parts source a [.leaf .pattern (trimmed (cursorAt source a) (a + j))] c :=
    Parts.leaf htrims.cuts hstart (by omega) hheld trivial
  refine Goes.bind (goes_nodeFrom hm
    (whole_node ha hm (by omega) (hpattern.append hts.2) trivial fun _ => trivial)) ?_
  intro prong l hl hprong
  have hmore := Nat.lt_of_le_of_lt hna hprong.lt
  have hfinish : ∀ e, l ≤ e → n < e ∧ ∀ ps last, Parts source e ps last →
      Parts source n (prong :: ps) last := fun e he => ⟨Nat.lt_of_lt_of_le hmore he,
    fun ps last hps => ((Parts.of_whole hprong).widen hna he).append hps⟩
  refine Goes.skipBlanks hl fun d hd hld _ => ?_
  refine Goes.eat hd Surface.utf8_comma (by decide) (fun _ _ hend => ?_) fun _ => ?_
  · exact .pure hend (hfinish _ (show l ≤ d + 1 by omega))
  · exact .pure hd (hfinish d hld)

theorem goes_switchBlock (hn : Boundary source n)
    (hword : (cursorAt source n).atKeyword "switch" = true) :
    Goes source n (switchBlock body) (Whole source n) := by
  have hbehind : Boundary source (n + 6) := hn.keyword hword (by decide)
  have hopening : Span.Cuts source ⟨n, n + 6⟩ := ⟨Nat.le_add_right n 6, hn, hbehind⟩
  refine Goes.get (Goes.set (cursorAt_skip source n 6) (.skipBlanks hbehind fun a ha hle _ => ?_))
  refine Goes.get (Goes.parens ha fun b hb hgroup => ?_)
  have htwo := hgroup.two_le
  have hshut := hgroup.shut ⟨Nat.le_refl a, by rw [Nat.sub_self]; exact .here _⟩
  have hhead : Whole source a (.leaf .header ⟨a, b⟩) b :=
    whole_leaf ha hb (by omega) (.inl hshut) trivial
  refine Goes.get (Goes.skipBlanks hb fun c hc hbc _ => ?_)
  refine Goes.expect hc Surface.utf8_openBrace (by decide) fun _ _ hopen => ?_
  refine (goes_many (fun k hk => goes_prong? hbody hopening hk) hopen).bind fun prongs m hm hp => ?_
  refine Goes.ite (fun _ => goes_fail hm hopening) fun _ => goes_nodeFrom hm ?_
  have hle' : c + 1 ≤ m := hp.le
  refine whole_node hn hm (by omega) ?_ ?_ fun _ => trivial
  · have hprongs := hp.widen (show b ≤ c + 1 by omega) (Nat.le_refl m)
    exact (Parts.cons hhead hprongs).widen (by omega) (Nat.le_refl m)
  · rintro head ⟨rfl⟩
    exact hshut

theorem goes_controlFlow {flow : FlowKind} (hn : Boundary source n)
    (hword : (cursorAt source n).atKeyword flow.keyword = true) :
    Goes source n (controlFlow body flow) (Whole source n) := by
  cases flow with
  | ifElse => exact goes_ifBlock hbody hn hword
  | switch => exact goes_switchBlock hbody hn hword
  | forLoop => exact goes_loopBlock hbody (.inl rfl) hn hword
  | whileLoop => exact goes_loopBlock hbody (.inr rfl) hn hword

end ControlFlow

end Parser

end ZigMarkup
