import ZigMarkup.Proofs.Lossless

/-!
Productions look ahead only. What a production reads at an offset depends on the nested
productions at this offset and behind it, and what a tag or a pair of braces reads depends on
those strictly behind its first byte, whatever jumps are made when something cannot be read.
-/
namespace ZigMarkup

variable {source : Bytes} {n m k : Nat} {α β : Type}

namespace ScanM

/-! ## Single steps -/

theorem goes_skipBlanks (hn : Boundary source n) :
    Goes source n skipBlanks fun _ m => n ≤ m := by
  rw [← bind_pure skipBlanks]
  exact Goes.skipBlanks hn fun m hm hle _ => .pure hm hle

theorem goes_eat {text : String} {run : Bytes} (hn : Boundary source n) (htext : utf8 text = run)
    (hrun : run.all isAscii = true) :
    Goes source n (eat text) fun eaten m =>
      (eaten = true → m = n + run.length) ∧
        (eaten = false → m = n ∧ (cursorAt source n).startsWith text = false) := by
  rw [← bind_pure (eat text)]
  refine Goes.eat hn htext hrun (fun _ _ hm => .pure hm ?_) fun hstart => .pure hn ?_
  · exact ⟨fun _ => rfl, by simp⟩
  · exact ⟨by simp, fun _ => ⟨rfl, hstart⟩⟩

theorem goes_expect {text : String} {what : Wanted} {run : Bytes} (hn : Boundary source n)
    (htext : utf8 text = run) (hrun : run.all isAscii = true) :
    Goes source n (expect text what) fun _ m => m = n + run.length := by
  rw [← bind_pure (expect text what)]
  exact Goes.expect hn htext hrun fun _ _ hm => .pure hm rfl

theorem goes_ident (hn : Boundary source n) : Goes source n ident fun _ m => n ≤ m := by
  rw [← bind_pure ident]
  exact Goes.ident hn (fun m hm hlt => .pure hm (Nat.le_of_lt hlt)) (.pure hn (Nat.le_refl n))

theorem goes_name (hn : Boundary source n) : Goes source n name fun o m =>
    n ≤ m ∧ ∀ span ∈ o, n < m ∧ span = ⟨n, m⟩ := by
  rw [← bind_pure name]
  refine Goes.name hn (fun m hm hlt => .pure hm ⟨Nat.le_of_lt hlt, ?_⟩) fun _ => .pure hn ?_
  · rintro span ⟨rfl⟩
    exact ⟨hlt, rfl⟩
  · exact ⟨Nat.le_refl n, by simp⟩

theorem goes_capture (hn : Boundary source n) : Goes source n capture fun _ m => n ≤ m := by
  rw [← bind_pure capture]
  exact Goes.capture hn (fun m hm hlt _ => .pure hm (Nat.le_of_lt hlt)) (.pure hn (Nat.le_refl n))

theorem goes_parens {what : Wanted} (hn : Boundary source n) :
    Goes source n (Parser.parens what) fun _ m => n ≤ m := by
  rw [← bind_pure (Parser.parens what)]
  refine Goes.parens hn fun m hm hgroup => .pure hm ?_
  have htwo := hgroup.two_le
  omega

/-- The two bytes of an arrow lie ahead of where a search for one ends. -/
theorem goes_untilArrow (hn : Boundary source n) :
    Goes source n (untilTopLevel "=>") fun _ m => n ≤ m ∧ Boundary source (m + 2) := by
  have hmeasure : Bounded (source.drop n) (lengthUntil (utf8 "=>") (source.drop n)) :=
    lengthUntil_bounded hn.text (by decide)
  rw [← bind_pure (untilTopLevel "=>")]
  refine Goes.read hn hmeasure fun j hj hm => .pure hm ⟨Nat.le_add_right n j, ?_⟩
  obtain ⟨rest, hrest⟩ := List.isPrefixOf_iff_prefix.mp (lengthUntil_finds (by decide) hj).2
  have hrun : source.drop (n + j) = utf8 "=>" ++ rest := by rw [← List.drop_drop, hrest]
  exact hm.ahead hrun (by decide)

/-! ## Readers that do the same -/

/-- Begun at an offset, two readers do the same. -/
def Same (source : Bytes) (n : Nat) (p q : ScanM α) : Prop :=
  p (cursorAt source n) = q (cursorAt source n)

theorem Same.bind {x y : ScanM α} {f f' : α → ScanM β} {Q : α → Nat → Prop}
    (hx : Same source n x y) (hgoes : Goes source n x Q)
    (hf : ∀ a m, Boundary source m → Q a m → Same source m (f a) (f' a)) :
    Same source n (x >>= f) (y >>= f') := by
  unfold Same at hx ⊢
  unfold Goes at hgoes
  change EStateM.bind x f (cursorAt source n) = EStateM.bind y f' (cursorAt source n)
  unfold EStateM.bind
  rw [← hx]
  split at hgoes
  · next a next hok =>
    obtain ⟨m, rfl, hm, hQ⟩ := hgoes
    rw [hok]
    exact hf a m hm hQ
  · next herror => rw [herror]

theorem Same.after {x : ScanM α} {f f' : α → ScanM β} {Q : α → Nat → Prop}
    (hgoes : Goes source n x Q)
    (hf : ∀ a m, Boundary source m → Q a m → Same source m (f a) (f' a)) :
    Same source n (x >>= f) (x >>= f') := Same.bind rfl hgoes hf

/-- What follows is the same already. -/
theorem Same.before {x y : ScanM α} {f : α → ScanM β} (hx : Same source n x y) :
    Same source n (x >>= f) (y >>= f) := by
  unfold Same at hx ⊢
  change EStateM.bind x f (cursorAt source n) = EStateM.bind y f (cursorAt source n)
  unfold EStateM.bind
  rw [hx]

theorem Same.get {f f' : Cursor → ScanM α}
    (h : Same source n (f (cursorAt source n)) (f' (cursorAt source n))) :
    Same source n (get >>= f) (get >>= f') := h

theorem Same.set {f f' : PUnit → ScanM α} {c : Cursor} (hc : c = cursorAt source m)
    (h : Same source m (f ⟨⟩) (f' ⟨⟩)) : Same source n (set c >>= f) (set c >>= f') := by
  subst hc
  exact h

theorem Same.modify {f f' : PUnit → ScanM α} {move : Cursor → Cursor}
    (hmove : move (cursorAt source n) = cursorAt source m) (h : Same source m (f ⟨⟩) (f' ⟨⟩)) :
    Same source n (modify move >>= f) (modify move >>= f') := by
  change f ⟨⟩ (move (cursorAt source n)) = f' ⟨⟩ (move (cursorAt source n))
  rw [hmove]
  exact h

theorem Same.ite {c : Prop} [Decidable c] {x x' y y' : ScanM α} (hx : c → Same source n x x')
    (hy : ¬ c → Same source n y y') :
    Same source n (if c then x else y) (if c then x' else y') := by
  split
  · next h => exact hx h
  · next h => exact hy h

/-- Steps that do the same from an offset on do the same over and over. -/
theorem same_many {step step' : ScanM (Option α)} {Q : Nat → List α → Nat → Prop}
    (hsame : ∀ n, k ≤ n → Boundary source n → Same source n step step')
    (hstep : ∀ n, Boundary source n → Goes source n step (Adds Q n)) (hkn : k ≤ n)
    (hn : Boundary source n) : Same source n (many step) (many step') := by
  suffices h : ∀ turns n, k ≤ n → Boundary source n →
      Same source n (manyFrom step turns) (manyFrom step' turns) from .get (h _ n hkn hn)
  intro turns
  induction turns with
  | zero => exact fun _ _ _ => rfl
  | succ turns ih =>
    intro n hkn hn
    refine Same.bind (hsame n hkn hn) (hstep n hn) fun o m hm ho => ?_
    cases o with
    | none => rfl
    | some a =>
      have hkm : k ≤ m := Nat.le_trans hkn (Nat.le_of_lt ho.1)
      exact Same.before (ih m hkm hm)

end ScanM

open ScanM

namespace Parser

/-- Nested productions do the same from an offset on. -/
structure Agree (source : Bytes) (k : Nat) (g h : Nested) : Prop where
  tag : ∀ n rest, k ≤ n → Boundary source n → source.drop n = ascii '<' :: rest →
    Same source n g.tag h.tag
  braces : ∀ kind n rest, k ≤ n → Boundary source n → source.drop n = ascii '\x7b' :: rest →
    Same source n (g.braces kind) (h.braces kind)

/-! ## Control flow -/

section ControlFlow

variable {body body' : ScanM Tree}
  (hbody : ∀ n, Boundary source n → Goes source n body (Tree.Whole source n))
  (hsame : ∀ n, k ≤ n → Boundary source n → Same source n body body')

include hsame

theorem same_headedBranch (start : Cursor) (withContinue : Bool) (hkn : k ≤ n)
    (hn : Boundary source n) : Same source n (headedBranch body start withContinue)
      (headedBranch body' start withContinue) := by
  refine Same.after (goes_skipBlanks hn) fun _ a ha hna => ?_
  refine Same.after (goes_header withContinue ha) fun _ b hb hhead => ?_
  have hlt := hhead.lt
  refine Same.after (goes_skipBlanks hb) fun _ c hc hbc => ?_
  exact Same.before (hsame c (by omega) hc)

theorem same_capturedBody (hkn : k ≤ n) (hn : Boundary source n) :
    Same source n (capturedBody body) (capturedBody body') := by
  refine Same.after (goes_capture hn) fun o m hm hnm => ?_
  cases o with
  | none => exact Same.before (hsame m (Nat.le_trans hkn hnm) hm)
  | some span =>
    refine Same.after (goes_skipBlanks hm) fun _ a ha hma => ?_
    exact Same.before (hsame a (by omega) ha)

theorem same_elseIf? (hkn : k ≤ n) (hn : Boundary source n) :
    Same source n (elseIf? body) (elseIf? body') := by
  refine Same.get ?_
  dsimp only
  rw [cursorAt_skipBlanks, cursorAt_skip, cursorAt_skipBlanks]
  refine Same.ite (fun hwords => ?_) fun _ => rfl
  obtain ⟨helse, hif⟩ := Bool.and_eq_true_iff.mp hwords
  have hbehind := (hn.behindBlanks.keyword helse (by decide)).behindBlanks
  have hcondition := hbehind.keyword hif (by decide)
  have hlength : (utf8 "else").length = 4 := by decide
  refine Same.set (cursorAt_skip _ _ _) (Same.before ?_)
  exact same_headedBranch hsame _ _ (by omega) hcondition

theorem same_else? (hkn : k ≤ n) (hn : Boundary source n) :
    Same source n (else? body) (else? body') := by
  refine Same.get ?_
  dsimp only
  rw [cursorAt_skipBlanks, cursorAt_skip, cursorAt_skipBlanks]
  refine Same.ite (fun hword => ?_) fun _ => rfl
  have hbehind := (hn.behindBlanks.keyword hword (by decide)).behindBlanks
  have hlength : (utf8 "else").length = 4 := by decide
  exact Same.set rfl (Same.before (same_capturedBody hsame (by omega) hbehind))

theorem same_loopBlock {flow : FlowKind} (hflow : flow = .forLoop ∨ flow = .whileLoop)
    (hkn : k ≤ n) (hn : Boundary source n)
    (hword : (cursorAt source n).atKeyword flow.keyword = true) :
    Same source n (loopBlock body flow) (loopBlock body' flow) := by
  have hascii : (utf8 flow.keyword).all isAscii = true := by
    rcases hflow with rfl | rfl <;> decide
  have hbehind := hn.keyword hword hascii
  refine Same.get (Same.set (cursorAt_skip source n _) ?_)
  exact Same.before (same_headedBranch hsame _ _ (by omega) hbehind)

theorem same_prong? (opening : Cursor) (hkn : k ≤ n) (hn : Boundary source n) :
    Same source n (prong? body opening) (prong? body' opening) := by
  refine Same.after (goes_skipBlanks hn) fun _ a ha hna => ?_
  refine Same.after (goes_eat ha Surface.utf8_closeBrace (by decide)) fun _ b hb hab => ?_
  refine Same.ite (fun _ => rfl) fun hmore => Same.get (.ite (fun _ => rfl) fun _ => ?_)
  obtain rfl : b = a := (hab.2 (by simpa using hmore)).1
  refine Same.after (goes_untilArrow hb) fun _ c hc hbc => Same.get ?_
  refine Same.ite (fun _ => rfl) fun _ => Same.modify (cursorAt_skip source c 2) ?_
  refine Same.after (goes_skipBlanks hbc.2) fun _ d hd hcd => ?_
  exact Same.before (same_capturedBody hsame (by omega) hd)

include hbody

theorem same_ifBlock (hkn : k ≤ n) (hn : Boundary source n)
    (hword : (cursorAt source n).atKeyword "if" = true) :
    Same source n (ifBlock body) (ifBlock body') := by
  have hbehind : Boundary source (n + 2) := hn.keyword hword (by decide)
  refine Same.get (Same.set (cursorAt_skip source n 2) ?_)
  refine Same.bind (same_headedBranch hsame _ _ (by omega) hbehind)
    (goes_headedBranch hbody false hn hbehind (by omega)) fun first a ha hfirst => ?_
  have hlt := hfirst.lt
  refine Same.bind (same_many (fun _ hkl hl => same_elseIf? hsame hkl hl)
    (fun _ hl => goes_elseIf? hbody hl) (by omega) ha)
    (goes_many (fun _ hl => goes_elseIf? hbody hl) ha) fun others b hb hothers => ?_
  have hle := hothers.le
  exact Same.before (same_else? hsame (by omega) hb)

theorem same_switchBlock (hkn : k ≤ n) (hn : Boundary source n)
    (hword : (cursorAt source n).atKeyword "switch" = true) :
    Same source n (switchBlock body) (switchBlock body') := by
  have hbehind : Boundary source (n + 6) := hn.keyword hword (by decide)
  have hopening : Span.Cuts source ⟨n, n + 6⟩ := ⟨Nat.le_add_right n 6, hn, hbehind⟩
  refine Same.get (Same.set (cursorAt_skip source n 6) ?_)
  refine Same.after (goes_skipBlanks hbehind) fun _ a ha hle => Same.get ?_
  refine Same.after (goes_parens ha) fun _ b hb hab => Same.get ?_
  refine Same.after (goes_skipBlanks hb) fun _ c hc hbc => ?_
  refine Same.after (goes_expect hc Surface.utf8_openBrace (by decide)) fun _ d hd hcd => ?_
  exact Same.before (same_many (fun _ hkl hl => same_prong? hsame _ hkl hl)
    (fun _ hl => goes_prong? hbody hopening hl) (by omega) hd)

theorem same_controlFlow {flow : FlowKind} (hkn : k ≤ n) (hn : Boundary source n)
    (hword : (cursorAt source n).atKeyword flow.keyword = true) :
    Same source n (controlFlow body flow) (controlFlow body' flow) := by
  cases flow with
  | ifElse => exact same_ifBlock hbody hsame hkn hn hword
  | switch => exact same_switchBlock hbody hsame hkn hn hword
  | forLoop => exact same_loopBlock hsame (.inl rfl) hkn hn hword
  | whileLoop => exact same_loopBlock hsame (.inr rfl) hkn hn hword

end ControlFlow

section Nested

variable {g h : Nested} (hg : SitedNested source g) (hagree : Agree source k g h)

include hagree

/-! ## Attributes -/

theorem same_attributeValue (hkn : k ≤ n) (hn : Boundary source n) :
    Same source n (attributeValue g) (attributeValue h) := by
  refine Same.get (.ite (fun _ => rfl) fun _ => .ite (fun hpeek => ?_) fun _ => rfl)
  obtain ⟨rest, hdrop⟩ := exists_drop_of_peek hpeek
  exact hagree.braces .exprValue n rest hkn hn hdrop

theorem same_attributeValue? (hkn : k ≤ n) (hn : Boundary source n) :
    Same source n (attributeValue? g) (attributeValue? h) := by
  refine Same.get (.after (goes_skipBlanks hn) fun _ a ha hna => ?_)
  refine Same.after (goes_eat ha Surface.utf8_equals (by decide)) fun _ b hb hab => ?_
  refine Same.ite (fun heaten => ?_) fun _ => rfl
  have hbehind := hab.1 heaten
  refine Same.after (goes_skipBlanks hb) fun _ c hc hbc => ?_
  exact Same.before (same_attributeValue hagree (by omega) hc)

theorem same_attr (hkn : k ≤ n) (hn : Boundary source n) :
    Same source n (attr g) (attr h) := by
  refine Same.get ?_
  split
  · rfl
  · next b hpeek =>
    obtain ⟨rest, hdrop⟩ := exists_drop_of_peek hpeek
    refine Same.ite (fun hb => ?_) fun _ => .ite (fun _ => rfl) fun _ => ?_
    · subst hb
      have hat := hn.next hdrop (by decide)
      refine Same.set (cursorAt_bump hdrop) (.after (goes_ident hat) fun o a ha hle => ?_)
      cases o with
      | none => rfl
      | some name => exact Same.before (same_attributeValue? hagree (by omega) ha)
    · refine Same.after (goes_name hn) fun o a ha hle => ?_
      cases o with
      | none => rfl
      | some name => exact Same.before (same_attributeValue? hagree (by omega) ha)

theorem same_attrOrError (hkn : k ≤ n) (hn : Boundary source n) :
    Same source n (attrOrError g) (attrOrError h) := by
  have hattr : attr g (cursorAt source n) = attr h (cursorAt source n) :=
    same_attr hagree hkn hn
  unfold Same attrOrError
  rw [hattr]

theorem same_attr? (opening : Span) (name : String) (hkn : k ≤ n) (hn : Boundary source n) :
    Same source n (attr? g opening name) (attr? h opening name) := by
  refine Same.after (goes_skipBlanks hn) fun _ a ha hna => Same.get ?_
  refine Same.ite (fun _ => rfl) fun _ => .ite (fun _ => rfl) fun _ => ?_
  exact Same.before (same_attrOrError hagree (by omega) ha)

/-! ## Markup -/

theorem same_child? (terminator : Terminator) (opening : Span) (opener : String) (hkn : k ≤ n)
    (hn : Boundary source n) :
    Same source n (child? g terminator opening opener) (child? h terminator opening opener) := by
  refine Same.get ?_
  split
  · rfl
  · next b hpeek =>
    obtain ⟨rest, hdrop⟩ := exists_drop_of_peek hpeek
    refine Same.ite (fun hb => .ite (fun _ => rfl) fun _ => ?_) fun _ =>
      .ite (fun hb => ?_) fun _ => rfl
    · subst hb
      exact Same.before (hagree.tag n rest hkn hn hdrop)
    · subst hb
      exact Same.before (hagree.braces .expressionBlock n rest hkn hn hdrop)

theorem same_rootItem? (opening : Cursor) (hkn : k ≤ n) (hn : Boundary source n) :
    Same source n (rootItem? g opening) (rootItem? h opening) := by
  refine Same.after (goes_skipBlanks hn) fun _ a ha hna => ?_
  refine Same.after (goes_eat ha Surface.utf8_closeParen (by decide)) fun _ b hb hab => ?_
  refine Same.ite (fun _ => rfl) fun hmore => Same.get (.ite (fun _ => rfl) fun _ => ?_)
  obtain rfl : b = a := (hab.2 (by simpa using hmore)).1
  refine Same.ite (fun hpeek => ?_) fun _ => rfl
  obtain ⟨rest, hdrop⟩ := exists_drop_of_peek hpeek
  exact Same.before (hagree.tag b rest (by omega) hb hdrop)

include hg

theorem same_children (terminator : Terminator) {opening : Span} (opener : String)
    (hopening : opening.Cuts source) (hkn : k ≤ n) (hn : Boundary source n) :
    Same source n (children g terminator opening opener) (children h terminator opening opener) :=
  same_many (fun _ hkl hl => same_child? hagree terminator opening opener hkl hl)
    (fun _ hl => goes_child? hg terminator opener hopening hl) hkn hn

theorem same_templateRoot (hkn : k ≤ n) (hn : Boundary source n) :
    Same source n (templateRoot g) (templateRoot h) := by
  refine Same.get ?_
  refine Same.after (goes_expect hn Surface.utf8_openParen (by decide)) fun _ a ha hopen => ?_
  obtain rfl : a = n + 1 := hopen
  have hopening : Span.Cuts source ⟨n, n + 1⟩ := ⟨Nat.le_succ n, hn, ha⟩
  exact Same.before (same_many (fun _ hkl hl => same_rootItem? hagree _ hkl hl)
    (fun _ hl => goes_rootItem? hg hopening hl) (by omega) ha)

theorem same_body (hkn : k ≤ n) (hn : Boundary source n) :
    Same source n (body g) (body h) := by
  refine Same.get (.ite (fun _ => ?_) fun _ => .ite (fun hpeek => ?_) fun _ => rfl)
  · exact Same.before (same_templateRoot hg hagree hkn hn)
  · obtain ⟨rest, hdrop⟩ := exists_drop_of_peek hpeek
    have hopen := hn.next hdrop (by decide)
    have hopening : Span.Cuts source ⟨n, n + 1⟩ := ⟨Nat.le_succ n, hn, hopen⟩
    refine Same.set (cursorAt_bump hdrop) ?_
    exact Same.before (same_children hg hagree .brace _ hopening (by omega) hopen)

theorem same_element (hkn : k ≤ n + 1) (hn : Boundary source n) (hm : Boundary source m)
    (hlt : n + 1 < m) : Same source m (element g (cursorAt source n) ⟨n + 1, m⟩)
      (element h (cursorAt source n) ⟨n + 1, m⟩) := by
  have hopening : Span.Cuts source ⟨n, m⟩ := ⟨show n ≤ m by omega, hn, hm⟩
  refine Same.get ?_
  refine Same.bind (same_many (fun _ hkl hl => same_attr? hagree _ _ hkl hl)
    (fun _ hl => goes_attr? hg _ hopening hl) (by omega) hm)
    (goes_many (fun _ hl => goes_attr? hg _ hopening hl) hm) fun attributes a ha hattrs => ?_
  have hle := hattrs.parts.le
  refine Same.after (goes_eat ha Surface.utf8_closeEmpty (by decide)) fun _ b hb hab => ?_
  refine Same.ite (fun _ => rfl) fun hmore => ?_
  obtain ⟨rfl, hslash⟩ := hab.2 (by simpa using hmore)
  -- The attributes ended, and not at `/>`.
  have hends := hattrs.ends
  rw [hslash, Bool.false_or] at hends
  obtain ⟨after, hafter⟩ := exists_drop_of_startsWith hends
  rw [Surface.utf8_close, List.singleton_append] at hafter
  have hend := hb.next hafter (by decide)
  refine Same.modify (cursorAt_bump hafter) (.ite (fun _ => rfl) fun _ => Same.get ?_)
  exact Same.before (same_children hg hagree .endTag _ hopening (by omega) hend)

/-- A tag is read by what stands behind its first byte. -/
theorem same_tag {rest : Bytes} (hkn : k ≤ n + 1) (hn : Boundary source n)
    (hdrop : source.drop n = ascii '<' :: rest) : Same source n (tag g) (tag h) := by
  have hopen := hn.next hdrop (by decide)
  refine Same.get (.ite (fun _ => rfl) fun _ => .ite (fun _ => rfl) fun _ => ?_)
  refine Same.set (cursorAt_bump hdrop) ?_
  refine Same.after (goes_eat hopen Surface.utf8_close (by decide)) fun _ a ha hopened => ?_
  refine Same.ite (fun heaten => ?_) fun hmore => ?_
  · obtain rfl : a = n + 2 := hopened.1 heaten
    have hopening : Span.Cuts source ⟨n, n + 2⟩ := ⟨Nat.le_add_right n 2, hn, ha⟩
    exact Same.get (.before (same_children hg hagree .endTag _ hopening (by omega) ha))
  · obtain rfl : a = n + 1 := (hopened.2 (by simpa using hmore)).1
    refine Same.after (goes_name hopen) fun o m hm ho => ?_
    cases o with
    | none => rfl
    | some span =>
      obtain ⟨hlt, rfl⟩ := ho.2 span rfl
      exact same_element hg hagree hkn hn hm hlt

/-! ## Braces -/

theorem same_braced (start : Cursor) (hkn : k ≤ n) (hn : Boundary source n) :
    Same source n (braced g start) (braced h start) := by
  refine Same.get (.ite (fun _ => ?_) fun _ => ?_)
  · exact Same.before (same_templateRoot hg hagree hkn hn)
  · split
    · next flow hahead =>
      exact Same.before (same_controlFlow (fun _ hl => goes_body hg hl)
        (fun _ hkl hl => same_body hg hagree hkl hl) hkn hn (atKeyword_of_flowAhead? hahead))
    · rfl

/-- Braces are read by what stands behind the first one. -/
theorem same_braces (kind : Kind) {rest : Bytes} (hkn : k ≤ n + 1) (hn : Boundary source n)
    (hdrop : source.drop n = ascii '\x7b' :: rest) :
    Same source n (braces g kind) (braces h kind) := by
  have hopen := hn.next hdrop (by decide)
  have hof : Same source n (bracesOf g kind) (bracesOf h kind) := by
    refine Same.get (.set (cursorAt_bump hdrop) ?_)
    refine Same.after (goes_skipBlanks hopen) fun _ a ha hle => ?_
    refine Same.after (goes_eat ha Surface.utf8_closeBrace (by decide)) fun _ b hb hab => ?_
    refine Same.ite (fun _ => rfl) fun hmore => ?_
    obtain rfl : b = a := (hab.2 (by simpa using hmore)).1
    exact Same.before (same_braced hg hagree _ (by omega) hb)
  have hresult : bracesOf g kind (cursorAt source n) = bracesOf h kind (cursorAt source n) := hof
  unfold Same braces
  rw [hresult]

end Nested

end Parser

end ZigMarkup
