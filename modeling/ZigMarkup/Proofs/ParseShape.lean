import ZigMarkup.Proofs.TreeShape

/-!
Every tree that `parse` builds is shaped. Productions that contain each other are followed
by induction on their depth; what a template root begins with is known from the cursor, since
a root is only read where `<` and a name or `>` lie ahead.
-/
namespace ZigMarkup

namespace Parser

open ScanM Tree

theorem gives_child? {g : Nested} (hg : SoundNested g) (terminator : Terminator) (opening : Span)
    (opener : String) :
    Gives (child? g terminator opening opener) fun o => ∀ t ∈ o, Sound Kind.isChild t := by
  refine Gives.after fun c => ?_
  split
  · exact gives_fail _ _
  refine Gives.ite (fun _ => Gives.ite (fun _ => ?_) fun _ => ?_) fun _ =>
    Gives.ite (fun _ => ?_) fun _ => Gives.ite (fun _ => ?_) fun _ => ?_
  · cases terminator with
    | endTag => exact Gives.pure (by simp)
    | brace => exact gives_strayEndTag
  · refine Gives.bind hg.tag fun t ht => Gives.pure ?_
    rintro u ⟨rfl⟩
    exact ht.mono fun k hk => by cases k <;> simp_all [Kind.isChild, Kind.isMarkup]
  · refine Gives.bind hg.child fun t ht => Gives.pure ?_
    rintro u ⟨rfl⟩
    exact ht.mono fun k hk => by cases k <;> simp_all [Kind.isChild]
  · cases terminator with
    | brace => exact Gives.pure (by simp)
    | endTag =>
      refine Gives.after fun _ => Gives.pure ?_
      rintro u ⟨rfl⟩
      exact sound_error _ _ rfl
  · refine Gives.bind gives_text fun t ht => Gives.pure ?_
    rintro u ⟨rfl⟩
    exact ht.mono fun k hk => by cases k <;> simp_all [Kind.isChild]

theorem gives_children {g : Nested} (hg : SoundNested g) (terminator : Terminator)
    (opening : Span) (opener : String) :
    Gives (children g terminator opening opener) fun ts => ∀ t ∈ ts, Sound Kind.isChild t :=
  gives_many (gives_child? hg terminator opening opener)

theorem gives_rootItem? {g : Nested} (hg : SoundNested g) (opening : Cursor) :
    Gives (rootItem? g opening) fun o => ∀ t ∈ o, Sound Kind.isMarkup t := by
  refine Gives.after fun _ => Gives.after fun _ => ?_
  refine Gives.ite (fun _ => Gives.pure (by simp)) fun _ => Gives.after fun c => ?_
  refine Gives.ite (fun _ => gives_fail _ _) fun _ => Gives.ite (fun _ => ?_) fun _ =>
    gives_expected _
  refine Gives.bind hg.tag fun t ht => Gives.pure ?_
  rintro u ⟨rfl⟩
  exact ht

theorem gives_fragment {g : Nested} (hg : SoundNested g) (start : Cursor) :
    Gives (fragment g start) (Sound (· == .fragment)) := by
  refine Gives.after fun _ => Gives.bind (gives_children hg _ _ _) fun items hitems => ?_
  refine Gives.bind gives_endTag fun close hclose => gives_nodeFrom fun span => ?_
  refine sound_node rfl ⟨items, close, rfl, by simpa using hclose.kind, ?_⟩ ?_
  · exact fun c hc => (hitems c hc).kind
  · intro c hc
    rcases List.mem_append.mp hc with hc | hc
    · exact (hitems c hc).shape
    · rw [List.mem_singleton.mp hc]
      exact hclose.shape

theorem gives_attr? {g : Nested} (hg : SoundNested g) (opening : Span) (name : String) :
    Gives (attr? g opening name) fun o => ∀ t ∈ o, Sound Kind.isAttribute t := by
  refine Gives.after fun _ => Gives.after fun c => ?_
  refine Gives.ite (fun _ => Gives.pure (by simp)) fun _ => Gives.ite (fun _ => ?_) fun _ => ?_
  · exact gives_fail _ _
  · refine Gives.bind (gives_attrOrError hg) fun t ht => Gives.pure ?_
    rintro u ⟨rfl⟩
    exact ht

theorem gives_element {g : Nested} (hg : SoundNested g) (start : Cursor) (nameSpan : Span) :
    Gives (element g start nameSpan)
      (Sound fun k => k == .element || k == .selfClosingElement) := by
  refine Gives.after fun c => Gives.bind (gives_many (gives_attr? hg _ _)) fun attributes hattrs => ?_
  have hparts : ∀ p ∈ Tree.leaf .tagName nameSpan :: attributes, Everywhere Shaped p := by
    intro p hp
    rcases List.mem_cons.mp hp with rfl | hp
    · exact everywhere_leaf rfl
    · exact (hattrs p hp).shape
  have hclosed : Gives (nodeFrom .selfClosingElement start (.leaf .tagName nameSpan :: attributes))
      (Sound fun k => k == .element || k == .selfClosingElement) :=
    gives_nodeFrom fun span => sound_node rfl
      ⟨_, attributes, rfl, rfl, fun a ha => (hattrs a ha).kind⟩ hparts
  have hstart : Gives (nodeFrom .startTag start (.leaf .tagName nameSpan :: attributes))
      (Sound (· == .startTag)) :=
    gives_nodeFrom fun span => sound_node rfl
      ⟨_, attributes, rfl, rfl, fun a ha => (hattrs a ha).kind⟩ hparts
  refine Gives.after fun _ => Gives.ite (fun _ => hclosed) fun _ => Gives.after fun _ => ?_
  refine Gives.ite (fun _ => hclosed) fun _ => Gives.bind hstart fun startTag hst => ?_
  refine Gives.bind (gives_children hg _ _ _) fun items hitems => ?_
  refine Gives.bind gives_endTag fun close hclose => gives_nodeFrom fun span => ?_
  refine sound_node rfl ⟨startTag, items, close, rfl, by simpa using hst.kind,
    by simpa using hclose.kind, fun c hc => (hitems c hc).kind⟩ ?_
  intro c hc
  rcases List.mem_append.mp hc with hc | hc
  · rcases List.mem_cons.mp hc with rfl | hc
    · exact hst.shape
    · exact (hitems c hc).shape
  · rw [List.mem_singleton.mp hc]
    exact hclose.shape

theorem gives_tag {g : Nested} (hg : SoundNested g) : Gives (tag g) (Sound Kind.isMarkup) := by
  refine Gives.after fun start => Gives.ite (fun _ => gives_comment) fun _ =>
    Gives.ite (fun _ => gives_strayEndTag) fun _ => Gives.after fun _ => Gives.after fun _ => ?_
  refine Gives.ite (fun _ => ?_) fun _ => Gives.after fun name? => ?_
  · exact (gives_fragment hg start).mono fun t ht => ht.mono fun k hk => by
      cases k <;> simp_all [Kind.isMarkup]
  · split
    · exact gives_expected _
    · exact (gives_element hg start _).mono fun t ht => ht.mono fun k hk => by
        cases k <;> simp_all [Kind.isMarkup]

theorem opened_tag {g : Nested} (hg : SoundNested g) {c next : Cursor} {t : Tree}
    (hopen : c.opensMarkup) (h : tag g c = .ok t next) : t.kind ≠ .comment := by
  obtain ⟨b, rest, hrest, hb⟩ := hopen
  have hcomment : c.startsWith "<!--" = false := by
    have hne : (ascii '!' == b) = false := by
      rcases hb with rfl | hb
      · rfl
      · refine beq_false_of_ne ?_
        rintro rfl
        exact absurd hb (by decide)
    have hutf : utf8 "<!--" = [ascii '<', ascii '!', ascii '-', ascii '-'] := by decide
    simp [Cursor.startsWith, hrest, hutf, List.isPrefixOf, hne]
  obtain ⟨start, mid, hget, h⟩ := ok_of_bind h
  cases hget
  simp only [hcomment, Bool.false_eq_true, if_false] at h
  refine (?_ : Gives _ fun t : Tree => t.kind ≠ .comment) c t next h
  refine Gives.ite (fun _ => gives_strayEndTag) fun _ => Gives.after fun _ => ?_
  refine Gives.after fun _ => Gives.ite (fun _ => ?_) fun _ => Gives.after fun name? => ?_
  · refine (gives_fragment hg c).mono fun t ht => ?_
    rw [beq_iff_eq.mp ht.kind]
    decide
  · split
    · exact gives_expected _
    · refine (gives_element hg c _).mono fun t ht hcom => ?_
      simpa [hcom] using ht.kind

theorem opensMarkup_of_atTemplate {c : Cursor} (h : c.atTemplate) :
    (c.skip 1).skipBlanks.opensMarkup := by
  unfold Cursor.atTemplate beginsTemplate at h
  unfold Cursor.opensMarkup Cursor.skipBlanks
  rw [Cursor.skipWhile_rest]
  cases hc : c.rest with
  | nil => simp [hc] at h
  | cons b rest =>
    simp only [hc, Bool.and_eq_true] at h
    have hskip : (c.skip 1).rest = rest := by simp [Cursor.skip, hc]
    rw [hskip]
    obtain ⟨_, h⟩ := h
    split at h
    · next lt next tail heq =>
      simp only [Bool.and_eq_true, Bool.or_eq_true, beq_iff_eq] at h
      obtain ⟨rfl, h⟩ := h
      exact ⟨next, tail, heq, h⟩
    · cases h

/-- The first thing in a template root is an element or a fragment. -/
theorem rootItem?_opened {g : Nested} (hg : SoundNested g) {opening c next : Cursor}
    {o : Option Tree} (hopen : c.skipBlanks.opensMarkup)
    (h : rootItem? g opening c = .ok o next) : ∃ t, o = some t ∧ t.kind ≠ .comment := by
  obtain ⟨b, rest, hrest, hb⟩ := hopen
  obtain ⟨_, mid, hblanks, h⟩ := ok_of_bind h
  cases hblanks
  obtain ⟨closed, mid, heat, h⟩ := ok_of_bind h
  have hclose : c.skipBlanks.startsWith ")" = false := by
    have hutf : utf8 ")" = [ascii ')'] := by decide
    have hne : (ascii ')' == ascii '<') = false := by decide
    simp [Cursor.startsWith, hrest, hutf, List.isPrefixOf, hne]
  rw [eat_eq, hclose] at heat
  cases heat
  obtain ⟨_, mid, hget, h⟩ := ok_of_bind h
  cases hget
  have hend : c.skipBlanks.atEnd = false := by simp [Cursor.atEnd, hrest]
  have hpeek : c.skipBlanks.peek = some (ascii '<') := by simp [Cursor.peek, hrest]
  simp only [hend, hpeek, Bool.false_eq_true, if_false, if_true] at h
  obtain ⟨t, mid, htag, h⟩ := ok_of_bind h
  cases h
  exact ⟨t, rfl, hg.opened _ t next ⟨b, rest, hrest, hb⟩ htag⟩

theorem templateRoot_sound {g : Nested} (hg : SoundNested g) {c next : Cursor} {t : Tree}
    (hopen : c.atTemplate) (h : templateRoot g c = .ok t next) :
    Sound (· == .templateRoot) t := by
  obtain ⟨start, mid, hget, h⟩ := ok_of_bind h
  cases hget
  obtain ⟨_, mid, hexpect, h⟩ := ok_of_bind h
  obtain ⟨_, rfl⟩ := expect_ok hexpect
  have hskip : (utf8 "(").length = 1 := by decide
  rw [hskip] at h
  obtain ⟨items, mid, hmany, h⟩ := ok_of_bind h
  have hall := gives_many (gives_rootItem? hg c) _ items mid hmany
  obtain ⟨_, _, hget, hmany⟩ := ok_of_bind hmany
  cases hget
  obtain ⟨o, behind, hstep, hmany⟩ := ok_of_bind hmany
  obtain ⟨first, rfl, hfirst⟩ := rootItem?_opened hg (opensMarkup_of_atTemplate hopen) hstep
  obtain ⟨rest, _, _, hmany⟩ := ok_of_bind hmany
  cases hmany
  refine gives_nodeFrom (fun span => sound_node rfl ?_ fun c hc => (hall c hc).shape) _ t next h
  exact Or.inr ⟨first, rest, rfl, hfirst, fun c hc => (hall c hc).kind⟩

theorem gives_body {g : Nested} (hg : SoundNested g) : Gives (body g) (Sound (· == .body)) := by
  intro c t next h
  obtain ⟨start, mid, hget, h⟩ := ok_of_bind h
  cases hget
  by_cases hopen : c.atTemplate
  · simp only [hopen, if_true] at h
    obtain ⟨root, mid, hroot, h⟩ := ok_of_bind h
    have hsound := templateRoot_sound hg hopen hroot
    refine gives_nodeFrom (fun span => sound_node rfl ?_ ?_) _ t next h
    · exact Or.inl ⟨root, rfl, by simpa using hsound.kind⟩
    · simpa using hsound.shape
  · simp only [hopen, if_false, Bool.false_eq_true] at h
    have hlist : Gives (if c.peek = some (ascii '\x7b') then do
        set c.bump
        let items ← children g .brace ⟨c.pos, c.pos + 1⟩ "\x7b"
        expect "\x7d" .bodyEnd
        nodeFrom .body c items
      else expected .body) (Sound (· == .body)) := by
      refine Gives.ite (fun _ => Gives.after fun _ => ?_) fun _ => gives_expected _
      refine Gives.bind (gives_children hg _ _ _) fun items hitems => Gives.after fun _ => ?_
      refine gives_nodeFrom fun span => sound_node rfl ?_ fun c hc => (hitems c hc).shape
      exact Or.inr fun c hc => (hitems c hc).kind
    exact hlist c t next h

theorem gives_braced {g : Nested} (hg : SoundNested g) (start : Cursor) :
    Gives (braced g start) (Sound Kind.isInner) := by
  intro c t next h
  obtain ⟨_, mid, hget, h⟩ := ok_of_bind h
  cases hget
  by_cases hopen : c.atTemplate
  · simp only [hopen, if_true] at h
    obtain ⟨root, mid, hroot, h⟩ := ok_of_bind h
    obtain ⟨_, _, _, h⟩ := ok_of_bind h
    obtain ⟨_, _, _, h⟩ := ok_of_bind h
    cases h
    exact (templateRoot_sound hg hopen hroot).mono fun k hk => by
      cases k <;> simp_all [Kind.isInner]
  · simp only [hopen, if_false, Bool.false_eq_true] at h
    cases hahead : flowAhead? c with
    | some flow =>
      have hflow := gives_controlFlow (gives_body hg) flow
      simp only [hahead] at h
      obtain ⟨block, _, hblock, h⟩ := ok_of_bind h
      obtain ⟨_, _, _, h⟩ := ok_of_bind h
      obtain ⟨_, _, _, h⟩ := ok_of_bind h
      cases h
      exact (hflow _ _ _ hblock).mono fun k hk => by
        cases k <;> simp_all [Kind.isInner, Kind.isControlFlow]
    | none =>
      simp only [hahead] at h
      obtain ⟨_, _, _, h⟩ := ok_of_bind h
      obtain ⟨_, _, _, h⟩ := ok_of_bind h
      obtain ⟨_, _, _, h⟩ := ok_of_bind h
      cases h
      have hleaf : ∀ span, Sound Kind.isInner (.leaf .hostExpr span) :=
        sound_leaf rfl fun _ => rfl
      exact hleaf _

theorem gives_braces {g : Nested} (hg : SoundNested g) {kind : Kind}
    (hkind : kind = .expressionBlock ∨ kind = .exprValue) :
    Gives (braces g kind) (Sound fun k => k == kind || k == .error) := by
  have hof : Gives (bracesOf g kind) (Sound fun k => k == kind || k == .error) := by
    refine Gives.after fun start => Gives.after fun _ => Gives.after fun _ => ?_
    refine Gives.after fun _ => Gives.ite (fun _ => ?_) fun _ => ?_
    · refine gives_leafFrom (sound_leaf (by simp) fun _ => ?_)
      rcases hkind with rfl | rfl <;> exact Or.inl rfl
    · refine Gives.bind (gives_braced hg start) fun inner hinner => gives_nodeFrom fun span => ?_
      refine sound_node (by simp) ?_ (by simpa using hinner.shape)
      rcases hkind with rfl | rfl <;> exact Or.inr ⟨inner, rfl, hinner.kind⟩
  intro c t next h
  unfold braces at h
  split at h
  · next hok =>
    cases h
    exact hof c _ _ hok
  · cases h
    exact sound_error _ _ (by simp)

/-- Induction on the depth to which productions may contain each other. -/
theorem nested_sound (depth : Nat) : SoundNested (nested depth) := by
  induction depth with
  | zero =>
    refine ⟨?_, ?_, ?_, ?_⟩
    all_goals intro c t next
    · exact fun h => by cases h
    · exact fun _ h => by cases h
    · exact fun h => by cases h
    · exact fun h => by cases h
  | succ depth ih =>
    exact ⟨gives_tag ih, fun _ _ _ hopen h => opened_tag ih hopen h, gives_braces ih (Or.inl rfl),
      gives_braces ih (Or.inr rfl)⟩

/-! ## Files -/

theorem rootOrError_sound {g : Nested} (hg : SoundNested g) {c : Cursor} (hopen : c.atTemplate) :
    Sound (· == .templateRoot) (rootOrError g c).1 := by
  unfold rootOrError
  split
  · next h => exact templateRoot_sound hg hopen h
  · refine sound_node rfl (Or.inl ⟨_, rfl, rfl⟩) ?_
    intro t ht
    rw [List.mem_singleton.mp ht]
    exact (sound_error (K := fun _ => true) _ _ rfl).shape

theorem beginsTemplate_of_walk {text : Bytes} : ∀ {skip offset found : Nat},
    walkFrom templateVisit (fun _ _ => none) skip () offset text = some found →
      ∃ n, found = offset + n ∧ beginsTemplate (text.drop n) := by
  induction text with
  | nil => intro skip offset found h; cases skip <;> cases h
  | cons b rest ih =>
    -- Whatever is passed over, the root is found in what is left.
    have later : ∀ {skip offset found : Nat},
        walkFrom templateVisit (fun _ _ => none) skip () (offset + 1) rest = some found →
          ∃ n, found = offset + n ∧ beginsTemplate ((b :: rest).drop n) := by
      intro skip offset found h
      obtain ⟨n, rfl, hn⟩ := ih h
      exact ⟨n + 1, by omega, hn⟩
    intro skip offset found h
    cases skip with
    | succ skip => exact later h
    | zero =>
      simp only [walkFrom, templateVisit] at h
      cases hlex : lexeme b rest with
      | trivia length => exact later (by simpa [hlex] using h)
      | broken length => exact later (by simpa [hlex] using h)
      | plain =>
        cases hbegin : beginsTemplate (b :: rest) with
        | true => exact ⟨0, by simpa [hlex, hbegin] using h.symm, hbegin⟩
        | false => exact later (by simpa [hlex, hbegin] using h)

theorem atTemplate_of_nextTemplate {start c : Cursor} (h : start.nextTemplate = (true, c)) :
    c.atTemplate := by
  unfold Cursor.nextTemplate at h
  split at h
  · next offset hfound =>
    cases h
    obtain ⟨n, hn, hbegin⟩ := beginsTemplate_of_walk hfound
    have hoffset : offset = n := by omega
    subst hoffset
    exact hbegin
  · cases h

theorem fileItems_sound {g : Nested} (hg : SoundNested g) (turns : Nat) (start : Cursor) :
    ∀ t ∈ fileItems g turns start, Sound (fun k => k == .hostText || k == .templateRoot) t := by
  induction turns generalizing start with
  | zero => simp [fileItems]
  | succ turns ih =>
    intro t ht
    unfold fileItems at ht
    rcases hnext : start.nextTemplate with ⟨found, c⟩
    have hhost : ∀ u ∈ (if start.pos < c.pos then [Tree.leaf .hostText (c.spanFrom start.pos)]
        else []), Sound (fun k => k == .hostText || k == .templateRoot) u := by
      intro u hu
      split at hu
      · rw [List.mem_singleton.mp hu]
        exact ⟨rfl, everywhere_leaf rfl⟩
      · simp at hu
    cases found with
    | false =>
      simp only [hnext, Bool.false_eq_true, if_false] at ht
      exact hhost t ht
    | true =>
      have hroot := rootOrError_sound hg (atTemplate_of_nextTemplate hnext)
      simp only [hnext, if_true] at ht
      rcases List.mem_append.mp ht with ht | ht
      · exact hhost t ht
      · rcases List.mem_cons.mp ht with rfl | ht
        · exact hroot.mono fun k hk => by simp_all
        · exact ih _ t ht

end Parser

/-- Every node of the tree of a source has the children that its kind asks for. -/
theorem parse_shaped (source : Bytes) : (parse source).Everywhere Tree.Shaped := by
  have hitems := Parser.fileItems_sound (Parser.nested_sound (source.length + 1))
    (source.length + 1) (Cursor.ofBytes source)
  refine Tree.everywhere_iff.mpr ⟨fun c hc => ?_, fun c hc => (hitems c hc).shape⟩
  simpa using (hitems c hc).kind

end ZigMarkup
