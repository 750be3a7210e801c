import ZigMarkup.Proofs.Surface.Flow

/-!
How braces are read, and from there everything: each tag and each pair of braces takes at least
one byte, so productions that are nested as deep as a text is long read all of it.
-/
namespace ZigMarkup.Surface

open ScanM Parser

/-- What stands in braces behind the first gap, given that it is not the closing brace. -/
theorem bracesOf_append (g : Nested) (kind : Kind) (before : Gap) {text : Bytes} {inner : Tree}
    {next : Cursor} (hblank : Stops isAsciiBlank text) (hclose : Stops (· == ascii '\x7d') text)
    (pos : Nat)
    (hinner : braced g ⟨pos, utf8 "\x7b" ++ (utf8 before.text ++ text)⟩
      ⟨pos + width "\x7b" + width before.text, text⟩ = .ok inner next) :
    braces g kind ⟨pos, utf8 "\x7b" ++ (utf8 before.text ++ text)⟩ =
      .ok (.node kind ⟨pos, next.pos⟩ [inner]) next := by
  have hbraces : bracesOf g kind ⟨pos, utf8 "\x7b" ++ (utf8 before.text ++ text)⟩ =
      .ok (.node kind ⟨pos, next.pos⟩ [inner]) next := by
    unfold bracesOf
    rw [bind_get, bind_set, bump_append rfl, bind_skipBlanks, skipBlanks_gap before hblank,
      bind_of_ok (eat_of_not (startsWith_of_stops (b := ascii '\x7d') (by decide) hclose _)),
      if_neg (by decide), bind_of_ok hinner, nodeFrom_eq]
  unfold braces
  rw [hbraces]

theorem braced_code (g : Nested) (before : Gap) (e : Expr) (after : Gap) (pos : Nat) (rest : Bytes)
    (c : Cursor) (hc : c = ⟨pos + width "\x7b" + width before.text,
      utf8 e.text ++ (utf8 after.text ++ (utf8 "\x7d" ++ rest))⟩) :
    braced g ⟨pos, utf8 (Braces.code before e after).text ++ rest⟩ c =
      .ok (leafAt .hostExpr (pos + width ("\x7b" ++ before.text)) e.text)
        ⟨pos + width (Braces.code before e after).text, rest⟩ := by
  have htemplate : c.atTemplate = false := by
    rw [hc]
    exact e.noTemplate _
  have hflow : flowAhead? c = none := by
    rw [hc]
    exact e.noFlow _ after rest
  have hgroup := group_between before after e.balanced pos rest
  have hspan := trimmed_between before.isBlank after.isBlank e.tight pos rest
  simp only [Braces.text]
  unfold braced
  rw [bind_get, htemplate, if_neg (by decide), hflow]
  dsimp only
  rw [bind_set, bind_of_ok hgroup, bind_get, hspan]
  rfl

theorem braced_root {g : Nested} {size : Nat} (hg : Reads g size) (start : Cursor) (root : Root)
    (hsize : width root.text ≤ size) (after : Gap) (pos : Nat) (rest : Bytes) :
    braced g start ⟨pos, utf8 root.text ++ (utf8 after.text ++ (utf8 "\x7d" ++ rest))⟩ =
      .ok (root.tree pos) ⟨pos + width root.text + width after.text + width "\x7d", rest⟩ := by
  have htemplate : Cursor.atTemplate
      ⟨pos, utf8 root.text ++ (utf8 after.text ++ (utf8 "\x7d" ++ rest))⟩ = true :=
    beginsTemplate_root root _
  unfold braced
  rw [bind_get, htemplate, if_pos rfl, bind_of_ok (templateRoot_append hg root hsize pos _),
    bind_skipBlanks, skipBlanks_gap after (by simp; decide), bind_of_ok (expect_append ..)]
  rfl

/-- Control flow begins with a letter. -/
theorem Flow.head (flow : Flow) : (utf8 flow.text).head?.any isIdentStart := by
  cases flow <;> (simp [Flow.text, utf8_append]; decide)

theorem braced_flow {g : Nested} {size : Nat} (hg : Reads g size) (start : Cursor) (flow : Flow)
    (hsize : width flow.text ≤ size) (after : Gap) (pos : Nat) (rest : Bytes) :
    braced g start ⟨pos, utf8 flow.text ++ (utf8 after.text ++ (utf8 "\x7d" ++ rest))⟩ =
      .ok (flow.tree pos) ⟨pos + width flow.text + width after.text + width "\x7d", rest⟩ := by
  have htemplate : Cursor.atTemplate
      ⟨pos, utf8 flow.text ++ (utf8 after.text ++ (utf8 "\x7d" ++ rest))⟩ = false := by
    obtain ⟨b, hhead, hb⟩ := (Option.any_eq_true ..).mp flow.head
    obtain ⟨bytes, hbytes⟩ : ∃ bytes, utf8 flow.text = b :: bytes := List.head?_eq_some_iff.mp hhead
    have hparen : (b == ascii '(') = false := beq_of_class hb (by decide)
    simp [Cursor.atTemplate, hbytes, beginsTemplate, hparen]
  unfold braced
  rw [bind_get, htemplate, if_neg (by decide), flowAhead?_append]
  dsimp only
  rw [bind_of_ok (controlFlow_append hg flow hsize ⟨after, rest, rfl⟩ pos), bind_skipBlanks,
    skipBlanks_gap after (by simp; decide), bind_of_ok (expect_append ..)]
  rfl

/-- Braces are read as what they are if all smaller markup and braces are. -/
theorem braces_append {g : Nested} {size : Nat} (hg : Reads g size) (kind : Kind) (b : Braces)
    (hsize : width b.text ≤ size + 1) (pos : Nat) (rest : Bytes) :
    braces g kind ⟨pos, utf8 b.text ++ rest⟩ =
      .ok (b.tree kind pos) ⟨pos + width b.text, rest⟩ := by
  have hone : width "\x7b" = 1 := rfl
  cases b with
  | code before e after =>
    have hsplit : utf8 (Braces.code before e after).text ++ rest = utf8 "\x7b" ++
        (utf8 before.text ++ (utf8 e.text ++ (utf8 after.text ++ (utf8 "\x7d" ++ rest)))) := by
      simp only [Braces.text, utf8_append, List.append_assoc]
    have hinner := braced_code g before e after pos rest _ rfl
    rw [hsplit] at hinner ⊢
    rw [bracesOf_append g kind before (e.tight.stops_blank _)
      (e.balanced.stops_brace (utf8_ne_nil e.nonempty) _) pos hinner]
    rfl
  | root before root after =>
    simp only [Braces.text, width_append, hone] at hsize
    have hstops : ∀ {p : UInt8 → Bool}, p (ascii '(') = false → ∀ more,
        Stops p (utf8 root.text ++ more) := fun hp more =>
      stops_of_head (p := (· == ascii '(')) (by simp [root.head])
        (fun b hb => by obtain rfl := beq_iff_eq.mp hb; exact hp) more
    have hinner := fun start => braced_root hg start root (by omega) after
      (pos + width "\x7b" + width before.text) rest
    simp only [Braces.text, utf8_append, List.append_assoc]
    rw [bracesOf_append g kind before (hstops (by decide) _) (hstops (by decide) _) pos (hinner _)]
    simp only [Braces.tree, Braces.text, nodeAt, spanAt, width_append, Nat.add_assoc]
  | flow before flow after =>
    simp only [Braces.text, width_append, hone] at hsize
    have hinner := fun start => braced_flow hg start flow (by omega) after
      (pos + width "\x7b" + width before.text) rest
    simp only [Braces.text, utf8_append, List.append_assoc]
    rw [bracesOf_append g kind before (stops_of_head flow.head not_blank_of_identStart _)
      (stops_of_head flow.head (fun _ hb => beq_of_class hb (by decide)) _) pos (hinner _)]
    simp only [Braces.tree, Braces.text, nodeAt, spanAt, width_append, Nat.add_assoc]

theorem nested_tag (depth : Nat) : (nested (depth + 1)).tag = tag (nested depth) := rfl

theorem nested_braces (depth : Nat) (kind : Kind) :
    (nested (depth + 1)).braces kind = braces (nested depth) kind := rfl

/-- Productions nested to some depth read all that is not longer. -/
theorem nested_reads (depth : Nat) : Reads (nested depth) depth := by
  induction depth with
  | zero =>
    constructor
    · intro markup pos rest hsize
      have hlength := length_pos_of_head markup.head
      unfold width at hsize
      omega
    · intro b kind pos rest hsize
      have hlength := length_pos_of_head b.head
      unfold width at hsize
      omega
  | succ depth ih =>
    constructor
    · intro markup pos rest hsize
      rw [nested_tag, tag_append ih markup hsize]
    · intro b kind pos rest hsize
      rw [nested_braces, braces_append ih kind b hsize]

/-! ## Files -/

theorem nextTemplate?_root (host : Host) (root : Root) (rest : Bytes) :
    nextTemplate? (utf8 host.text ++ (utf8 root.text ++ rest)) = some (width host.text) := by
  have hbegins := beginsTemplate_root root rest
  obtain ⟨bytes, hbytes⟩ : ∃ bytes, utf8 root.text = ascii '(' :: bytes :=
    List.head?_eq_some_iff.mp root.head
  rw [hbytes, List.cons_append] at hbegins ⊢
  have hvisit : templateVisit () (0 + width host.text) (ascii '(') (bytes ++ rest) =
      .stop (some (0 + width host.text)) := by
    have hlexeme : lexeme (ascii '(') (bytes ++ rest) = .plain := rfl
    rw [templateVisit, hlexeme]
    simp only [hbegins, if_true]
  rw [nextTemplate?, walk, host.passed, walkFrom, hvisit, Nat.zero_add]

theorem nextTemplate?_host (host : Host) : nextTemplate? (utf8 host.text) = none := by
  have hpassed := host.passed (fun _ _ => none) 0 []
  rw [List.append_nil] at hpassed
  rw [nextTemplate?, walk, hpassed]
  rfl

theorem hostTrees_eq (host : Host) (pos : Nat) :
    (if pos < pos + width host.text then [Tree.leaf .hostText ⟨pos, pos + width host.text⟩] else []) =
      hostTrees pos host := by
  by_cases hempty : host.text = ""
  · have hzero : width host.text = 0 := by rw [hempty]; rfl
    rw [hostTrees, if_pos hempty, if_neg (by omega)]
  · have hpos : 0 < width host.text := List.length_pos_iff.mpr (utf8_ne_nil hempty)
    rw [hostTrees, if_neg hempty, if_pos (by omega)]
    rfl

theorem fileItems_append {g : Nested} {size : Nat} (hg : Reads g size) (file : File)
    (hsize : width file.text ≤ size) {turns : Nat} (hturns : width file.text < turns) (pos : Nat) :
    fileItems g turns ⟨pos, utf8 file.text⟩ = file.trees pos := by
  induction file generalizing turns pos with
  | last host =>
    cases turns with
    | zero => omega
    | succ turns =>
      have hnext : Cursor.nextTemplate ⟨pos, utf8 host.text⟩ = (false, ⟨pos + width host.text, []⟩) := by
        unfold Cursor.nextTemplate
        rw [nextTemplate?_host]
        simp [Cursor.skip, width]
      simp only [File.text, fileItems, hnext]
      exact hostTrees_eq host pos
  | more host root rest ih =>
    cases turns with
    | zero => omega
    | succ turns =>
      simp only [File.text, width_append] at hsize hturns
      have hroot : 0 < width root.text := length_pos_of_head root.head
      have hnext : Cursor.nextTemplate ⟨pos, utf8 host.text ++ (utf8 root.text ++ utf8 rest.text)⟩ =
          (true, ⟨pos + width host.text, utf8 root.text ++ utf8 rest.text⟩) := by
        unfold Cursor.nextTemplate
        rw [nextTemplate?_root]
        simp only [skip_width]
      have hread : rootOrError g ⟨pos + width host.text, utf8 root.text ++ utf8 rest.text⟩ =
          (root.tree (pos + width host.text),
            ⟨pos + width host.text + width root.text, utf8 rest.text⟩) := by
        unfold rootOrError
        rw [templateRoot_append hg root (by omega)]
      have hrest : fileItems g turns ⟨pos + width host.text + width root.text, utf8 rest.text⟩ =
          rest.trees (pos + width host.text + width root.text) := ih (by omega) (by omega) _
      simp only [File.text, utf8_append, List.append_assoc, fileItems, hnext, hread, hrest, if_true]
      rw [File.trees, ← hostTrees_eq, width_append, Nat.add_assoc]
      rfl

/-- A file of surface templates is read as what it is. -/
theorem parse_append (file : File) : parse (utf8 file.text) = file.tree := by
  have hitems := fileItems_append (nested_reads (width file.text + 1)) file (by omega)
    (Nat.lt_succ_self _) 0
  change Tree.node .sourceFile ⟨0, width file.text⟩ (fileItems (nested (width file.text + 1))
    (width file.text + 1) ⟨0, utf8 file.text⟩) = file.tree
  rw [hitems, File.tree, nodeAt, spanAt, Nat.zero_add]

end ZigMarkup.Surface
