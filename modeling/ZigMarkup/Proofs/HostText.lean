import ZigMarkup.Proofs.Escaping
import ZigMarkup.Proofs.Margins
import ZigMarkup.Proofs.Spelling

/-!
Host text is kept. A file is host text and template roots by turns; compiling puts code in the
place of each root and leaves every other byte where it was. Codes are made from left to right
with one counter, each laid out to the margin of the line on which its root begins.
-/
namespace ZigMarkup

open Code Tree

/-- A file as its first host text, and its roots, each with the host text behind it. -/
structure FileParts where
  first : String
  roots : List (String × String)
deriving DecidableEq

namespace FileParts

/-- The parts that a list of trees stands for. -/
def ofTrees (source : Bytes) : List Tree → FileParts
  | [] => ⟨"", []⟩
  | t :: ts =>
    let rest := ofTrees source ts
    if t.kind = .templateRoot then ⟨"", (t.text source, rest.first) :: rest.roots⟩
    else ⟨t.text source ++ rest.first, rest.roots⟩

theorem ofTrees_root {source : Bytes} {t : Tree} (h : t.kind = .templateRoot) (ts : List Tree) :
    ofTrees source (t :: ts) =
      ⟨"", (t.text source, (ofTrees source ts).first) :: (ofTrees source ts).roots⟩ := by
  rw [ofTrees, if_pos h]

theorem ofTrees_host {source : Bytes} {t : Tree} (h : t.kind = .hostText) (ts : List Tree) :
    ofTrees source (t :: ts) =
      ⟨t.text source ++ (ofTrees source ts).first, (ofTrees source ts).roots⟩ := by
  rw [ofTrees, if_neg (by rw [h]; decide)]

def ofSource (source : String) : FileParts :=
  ofTrees (utf8 source) (parse (utf8 source)).children

def text (parts : FileParts) : String :=
  parts.first ++ String.join (parts.roots.map fun root => root.1 ++ root.2)

/-- The file with codes in the places of its roots. -/
def replaced (parts : FileParts) (codes : List String) : String :=
  parts.first ++ String.join (List.zipWith (fun code root => code ++ root.2) codes parts.roots)

/-- The margins of the roots, given the text before the first of them. -/
def marginsFrom : String → List (String × String) → List String
  | _, [] => []
  | before, (root, host) :: rest => marginOf before :: marginsFrom (before ++ root ++ host) rest

def margins (parts : FileParts) : List String := marginsFrom parts.first parts.roots

end FileParts

/-- The codes of templates that are laid out to margins, made with one counter. -/
def emitAll (options : Options) (margins : List String) (templates : List Template) :
    EmitM (List String) :=
  (margins.zip templates).mapM fun pair => emitTemplate options pair.1 pair.2

/-- A part of a file that could be read: host text up to the next root, or a whole root. -/
inductive IsPart (source : Bytes) (t : Tree) : Prop where
  | host (hkind : t.kind = .hostText) (hspelled : Spelled source t)
  | root (hkind : t.kind = .templateRoot) (hparens : InParens (t.span.slice source))

/-- A file with templates has no error nodes. -/
theorem kind_ne_error_of_templatesOf {source : Bytes} {file : Tree} {templates : List Template}
    (h : templatesOf source file = .ok templates) : file.Everywhere (·.kind ≠ .error) := by
  unfold templatesOf at h
  split at h
  · cases h
  · next hnone =>
    intro t ht hkind
    have hmem : t ∈ file.errors :=
      List.mem_mergeSort.mpr (List.mem_filter.mpr ⟨ht, by simp [Tree.isError, hkind]⟩)
    rw [hnone] at hmem
    cases hmem

theorem isPart_of_templatesOf {source : Bytes} {templates : List Template}
    (h : templatesOf source (parse source) = .ok templates) :
    ∀ t ∈ (parse source).children, IsPart source t := by
  intro t ht
  have hread := (kind_ne_error_of_templatesOf h).child ht
  have hspelled := ((parse_spells source).child ht).here
  rcases (parse_shaped source).here t ht with hkind | hkind
  · exact .host hkind hspelled
  · refine .root hkind ?_
    simp only [Spelled, hkind] at hspelled
    rcases hspelled with ⟨e, he, herror⟩ | hparens
    · exact absurd herror (hread.child he).here
    · exact hparens

section Cutting

variable {source : Bytes} {after : String} {start : Nat} {t : Tree} {ts : List Tree}

theorem le_of_tiles {stop : Nat} : ∀ {start : Nat} {ts : List Tree},
    Tiles stop start ts → start ≤ stop
  | _, [], h => Nat.le_of_eq h
  | _, _ :: _, ⟨_, hlt, h⟩ => Nat.le_trans (Nat.le_of_lt hlt) (le_of_tiles h)

theorem slice_append_drop (source : Bytes) (hstart : t.span.start = start) (hle : start ≤ t.span.stop) :
    source.drop start = t.span.slice source ++ source.drop t.span.stop := by
  have hdrop : source.drop t.span.stop = (source.drop start).drop (t.span.stop - start) := by
    rw [List.drop_drop]
    congr 1
    omega
  rw [Span.slice, Span.length, hstart, hdrop, List.take_append_drop]

theorem exists_cons_of_beginsTemplate {text : Bytes} (h : beginsTemplate text) :
    ∃ rest, text = ascii '(' :: rest := by
  unfold beginsTemplate at h
  split at h
  · cases h
  · next b rest =>
    simp only [Bool.and_eq_true, beq_iff_eq] at h
    exact ⟨rest, by rw [h.1]⟩

/-- Behind host text that is not the last a template begins. -/
theorem begins_behind (hkind : t.kind = .hostText) (hspelled : Spelled source t)
    (hle : t.span.start ≤ t.span.stop) (hlt : t.span.stop < source.length) :
    beginsTemplate (source.drop t.span.stop) = true := by
  simp only [Spelled, hkind, if_pos hlt] at hspelled
  obtain ⟨n, hn, hbegin⟩ := Parser.beginsTemplate_of_walk hspelled
  rw [List.drop_drop] at hbegin
  have hstop : t.span.start + n = t.span.stop := by
    rw [Span.length] at hn
    omega
  rwa [hstop] at hbegin

/-- A tile at the beginning of a text is a text, and so is what follows it. -/
theorem text_of_tile (hpart : IsPart source t) (htiles : Tiles source.length start (t :: ts))
    (hafter : utf8 after = source.drop start) :
    ∃ rest, after = t.text source ++ rest ∧ utf8 (t.text source) = t.span.slice source ∧
      utf8 rest = source.drop t.span.stop := by
  obtain ⟨hstart, hlt, htail⟩ := htiles
  have hsplit := slice_append_drop source hstart (Nat.le_of_lt hlt)
  -- It is enough to find the two texts, since a text is determined by its bytes.
  suffices h : ∃ tile rest, after = tile ++ rest ∧ utf8 tile = t.span.slice source ∧
      utf8 rest = source.drop t.span.stop by
    obtain ⟨tile, rest, hcut, htile, hrest⟩ := h
    have htext : t.text source = tile := by
      rw [Tree.text, Span.text, ← htile, decode_utf8]
    exact ⟨rest, by rw [htext, hcut], by rw [htext, htile], hrest⟩
  cases hpart with
  | host hkind hspelled =>
    by_cases hlast : t.span.stop < source.length
    · have hle : t.span.start ≤ t.span.stop := by omega
      obtain ⟨post, hopen⟩ :=
        exists_cons_of_beginsTemplate (begins_behind hkind hspelled hle hlast)
      obtain ⟨left, right, hcut, hleft, hchar, hright⟩ := exists_cut (s := after)
        (x := ascii '(') (by decide) (by rw [hafter, hsplit, hopen])
      refine ⟨left, asciiText (ascii '(') ++ right, by rw [hcut, String.append_assoc], hleft, ?_⟩
      rw [utf8_append, hchar, hright, hopen]
      rfl
    · have hstop : t.span.stop = source.length := by
        have := le_of_tiles htail
        omega
      refine ⟨after, "", by simp, ?_, ?_⟩
      · rw [hafter, hsplit, hstop, List.drop_length, List.append_nil]
      · rw [hstop, List.drop_length]
        rfl
  | root hkind hparens =>
    obtain ⟨inner, hinner⟩ := hparens
    rw [hinner] at hsplit ⊢
    obtain ⟨left, right, hcut, hleft, hclose, hright⟩ := exists_cut (s := after)
      (a := ascii '(' :: inner) (x := ascii ')') (b := source.drop t.span.stop) (by decide)
      (by rw [hafter, hsplit]; simp)
    exact ⟨left ++ asciiText (ascii ')'), right, hcut, by rw [utf8_append, hleft, hclose], hright⟩

/-- The parts of a file put together again are the file. -/
theorem ofTrees_text (ts : List Tree) : ∀ {start : Nat} {after : String},
    (∀ t ∈ ts, IsPart source t) → Tiles source.length start ts →
    utf8 after = source.drop start → (FileParts.ofTrees source ts).text = after := by
  induction ts with
  | nil =>
    intro start after _ htiles hafter
    have hend : start = source.length := htiles
    rw [hend, List.drop_length] at hafter
    exact (utf8_inj (t := "") (by rw [hafter]; rfl)).symm
  | cons t ts ih =>
    intro start after hparts htiles hafter
    obtain ⟨rest, hcut, _, hrest⟩ := text_of_tile (hparts t (by simp)) htiles hafter
    have htail := ih (fun u hu => hparts u (by simp [hu])) htiles.2.2 hrest
    rw [hcut, ← htail]
    cases hparts t (by simp) with
    | host hkind _ =>
      rw [FileParts.ofTrees_host hkind]
      simp [FileParts.text, String.append_assoc]
    | root hkind _ =>
      rw [FileParts.ofTrees_root hkind]
      simp [FileParts.text, String.append_assoc]

theorem replaceRoots_host (options : Options) (lines : LineIndex) (templates : List Template)
    (h : t.kind = .hostText) : replaceRoots options source lines templates (t :: ts) = do
      return t.text source ++ (← replaceRoots options source lines templates ts) := by
  rw [replaceRoots.eq_def]
  dsimp only
  rw [if_neg (by rw [h]; decide)]

theorem replaceRoots_root (options : Options) (lines : LineIndex) (template : Template)
    (templates : List Template) (h : t.kind = .templateRoot) :
    replaceRoots options source lines (template :: templates) (t :: ts) = do
      let code ← emitTemplate options (lines.indentAt source template.span.start) template
      return code ++ (← replaceRoots options source lines templates ts) := by
  rw [replaceRoots.eq_def]
  dsimp only
  rw [if_pos h]

/-- Replacing roots is emitting all templates, each at the margin of its root, and putting the
codes in the places of the roots. -/
theorem replaceRoots_eq (options : Options) (ts : List Tree) :
    ∀ {start : Nat} {before after : String} {templates : List Template},
      (∀ t ∈ ts, IsPart source t) → Tiles source.length start ts →
      utf8 before = source.take start → utf8 after = source.drop start →
      templates.map (·.span) = (ts.filter (·.kind == .templateRoot)).map (·.span) →
      replaceRoots options source (LineIndex.ofBytes source) templates ts = do
        let parts := FileParts.ofTrees source ts
        let codes ← emitAll options (FileParts.marginsFrom (before ++ parts.first) parts.roots)
          templates
        return parts.replaced codes := by
  induction ts with
  | nil =>
    intro start before after templates _ _ _ _ hspans
    obtain rfl : templates = [] := by simpa using hspans
    rfl
  | cons t ts ih =>
    intro start before after templates hparts htiles hbefore hafter hspans
    obtain ⟨rest, hcut, htext, hrest⟩ := text_of_tile (hparts t (by simp)) htiles hafter
    have hbehind : utf8 (before ++ t.text source) = source.take t.span.stop := by
      rw [utf8_append, hbefore, htext, Span.slice, Span.length, htiles.1, ← List.take_add]
      congr 1
      have hlt := htiles.2.1
      omega
    have htail := fun templates' => @ih _ _ _ templates' (fun u hu => hparts u (by simp [hu]))
      htiles.2.2 hbehind hrest
    cases hparts t (by simp) with
    | host hkind _ =>
      rw [replaceRoots_host _ _ _ hkind, htail templates (by simpa [hkind] using hspans),
        FileParts.ofTrees_host hkind]
      simp [FileParts.replaced, String.append_assoc]
    | root hkind hparens =>
      obtain ⟨template, rest', rfl⟩ : ∃ template rest', templates = template :: rest' := by
        cases templates with
        | nil => simp [hkind] at hspans
        | cons template rest' => exact ⟨template, rest', rfl⟩
      obtain ⟨hspan, hspans⟩ : template.span = t.span ∧
          rest'.map (·.span) = (ts.filter (·.kind == .templateRoot)).map (·.span) := by
        simpa [hkind] using hspans
      have hindent : (LineIndex.ofBytes source).indentAt source template.span.start =
          marginOf before := by
        obtain ⟨inner, hinner⟩ := hparens
        have hopen : source = utf8 before ++ ascii '(' :: (inner ++ ascii ')' ::
            source.drop t.span.stop) := by
          have hsplit := slice_append_drop source htiles.1 (Nat.le_of_lt htiles.2.1)
          rw [hinner] at hsplit
          calc source = source.take start ++ source.drop start := (List.take_append_drop ..).symm
            _ = _ := by rw [hbefore, hsplit]; simp
        have hstart : template.span.start = (utf8 before).length := by
          have hle := le_of_tiles htiles
          rw [hspan, htiles.1, hbefore, List.length_take]
          omega
        rw [hstart]
        have hmargin := LineIndex.indentAt_eq before (b := ascii '(')
          (inner ++ ascii ')' :: source.drop t.span.stop) (by decide)
        rwa [← hopen] at hmargin
      rw [replaceRoots_root _ _ _ _ hkind, hindent, htail rest' hspans, FileParts.ofTrees_root hkind]
      simp [emitAll, FileParts.marginsFrom, FileParts.replaced, String.append_assoc]

theorem roots_ofTrees (source : Bytes) (ts : List Tree) :
    (FileParts.ofTrees source ts).roots.map (·.1) =
      (ts.filter (·.kind == .templateRoot)).map (·.text source) := by
  induction ts with
  | nil => rfl
  | cons t ts ih =>
    rw [FileParts.ofTrees]
    by_cases hkind : t.kind = .templateRoot
    · simp [hkind, ih]
    · simp [hkind, ih]

/-- A text whose bytes stand in parentheses does so itself. -/
theorem exists_inner_of_inParens {text : String} (h : InParens (utf8 text)) :
    ∃ inner, text = "(" ++ inner ++ ")" := by
  obtain ⟨inner, hinner⟩ := h
  obtain ⟨left, right, rfl, hleft, hclose, hright⟩ := exists_cut (x := ascii ')')
    (a := ascii '(' :: inner) (b := []) (by decide) hinner
  obtain ⟨empty, middle, rfl, hempty, hopen, _⟩ := exists_cut (x := ascii '(') (a := [])
    (by decide) hleft
  obtain rfl : right = "" := utf8_inj hright
  obtain rfl : empty = "" := utf8_inj hempty
  refine ⟨middle, ?_⟩
  have hparen : asciiText (ascii '(') = "(" := by decide
  have hparen' : asciiText (ascii ')') = ")" := by decide
  rw [hparen, hparen']
  simp

theorem root_inParens (ts : List Tree) : ∀ {start : Nat} {after : String},
    (∀ t ∈ ts, IsPart source t) → Tiles source.length start ts →
    utf8 after = source.drop start → ∀ t ∈ ts, t.kind = .templateRoot →
      ∃ inner, t.text source = "(" ++ inner ++ ")" := by
  induction ts with
  | nil => simp
  | cons t ts ih =>
    intro start after hparts htiles hafter u hu hkind
    obtain ⟨rest, _, htext, hrest⟩ := text_of_tile (hparts t (by simp)) htiles hafter
    rcases List.mem_cons.mp hu with rfl | hu
    · cases hparts u (by simp) with
      | host hhost _ => rw [hhost] at hkind; cases hkind
      | root _ hparens => exact exists_inner_of_inParens (by rw [htext]; exact hparens)
    · exact ih (fun v hv => hparts v (by simp [hv])) htiles.2.2 hrest u hu hkind

end Cutting

/-! ## Files that compile -/

theorem spans_of_templatesOf {source : Bytes} {file : Tree} {templates : List Template}
    (h : templatesOf source file = .ok templates) :
    templates.map (·.span) = file.templateRoots.map (·.span) := by
  unfold templatesOf at h
  split at h
  · cases h
  · generalize file.templateRoots = roots at h
    induction roots generalizing templates with
    | nil => cases h; rfl
    | cons root roots ih =>
      rw [List.mapM_cons] at h
      obtain ⟨first, hfirst, h⟩ := Checked.ok_of_bind h
      obtain ⟨rest, hrest, h⟩ := Checked.ok_of_bind h
      obtain ⟨node, _, hfirst⟩ := Checked.ok_of_bind hfirst
      cases h
      cases hfirst
      rw [List.map_cons, List.map_cons, ih hrest]

theorem generated_of_compile {options : Options} {source : String} {compiled : Compiled}
    (h : compile options source = .ok compiled) :
    ∃ templates, templatesOf (utf8 source) (parse (utf8 source)) = .ok templates ∧
      (templates = [] → compiled = ⟨source, 0, 0⟩) ∧
      (templates ≠ [] → ∀ code counter,
        (replaceRoots options (utf8 source) (LineIndex.ofBytes (utf8 source))
          (templates.map (Template.resolve options.defaultAllocator))
          (parse (utf8 source)).children).run {} = (code, counter) →
        compiled = ⟨addedImport options (utf8 source) (parse (utf8 source)) ++ code,
          templates.length, counter.blocks⟩) := by
  unfold compile at h
  dsimp only at h
  split at h
  · next hgenerate =>
    cases h
    obtain ⟨templates, htemplates, h⟩ := Checked.ok_of_bind hgenerate
    refine ⟨templates, htemplates, ?_, ?_⟩
    · rintro rfl
      cases h
      rw [decode_utf8]
    · intro hne code counter hrun
      have hempty : ¬ templates.isEmpty = true := by simpa using hne
      rw [if_neg hempty] at h
      dsimp only at h
      rw [hrun] at h
      exact (Except.ok.inj h).symm
  · cases h

theorem length_roots_of_templatesOf {source : String} {templates : List Template}
    (h : templatesOf (utf8 source) (parse (utf8 source)) = .ok templates) :
    (FileParts.ofSource source).roots.length = templates.length := by
  have hspans := congrArg List.length (spans_of_templatesOf h)
  have hroots := congrArg List.length (roots_ofTrees (utf8 source)
    (parse (utf8 source)).children)
  simp only [List.length_map] at hspans hroots
  rw [hspans]
  exact hroots

/-- What compiling gives, in terms of the parts of the file. -/
theorem compiled_of_compile {options : Options} {source : String} {compiled : Compiled}
    (h : compile options source = .ok compiled) :
    ∃ templates, templatesOf (utf8 source) (parse (utf8 source)) = .ok templates ∧
      compiled.templates = templates.length ∧
      (templates = [] → compiled.code = source ∧ compiled.blocks = 0) ∧
      (templates ≠ [] → ∀ codes counter,
        (emitAll options (FileParts.ofSource source).margins
          (templates.map (Template.resolve options.defaultAllocator))).run {} = (codes, counter) →
        compiled.code = addedImport options (utf8 source) (parse (utf8 source)) ++
            (FileParts.ofSource source).replaced codes ∧
          compiled.blocks = counter.blocks) := by
  obtain ⟨templates, htemplates, hnone, hsome⟩ := generated_of_compile h
  have hspans : (templates.map (Template.resolve options.defaultAllocator)).map (·.span) =
      (parse (utf8 source)).templateRoots.map (·.span) := by
    rw [← spans_of_templatesOf htemplates]
    simp [Template.resolve, Function.comp_def]
  have hreplaced := replaceRoots_eq options _ (isPart_of_templatesOf htemplates)
    (parse_tiles (utf8 source)) (rfl : utf8 "" = _) (rfl : utf8 source = _) hspans
  dsimp only at hreplaced
  rw [String.empty_append] at hreplaced
  refine ⟨templates, htemplates, ?_, fun hnil => ?_, fun hne codes counter hrun => ?_⟩
  · by_cases hnil : templates = []
    · rw [hnone hnil, hnil]
      rfl
    · rw [hsome hnil _ _ rfl]
  · rw [hnone hnil]
    exact ⟨rfl, rfl⟩
  · have hcode : (replaceRoots options (utf8 source) (LineIndex.ofBytes (utf8 source))
        (templates.map (Template.resolve options.defaultAllocator))
        (parse (utf8 source)).children).run {} =
          ((FileParts.ofSource source).replaced codes, counter) := by
      rw [hreplaced, StateT.run_bind]
      change ((emitAll options (FileParts.ofSource source).margins
        (templates.map (Template.resolve options.defaultAllocator))).run {} >>= fun made =>
          pure ((FileParts.ofSource source).replaced made.1, made.2) : Id (String × Counter)) = _
      rw [hrun]
      rfl
    rw [hsome hne _ _ hcode]
    exact ⟨rfl, rfl⟩

theorem FileParts.length_margins (parts : FileParts) : parts.margins.length = parts.roots.length := by
  suffices h : ∀ before roots, (marginsFrom before roots).length = roots.length from h _ _
  intro before roots
  induction roots generalizing before with
  | nil => rfl
  | cons root roots ih =>
    obtain ⟨text, host⟩ := root
    rw [marginsFrom, List.length_cons, List.length_cons, ih]

/-- Codes laid out to margins. -/
def layoutAll (options : Options) (margins : List String) (codes : List Expr) : List String :=
  List.zipWith (fun margin code => layout margin options.indentWidth (code.pieces options.runtime))
    margins codes

/-- Emitting is making code and laying it out. -/
theorem emitAll_eq (options : Options) {margins : List String} {templates : List Template}
    (h : margins.length = templates.length) :
    emitAll options margins templates = do
      return layoutAll options margins (← templates.mapM ofTemplate) := by
  unfold emitAll
  induction templates generalizing margins with
  | nil =>
    obtain rfl := List.length_eq_zero_iff.mp h
    rfl
  | cons template templates ih =>
    cases margins with
    | nil => cases h
    | cons margin margins =>
      rw [List.zip_cons_cons, List.mapM_cons, List.mapM_cons, ih (by simpa using h)]
      simp [emitTemplate, layoutAll]

/-- The code of a file that compiles, before it is laid out. -/
theorem code_of_compile {options : Options} {source : String} {compiled : Compiled}
    (h : compile options source = .ok compiled) :
    ∃ templates codes counter,
      templatesOf (utf8 source) (parse (utf8 source)) = .ok templates ∧
      ((templates.map (Template.resolve options.defaultAllocator)).mapM ofTemplate).run {} =
        (codes, counter) ∧
      compiled.templates = templates.length ∧ compiled.blocks = counter.blocks ∧
      (templates = [] → compiled.code = source) ∧
      (templates ≠ [] → compiled.code = addedImport options (utf8 source) (parse (utf8 source)) ++
        (FileParts.ofSource source).replaced
          (layoutAll options (FileParts.ofSource source).margins codes)) := by
  obtain ⟨templates, htemplates, hcount, hnone, hsome⟩ := compiled_of_compile h
  have hlength : (FileParts.ofSource source).margins.length =
      (templates.map (Template.resolve options.defaultAllocator)).length := by
    rw [FileParts.length_margins, length_roots_of_templatesOf htemplates, List.length_map]
  rcases hrun : ((templates.map (Template.resolve options.defaultAllocator)).mapM
    ofTemplate).run {} with ⟨codes, counter⟩
  have hemit : (emitAll options (FileParts.ofSource source).margins
      (templates.map (Template.resolve options.defaultAllocator))).run {} =
        (layoutAll options (FileParts.ofSource source).margins codes, counter) := by
    rw [emitAll_eq options hlength, StateT.run_bind, hrun]
    rfl
  refine ⟨templates, codes, counter, htemplates, hrun, hcount, ?_, fun hnil => (hnone hnil).1,
    fun hne => (hsome hne _ _ hemit).1⟩
  by_cases hnil : templates = []
  · rw [(hnone hnil).2]
    subst hnil
    cases hrun
    rfl
  · exact (hsome hnil _ _ hemit).2

theorem addedImport_cases (options : Options) (source : Bytes) (file : Tree) :
    addedImport options source file = "" ∨ addedImport options source file = importLine options := by
  unfold addedImport
  split
  · exact Or.inr rfl
  · exact Or.inl rfl

/-- Compiling keeps host text: the parts of the tree cover the source, the roots among them
stand in parentheses, and the code is the source with each root replaced by what is emitted for
it, after an import at most. -/
theorem host_text_kept {options : Options} {source : String} {compiled : Compiled}
    (h : compile options source = .ok compiled) :
    Tiles (utf8 source).length 0 (parse (utf8 source)).children ∧
    (FileParts.ofSource source).text = source ∧
    (FileParts.ofSource source).roots.map (·.1) =
      (parse (utf8 source)).templateRoots.map (·.text (utf8 source)) ∧
    (∀ root ∈ (FileParts.ofSource source).roots, ∃ inner, root.1 = "(" ++ inner ++ ")") ∧
    compiled.templates = (FileParts.ofSource source).roots.length ∧
    ((FileParts.ofSource source).roots = [] → compiled.code = source) ∧
    ∃ templates, templatesOf (utf8 source) (parse (utf8 source)) = .ok templates ∧
      templates.length = (FileParts.ofSource source).roots.length ∧
      ((FileParts.ofSource source).roots ≠ [] →
        ∃ front, (front = "" ∨ front = importLine options) ∧
          compiled.code = front ++ (FileParts.ofSource source).replaced
            ((emitAll options (FileParts.ofSource source).margins
              (templates.map (Template.resolve options.defaultAllocator))).run {}).1) := by
  obtain ⟨templates, htemplates, hcount, hnone, hsome⟩ := compiled_of_compile h
  have hparts := isPart_of_templatesOf htemplates
  have htiles := parse_tiles (utf8 source)
  have hroots : (FileParts.ofSource source).roots.map (·.1) =
      (parse (utf8 source)).templateRoots.map (·.text (utf8 source)) := roots_ofTrees _ _
  have hlength := length_roots_of_templatesOf htemplates
  have hempty : (FileParts.ofSource source).roots = [] ↔ templates = [] := by
    rw [← List.length_eq_zero_iff, ← List.length_eq_zero_iff, hlength]
  refine ⟨htiles, ofTrees_text _ hparts htiles rfl, hroots, ?_, by rw [hcount, hlength],
    fun hnil => (hnone (hempty.mp hnil)).1, templates, htemplates, hlength.symm, fun hne => ?_⟩
  · intro root hroot
    have hmem : root.1 ∈ (FileParts.ofSource source).roots.map (·.1) := List.mem_map_of_mem hroot
    rw [hroots] at hmem
    obtain ⟨t, ht, htext⟩ := List.mem_map.mp hmem
    obtain ⟨hchild, hkind⟩ := List.mem_filter.mp ht
    rw [← htext]
    exact root_inParens _ hparts htiles rfl t hchild (by simpa using hkind)
  · exact ⟨_, addedImport_cases .., (hsome (fun hnil => hne (hempty.mpr hnil)) _ _ rfl).1⟩

/-- Two roots side by side on an indented line, the first with a character of two bytes. -/
def adjacentSource : String := "    x = (<p>\u00e9</p>)(<br/>);\n"

theorem ofSource_adjacent : FileParts.ofSource adjacentSource =
    ⟨"    x = ", [("(<p>\u00e9</p>)", ""), ("(<br/>)", ";\n")]⟩ := by
  decide +kernel

theorem compile_adjacent : ∃ compiled, compile {} adjacentSource = .ok compiled :=
  Checked.exists_of_toBool (by decide +kernel)

theorem host_text_kept_adjacent : ∃ compiled front templates,
    compile {} adjacentSource = .ok compiled ∧ compiled.templates = 2 ∧
      (front = "" ∨ front = importLine {}) ∧
      compiled.code = front ++ (FileParts.ofSource adjacentSource).replaced
        ((emitAll {} ["    ", "    "] templates).run {}).1 := by
  obtain ⟨compiled, hcompiled⟩ := compile_adjacent
  obtain ⟨_, _, _, _, hcount, _, templates, _, _, hcode⟩ := host_text_kept hcompiled
  have hmargins : (FileParts.ofSource adjacentSource).margins = ["    ", "    "] := by
    rw [ofSource_adjacent]
    decide +kernel
  obtain ⟨front, hfront, hcode⟩ := hcode (by rw [ofSource_adjacent]; simp)
  rw [hmargins] at hcode
  refine ⟨compiled, front, _, hcompiled, ?_, hfront, hcode⟩
  rw [hcount, ofSource_adjacent]
  rfl

end ZigMarkup
