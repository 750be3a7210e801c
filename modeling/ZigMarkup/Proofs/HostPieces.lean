import ZigMarkup.Proofs.Lossless
import ZigMarkup.Proofs.QuietNodes

/-!
The host code of accepted templates, piece by piece. A piece is copied into a line of generated
code, so no comment, string or character in it may run on into what is written behind it. Pieces
are cut out between two tokens of the source and then trimmed. What trimming takes away at the
end can be the newline that ended a comment or a line of a multiline string, and a piece that
lost it is the only one that runs on; captures apart, which are not read from token to token.
-/
namespace ZigMarkup

/-- What a piece of host code is for. -/
inductive HostRole
  | expression | value | builtin | spread | argument | head | capture | subject
  deriving DecidableEq, Repr

/-- A piece of host code in a template. -/
structure HostPiece where
  role : HostRole
  code : String
  deriving DecidableEq, Repr

def Attribute.hostPieces : Attribute → List HostPiece
  | .static _ _ (.expr code) => [⟨.value, code⟩]
  | .static _ _ (.literal _) | .static _ _ (.node _) | .static _ _ .flag => []
  | .builtin _ _ value => [⟨.builtin, value⟩]
  | .shorthand _ _ | .builtinShorthand _ _ => []
  | .spread _ code => [⟨.spread, code⟩]
  | .formatted _ _ _ args => args.map (⟨.argument, ·⟩)

def Branch.hostPieces (branch : Branch) : List HostPiece :=
  branch.head.toList.map (⟨.head, ·⟩) ++ branch.capture.toList.map (⟨.capture, ·⟩)

/-- The host code of a node itself, without that of its parts. -/
def Node.hostPieces : Node → List HostPiece
  | .element tag _ | .selfClosing tag => tag.attributes.flatMap Attribute.hostPieces
  | .fragment _ _ | .text _ _ _ _ => []
  | .expr _ code _ => [⟨.expression, code⟩]
  | .flow _ _ subject _ branches =>
    subject.toList.map (⟨.subject, ·⟩) ++ branches.flatMap Branch.hostPieces

/-! ## Ends of pieces -/

/-- Reading code from token to token, in front of a closing parenthesis, comes to its end. -/
def EndsAtToken (code : String) : Prop :=
  Reaches (utf8 code ++ [ascii ')']) (utf8 code).length

/-- What decides whether a piece ends at a token. Nothing is told about captures in which a
token may begin. -/
def HostPiece.Ends (piece : HostPiece) : Prop :=
  match piece.role with
  | .subject => EndsAtToken piece.code
  | .capture => EndsAtToken piece.code ∨ MarkedCapture (utf8 piece.code)
  | .head => (EndsAtToken piece.code ↔ ¬ EndsInLine (utf8 piece.code)) ∨
      MarkedCapture (utf8 piece.code)
  | .expression | .value | .builtin | .spread | .argument =>
    EndsAtToken piece.code ↔ ¬ EndsInLine (utf8 piece.code)

/-- Code that reading passes, or comes to the last line of. -/
def Passed (code : String) : Prop := Shut (utf8 code) ∨ EndsInLine (utf8 code)

theorem Passed.endsAtToken_iff {code : String} (h : Passed code) :
    EndsAtToken code ↔ ¬ EndsInLine (utf8 code) := by
  refine ⟨fun hend hline => hline.not_reaches hend, fun hline => ?_⟩
  rcases h with hshut | hends
  · exact hshut _ inert_paren
  · exact absurd hends hline

theorem shut_of_isString {bytes : Bytes} (h : IsString bytes) : Shut bytes := by
  obtain ⟨hhead, htoken⟩ := h
  obtain ⟨b, rest, rfl⟩ : ∃ b rest, bytes = b :: rest := by
    cases bytes with
    | nil => cases hhead
    | cons b rest => exact ⟨b, rest, rfl⟩
  obtain rfl : b = ascii '"' := Option.some.inj hhead
  simp only [quotedToken, List.length_cons, QuotedToken.mk.injEq,
    Nat.add_right_cancel_iff] at htoken
  obtain ⟨hlength, hclosed⟩ := htoken
  have hself : rest ++ [] = rest := List.append_nil rest
  have hbegins : BeginsWith (ascii '"') rest rest.length := by
    rw [← hself] at hclosed hlength
    have hbegins := beginsWith_closed (.inl rfl) hclosed (by rw [hlength]; simp)
    rwa [hlength, hself] at hbegins
  refine hbegins.shut ?_
  rw [List.drop_length]
  exact .nil

theorem IsCapture.shut {capture : Bytes} (h : IsCapture capture) :
    Shut capture ∨ MarkedCapture capture := by
  rcases h.cases [] [] with hplain | hmarked
  · exact .inl (Shut.nil.append hplain)
  · exact .inr (by simpa using hmarked)

/-! ## Pieces that are read -/

namespace OfTree

open Tree

variable {source : Bytes}

/-- A tree that is legible and cut out of the source at boundaries. -/
structure Grounded (source : Bytes) (t : Tree) : Prop where
  legible : Legible source t
  sited : Sited source t

theorem utf8_text {t : Tree} (h : Sited source t) : utf8 (t.text source) = t.span.slice source :=
  h.cuts.isText_slice.utf8_decode

theorem passed_hostExpr {t : Tree} (hkind : t.kind = .hostExpr) (h : Sited source t) :
    Passed (t.text source) := by
  have hheld := h.held
  rw [Held, hkind] at hheld
  rw [Passed, utf8_text h]
  exact hheld

theorem exists_of_childText? {kind : Kind} {ts : List Tree} {text : String}
    (h : childText? source kind ts = some text) :
    ∃ t ∈ ts, t.kind = kind ∧ t.text source = text := by
  obtain ⟨t, hfind, rfl⟩ := Option.map_eq_some_iff.mp h
  exact ⟨t, List.mem_of_find?_eq_some hfind, by simpa using List.find?_some hfind, rfl⟩

theorem passed_builtinValueOf {b : Builtin} {value : Tree} {text : String}
    (hs : value.Everywhere (Grounded source)) (h : builtinValueOf source b value = .ok text) :
    Passed text := by
  rcases (builtinValueOf_cases h).2 with ⟨hkind, rfl⟩ | ⟨_, expr, hexpr, hkind, rfl⟩
  · have hstring := hs.here.legible.2
    rw [Spelled, hkind, ← utf8_text hs.here.sited] at hstring
    exact .inl (shut_of_isString hstring)
  · exact passed_hostExpr hkind (hs.child hexpr).here.sited

theorem ends_attributeOf {t : Tree} {a : Attribute} (hs : t.Everywhere (Grounded source))
    (h : attributeOf source t = .ok a) : ∀ piece ∈ a.hostPieces, piece.Ends := by
  intro piece hpiece
  cases attributeRead (fun u hu => (hs u hu).legible.1) h with
  | expr _ hvalue _ hcode hhost =>
    obtain rfl := List.mem_singleton.mp hpiece
    exact (passed_hostExpr hhost ((hs.child hvalue).child hcode).here.sited).endsAtToken_iff
  | formatted _ hvalue _ =>
    obtain ⟨code, hcode, rfl⟩ := List.mem_map.mp hpiece
    obtain ⟨expr, hexpr, rfl⟩ := List.mem_map.mp hcode
    obtain ⟨hchild, hkind⟩ := List.mem_filter.mp hexpr
    exact (passed_hostExpr (by simpa using hkind)
      ((hs.child hvalue).child hchild).here.sited).endsAtToken_iff
  | spread _ hcode hhost =>
    obtain rfl := List.mem_singleton.mp hpiece
    exact (passed_hostExpr hhost (hs.child hcode).here.sited).endsAtToken_iff
  | builtin hvalue hmade =>
    obtain rfl := List.mem_singleton.mp hpiece
    exact (passed_builtinValueOf (hs.child hvalue) hmade).endsAtToken_iff
  | _ => cases hpiece

theorem ends_tagOf {span : Span} {ts : List Tree} {tag : Tag}
    (hs : ∀ t ∈ ts, t.Everywhere (Grounded source)) (h : tagOf source span ts = .ok tag) :
    ∀ piece ∈ tag.attributes.flatMap Attribute.hostPieces, piece.Ends := by
  intro piece hpiece
  obtain ⟨a, ha, hpiece⟩ := List.mem_flatMap.mp hpiece
  obtain ⟨t, ht, hmade⟩ := exists_of_mem_tagOf h ha
  exact ends_attributeOf (hs t ht) hmade piece hpiece

theorem ends_headOf? {ts : List Tree} {code : String} (hs : ∀ t ∈ ts, Sited source t)
    (h : headOf? source ts = some code) : HostPiece.Ends ⟨.head, code⟩ := by
  unfold headOf? at h
  cases hheader : childText? source .header ts with
  | some text =>
    rw [hheader] at h
    cases h
    obtain ⟨t, ht, hkind, rfl⟩ := exists_of_childText? hheader
    have hheld := (hs t ht).held
    rw [Held, hkind, ← utf8_text (hs t ht)] at hheld
    exact hheld.imp_left fun hshut => Passed.endsAtToken_iff (.inl hshut)
  | none =>
    rw [hheader] at h
    obtain ⟨t, ht, hkind, rfl⟩ := exists_of_childText? h
    have hheld := (hs t ht).held
    rw [Held, hkind, ← utf8_text (hs t ht)] at hheld
    exact .inl (Passed.endsAtToken_iff hheld)

theorem ends_capture {ts : List Tree} {code : String} (hs : ∀ t ∈ ts, Sited source t)
    (h : childText? source .capture ts = some code) : HostPiece.Ends ⟨.capture, code⟩ := by
  obtain ⟨t, ht, hkind, rfl⟩ := exists_of_childText? h
  have hheld := (hs t ht).held
  rw [Held, hkind, ← utf8_text (hs t ht)] at hheld
  exact hheld.shut.imp_left fun hshut => hshut _ inert_paren

theorem ends_branchesOf {ts : List Tree} {branches : List Branch}
    (hs : ∀ t ∈ ts, t.Everywhere (Grounded source)) (h : branchesOf source ts = .ok branches) :
    ∀ piece ∈ branches.flatMap Branch.hostPieces, piece.Ends := by
  intro piece hpiece
  obtain ⟨branch, hbranch, hpiece⟩ := List.mem_flatMap.mp hpiece
  obtain ⟨t, ht, hhead, hcapture, _⟩ := exists_of_mem_branchesOf h hbranch
  have hparts : ∀ c ∈ t.children, Sited source c := fun c hc => ((hs t ht).child hc).here.sited
  rcases List.mem_append.mp hpiece with hpiece | hpiece
  · obtain ⟨code, hcode, rfl⟩ := List.mem_map.mp hpiece
    exact ends_headOf? hparts (hhead ▸ Option.mem_toList.mp hcode)
  · obtain ⟨code, hcode, rfl⟩ := List.mem_map.mp hpiece
    exact ends_capture hparts (hcapture ▸ Option.mem_toList.mp hcode)

/-- The subject of a switch is its first child. -/
theorem endsAtToken_subject {t : Tree} (hkind : t.kind = .switchBlock)
    (hs : t.Everywhere (Grounded source)) {code : String}
    (h : childText? source .header t.children = some code) : EndsAtToken code := by
  have hshape := hs.here.legible.1
  have hheld := hs.here.sited.held
  rw [Shaped, hkind] at hshape
  rw [Held, hkind] at hheld
  obtain ⟨header, first, rest, hchildren, hheader, _⟩ := hshape
  have hsited : Sited source header := (hs.child (by simp [hchildren])).here.sited
  have htext : childText? source .header t.children = some (header.text source) := by
    simp [childText?, hchildren, hheader]
  rw [htext] at h
  cases h
  have hshut := hheld header (by simp [hchildren])
  rw [← utf8_text hsited] at hshut
  exact hshut _ inert_paren

theorem reads_ends (source : Bytes) : Reads source (Grounded source)
    fun node => ∀ piece ∈ node.hostPieces, piece.Ends where
  shaped h := h.legible.1
  element _ _ hs h := ends_tagOf (fun _ hc => hs.child hc) h
  selfClosing _ hs h := ends_tagOf (fun _ hc => hs.child hc) h
  fragment _ _ := by simp [Node.hostPieces]
  expr _ _ ht hkind hs := by
    intro piece hpiece
    obtain rfl := List.mem_singleton.mp hpiece
    exact (passed_hostExpr hkind (hs.child ht).here.sited).endsAtToken_iff
  text _ _ _ _ := by simp [Node.hostPieces]
  flow {t flow branches} hkind hs h := by
    intro piece hpiece
    rcases List.mem_append.mp hpiece with hpiece | hpiece
    · obtain ⟨code, hcode, rfl⟩ := List.mem_map.mp hpiece
      split at hcode
      · next hflow =>
        subst hflow
        exact endsAtToken_subject hkind hs (Option.mem_toList.mp hcode)
      · cases hcode
    · exact ends_branchesOf (fun _ hc => hs.child hc) h piece hpiece

end OfTree

/-- In every accepted template, a piece of host code ends at a token unless it ends in a comment
or in a line of a multiline string; the subject of a switch always does. Only captures, and
heads that hold one, may also fail to, by a quote or a slash between their bars. -/
theorem host_piece_ends {source : String} {templates : List Template}
    (h : templatesOf (utf8 source) (parse (utf8 source)) = .ok templates) {template : Template}
    (ht : template ∈ templates) {node : Node} (hnode : node.Within template.node)
    {piece : HostPiece} (hpiece : piece ∈ node.hostPieces) : piece.Ends := by
  have htext : IsText (utf8 source) := ⟨source, rfl⟩
  have hparse : (parse (utf8 source)).Everywhere (OfTree.Grounded (utf8 source)) := fun t ht =>
    ⟨⟨parse_shaped _ t ht, parse_spells _ t ht⟩, parse_sited htext t ht⟩
  exact everywhere_of_templatesOf (OfTree.reads_ends _) hparse h ht node hnode piece hpiece

/-- An expression whose comment is ended by the newline before the brace. -/
def commentSource : String := "(<p \x7b..y\x7d>\x7bx // c\n\x7d</p>)"

theorem host_piece_ends_comment : ∃ (templates : List Template) (template : Template) (node : Node),
    templatesOf (utf8 commentSource) (parse (utf8 commentSource)) = .ok templates ∧
    template ∈ templates ∧ node.Within template.node ∧
    (⟨.spread, "y"⟩ ∈ template.node.hostPieces ∧ EndsAtToken "y") ∧
    ⟨.expression, "x // c"⟩ ∈ node.hostPieces ∧ ¬ EndsAtToken "x // c" := by
  have hread : ((templatesOf (utf8 commentSource) (parse (utf8 commentSource))).toOption.map
      fun templates => templates.map fun template =>
        (template.node.hostPieces, template.node.parts.map Node.hostPieces)) =
      some [([⟨.spread, "y"⟩], [[⟨.expression, "x // c"⟩]])] := by
    decide +kernel
  have hbool : (templatesOf (utf8 commentSource) (parse (utf8 commentSource))).toBool = true := by
    decide +kernel
  obtain ⟨templates, hok⟩ := Checked.exists_of_toBool hbool
  rw [hok] at hread
  obtain ⟨template, ht, hpieces⟩ := List.mem_map.mp
    (Option.some.inj hread ▸ List.mem_singleton_self _)
  obtain ⟨hown, hparts⟩ := Prod.mk.inj hpieces
  obtain ⟨node, hpart, hnode⟩ := List.mem_map.mp (hparts ▸ List.mem_singleton_self _)
  have hspread : ⟨.spread, "y"⟩ ∈ template.node.hostPieces := by
    rw [hown]
    exact List.mem_singleton_self _
  have hexpr : ⟨.expression, "x // c"⟩ ∈ node.hostPieces := by
    rw [hnode]
    exact List.mem_singleton_self _
  have hwithin : node.Within template.node := .part hpart (.refl node)
  have hshort : ¬ EndsInLine (utf8 "y") := by
    rintro ⟨before, line, heq, hline, _⟩
    obtain ⟨b, tail, rfl, _, hhead⟩ := hline.exists_mark
    have hlength : 1 = before.length + (tail.length + 1) := by
      have hlength := congrArg List.length heq
      rwa [List.length_append] at hlength
    have hempty : tail = [] := List.length_eq_zero_iff.mp (by omega)
    rw [hempty] at hhead
    cases hhead
  have hcomment : EndsInLine (utf8 "x // c") := by
    have hbytes : utf8 "x // c" = utf8 "x " ++ utf8 "// c" := by decide
    have hplain : (utf8 "x ").all (!opensToken ·) = true := by decide
    refine ⟨utf8 "x ", utf8 "// c", hbytes, ⟨.inl (by decide), by decide⟩, fun after _ => ?_⟩
    rw [hbytes, List.append_assoc]
    exact .plain_append (by simpa using List.all_eq_true.mp hplain) (.here _)
  refine ⟨templates, template, node, hok, ht, hwithin, ⟨hspread, ?_⟩, hexpr, ?_⟩
  · exact (host_piece_ends hok ht (.refl _) hspread).mpr hshort
  · exact fun hend => (host_piece_ends hok ht hwithin hexpr).mp hend hcomment

end ZigMarkup
