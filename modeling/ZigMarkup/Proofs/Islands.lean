import ZigMarkup.Proofs.Brackets
import ZigMarkup.Proofs.Headers

/-!
Pages with islands. A page is text with islands in it, which are pages again; written with the
markers around each island, it is read back by three searches for plain text: for the beginning
of an opening, for the end of the comment and for the closing marker. None of them finds its
needle too early, neither in props nor where two pieces meet nor at the marker of another island.
Main statement: the islands of a written page are its own, each with the range of its content.
-/
namespace ZigMarkup

/-! ## Needles that do not begin in a text -/

/-- The needle does not begin in the text where `rest` follows it. -/
def Avoids (needle text rest : Bytes) : Prop :=
  ∀ a b, text = a ++ b → b ≠ [] → ¬ needle <+: b ++ rest

namespace Avoids

variable {needle text rest : Bytes}

theorem head {x : UInt8} (h : Avoids needle (x :: text) rest) :
    ¬ needle <+: x :: (text ++ rest) := h [] (x :: text) rfl (by simp)

theorem tail {x : UInt8} (h : Avoids needle (x :: text) rest) : Avoids needle text rest :=
  fun a b htext => h (x :: a) b (by rw [htext, List.cons_append])

theorem cons {x : UInt8} (hx : ¬ needle <+: x :: (text ++ rest)) (h : Avoids needle text rest) :
    Avoids needle (x :: text) rest := by
  intro a b htext hb
  cases a with
  | nil =>
    rw [List.nil_append] at htext
    rw [← htext]
    exact hx
  | cons y a => exact h a b (List.cons.inj htext).2 hb

theorem append {more : Bytes} (h : Avoids needle text (more ++ rest))
    (hmore : Avoids needle more rest) : Avoids needle (text ++ more) rest := by
  induction text with
  | nil => exact hmore
  | cons x text ih =>
    refine cons ?_ (ih h.tail)
    have hhead := h.head
    rwa [← List.append_assoc] at hhead

theorem mono {longer : Bytes} (h : Avoids needle text rest) (hbegins : needle <+: longer) :
    Avoids longer text rest :=
  fun a b htext hb hlonger => h a b htext hb (hbegins.trans hlonger)

/-- A needle does not begin in a text without its first byte. -/
theorem of_not_mem {x : UInt8} (h : x ∉ text) : Avoids (x :: needle) text rest := by
  intro a b htext hb hbegins
  cases b with
  | nil => exact hb rfl
  | cons y b =>
    refine h ?_
    rw [htext, (List.cons_prefix_cons.mp hbegins).1]
    simp

/-- A needle that is not in the text could only begin in it and go on behind it. -/
theorem of_not_infix (h : ¬ needle <:+: text)
    (hrest : ∀ b c, needle = b ++ c → b ≠ [] → c ≠ [] → ¬ c <+: rest) :
    Avoids needle text rest := by
  rintro a b rfl hb hbegins
  rcases List.prefix_or_prefix_of_prefix hbegins (List.prefix_append b rest) with hin | ⟨c, rfl⟩
  · exact h (hin.isInfix.trans (List.suffix_append a b).isInfix)
  · cases c with
    | nil => exact h (by simpa using (List.suffix_append a b).isInfix)
    | cons x c => exact hrest b (x :: c) rfl hb (by simp) ((List.prefix_append_right_inj b).mp hbegins)

theorem indexOf? (h : Avoids needle text rest) (hne : needle ≠ []) (hrest : needle <+: rest) :
    indexOf? needle (text ++ rest) = some text.length := by
  induction text with
  | nil =>
    cases rest with
    | nil => exact absurd (List.prefix_nil.mp hrest) hne
    | cons x rest =>
      rw [List.nil_append, ZigMarkup.indexOf?, if_pos (List.isPrefixOf_iff_prefix.mpr hrest)]
      rfl
  | cons x text ih =>
    have hx : ¬ needle.isPrefixOf (x :: (text ++ rest)) := by
      rw [List.isPrefixOf_iff_prefix]
      exact h.head
    rw [List.cons_append, ZigMarkup.indexOf?, if_neg hx, ih h.tail]
    rfl

end Avoids

/-! ## Ends of comments -/

theorem indexOf?_commentEnd {inside : Bytes} (h : ¬ utf8 Marker.commentEnd <:+: inside)
    (rest : Bytes) :
    indexOf? (utf8 Marker.commentEnd) (inside ++ (utf8 Marker.commentEnd ++ rest)) =
      some inside.length := by
  refine (Avoids.of_not_infix h ?_).indexOf? (by decide) (List.prefix_append _ _)
  -- Neither `->` nor `>` is where the comment ends.
  rw [show utf8 Marker.commentEnd = [ascii '-', ascii '-', ascii '>'] by decide]
  intro b c hsplit hb hc
  rcases b with _ | ⟨x, _ | ⟨y, _ | ⟨z, b⟩⟩⟩
  · exact absurd rfl hb
  · obtain ⟨_, rfl⟩ := List.cons.inj hsplit
    simp [show ascii '>' ≠ ascii '-' by decide]
  · obtain ⟨_, rfl⟩ := List.cons.inj (List.cons.inj hsplit).2
    simp [show ascii '>' ≠ ascii '-' by decide]
  · simp only [List.cons_append, List.cons.injEq, List.nil_eq_append_iff] at hsplit
    exact absurd hsplit.2.2.2.2 hc

/-- What stands before the end of a comment is told by the text that begins with the comment. -/
theorem eq_of_commentEnd {s t rest : Bytes} (hs : ¬ utf8 Marker.commentEnd <:+: s)
    (ht : ¬ utf8 Marker.commentEnd <:+: t)
    (h : s ++ utf8 Marker.commentEnd <+: t ++ (utf8 Marker.commentEnd ++ rest)) : s = t := by
  obtain ⟨tail, h⟩ := h
  rw [List.append_assoc] at h
  have hlength : s.length = t.length := by
    have hfound := indexOf?_commentEnd hs tail
    rw [h, indexOf?_commentEnd ht rest] at hfound
    exact (Option.some.inj hfound).symm
  exact (List.append_inj h hlength).1

/-! ## Markers as needles -/

/-- Ahead is a marker or nothing. -/
def MarkerNext (rest : Bytes) : Prop := ∀ b ∈ rest.head?, b = ascii '<'

/-- No marker begins in text without the beginning of a comment. -/
theorem avoids_text {s : String} (h : ¬ "<!--".toList <:+: s.toList) {rest : Bytes}
    (hrest : MarkerNext rest) {needle : Bytes} (hneedle : utf8 "<!--" <+: needle) :
    Avoids needle (utf8 s) rest := by
  refine Avoids.mono (Avoids.of_not_infix ?_ ?_) hneedle
  · have hascii : "<!--".toList.all (fun c => decide (IsAsciiChar c)) = true := by decide
    exact fun hfound => h (infix_of_utf8
      (fun c hc => of_decide_eq_true (List.all_eq_true.mp hascii c hc)) hfound)
  · rintro b c hsplit hb hc ⟨tail, rfl⟩
    rcases b with _ | ⟨x, b⟩
    · exact hb rfl
    rcases c with _ | ⟨y, c⟩
    · exact hc rfl
    -- What is left of the comment's beginning does not begin with `<`.
    obtain rfl : y = ascii '<' := hrest y (by simp)
    have hmem : ascii '<' ∈ [ascii '!', ascii '-', ascii '-'] := by
      rw [(List.cons.inj (Surface.utf8_openComment.symm.trans hsplit)).2]
      simp
    exact absurd hmem (by decide)

namespace Marker

theorem utf8_closeOf (id : String) :
    utf8 (closeOf id) = utf8 closeBegin ++ utf8 id ++ utf8 commentEnd := by
  rw [closeOf, utf8_append, utf8_append]

/-- The inside of a closing marker does not end its comment. -/
theorem not_infix_closing {id : String} (hid : IsWord id) :
    ¬ utf8 commentEnd <:+: utf8 closeBegin ++ utf8 id := by
  intro hfound
  have hmem : ascii '>' ∈ utf8 closeBegin ++ utf8 id :=
    hfound.subset (by decide : ascii '>' ∈ utf8 commentEnd)
  rcases List.mem_append.mp hmem with h | h
  · exact absurd h (by decide)
  · exact hid.not_mem (by decide) (by decide) h

/-- The fifth byte tells an opening from a closing marker. -/
theorem not_prefix_of_kinds (s t : Bytes) :
    ¬ utf8 closeBegin ++ s <+: utf8 openBegin ++ t ∧ ¬ utf8 openBegin <+: utf8 closeBegin ++ t := by
  have hopen : utf8 openBegin = utf8 "<!--" ++ [ascii '$'] := by decide
  have hclose : utf8 closeBegin = utf8 "<!--" ++ [ascii '/', ascii '$'] := by decide
  have hne : ascii '/' ≠ ascii '$' := by decide
  rw [hopen, hclose, List.append_assoc, List.append_assoc, List.append_assoc,
    List.prefix_append_right_inj, List.prefix_append_right_inj]
  simp [hne, hne.symm]

theorem avoids_openText {m : Marker} (hm : IsWord m.id ∧ IsWord m.name) {id : String}
    (hid : IsWord id) (rest : Bytes) : Avoids (utf8 (closeOf id)) (utf8 m.openText) rest := by
  rw [utf8_openText, utf8_closeOf]
  refine Avoids.append ?_ (Avoids.append ?_ ?_)
  · have hbegin : utf8 openBegin = ascii '<' :: utf8 "!--$" := by decide
    have hkinds := (not_prefix_of_kinds (utf8 id ++ utf8 commentEnd)
      (m.header ++ utf8 commentEnd ++ rest)).1
    rw [hbegin, List.cons_append, ← List.append_assoc] at hkinds
    rw [hbegin]
    exact Avoids.cons hkinds (Avoids.mono (Avoids.of_not_mem (by decide)) (List.prefix_append _ _))
  · rintro a b hheader hb hbegins
    have hb' : ¬ utf8 commentEnd <:+: b := fun h =>
      not_infix_header hm.1 hm.2 (hheader ▸ h.trans (List.suffix_append a b).isInfix)
    have heq := eq_of_commentEnd (not_infix_closing hid) hb' hbegins
    exact not_suffix_header m hid ⟨a, by rw [heq, hheader]⟩
  · exact Avoids.of_not_mem (by decide)

theorem markerNext_openText (m : Marker) (rest : Bytes) :
    MarkerNext (utf8 m.openText ++ rest) := by
  rw [utf8_openText, show utf8 openBegin = ascii '<' :: utf8 "!--$" by decide]
  simp [MarkerNext]

theorem markerNext_closeOf (id : String) (rest : Bytes) :
    MarkerNext (utf8 (closeOf id) ++ rest) := by
  rw [utf8_closeOf, show utf8 closeBegin = ascii '<' :: utf8 "!--/$" by decide]
  simp [MarkerNext]

/-- A marker that begins in a closing marker begins where that one does. -/
theorem avoids_closeOf {id : String} (hid : IsWord id) {needle rest : Bytes}
    (hneedle : [ascii '<'] <+: needle) (h : ¬ needle <+: utf8 (closeOf id) ++ rest) :
    Avoids needle (utf8 (closeOf id)) rest := by
  have hclose : utf8 (closeOf id) =
      ascii '<' :: (utf8 "!--/$" ++ (utf8 id ++ utf8 commentEnd)) := by
    rw [utf8_closeOf, show utf8 closeBegin = ascii '<' :: utf8 "!--/$" by decide]
    simp
  rw [hclose] at h ⊢
  refine Avoids.cons h (Avoids.mono (Avoids.of_not_mem ?_) hneedle)
  simp only [List.mem_append, not_or]
  exact ⟨by decide, hid.not_mem (by decide) (by decide), by decide⟩

theorem avoids_other {id other : String} (hid : IsWord id) (hother : IsWord other)
    (hne : id ≠ other) (rest : Bytes) : Avoids (utf8 (closeOf id)) (utf8 (closeOf other)) rest := by
  refine avoids_closeOf hother ?_ fun hbegins => hne ?_
  · rw [utf8_closeOf, List.append_assoc]
    exact (by decide : [ascii '<'] <+: utf8 closeBegin).trans (List.prefix_append _ _)
  · rw [utf8_closeOf, utf8_closeOf, List.append_assoc (utf8 closeBegin ++ utf8 other)] at hbegins
    have heq := eq_of_commentEnd (not_infix_closing hid) (not_infix_closing hother) hbegins
    exact utf8_inj (List.append_cancel_left heq)

theorem openBegin_avoids {id : String} (hid : IsWord id) (rest : Bytes) :
    Avoids (utf8 openBegin) (utf8 (closeOf id)) rest := by
  refine avoids_closeOf hid (by decide) ?_
  rw [utf8_closeOf, List.append_assoc, List.append_assoc]
  exact (not_prefix_of_kinds [] _).2

end Marker

/-! ## Pages -/

/-- Text with islands in it. The text between two markers is one piece. -/
inductive Page where
  | text (s : String)
  | island (before : String) (marker : Marker) (inside after : Page)

namespace Page

/-- The page with the markers around each island. -/
def render : Page → String
  | text s => s
  | island before marker inside after => before ++ marker.wrap inside.render ++ after.render

def texts : Page → List String
  | text s => [s]
  | island before _ inside after => before :: (inside.texts ++ after.texts)

/-- In the order of the opening markers. -/
def markers : Page → List Marker
  | text _ => []
  | island _ marker inside after => marker :: (inside.markers ++ after.markers)

/-- The islands with the ranges of their contents, where the page begins at an offset. -/
def islandsAt (offset : Nat) : Page → List Island
  | text _ => []
  | island before marker inside after =>
    let start := offset + (utf8 before).length + (utf8 marker.openText).length
    let stop := start + (utf8 inside.render).length
    ⟨marker, ⟨start, stop⟩⟩ ::
      (inside.islandsAt start ++ after.islandsAt (stop + (utf8 marker.closeText).length))

/-- Each marker with the markup between it and its closing marker. -/
def contents : Page → List (Marker × Bytes)
  | text _ => []
  | island _ marker inside after =>
    (marker, utf8 inside.render) :: (inside.contents ++ after.contents)

/-- What a page may hold. Whatever its props are, they can be read back from their own text. -/
structure WellFormed (page : Page) : Prop where
  texts : ∀ s ∈ page.texts, ¬ "<!--".toList <:+: s.toList
  ids : (page.markers.map (·.id)).Nodup
  words : ∀ m ∈ page.markers, IsWord m.id ∧ IsWord m.name
  props : ∀ m ∈ page.markers, JsonValue.ofText? m.props.render = some m.props

namespace WellFormed

variable {before : String} {marker : Marker} {inner rest : Page}

theorem mono {page part : Page} (h : page.WellFormed) (htexts : part.texts ⊆ page.texts)
    (hmarkers : part.markers.Sublist page.markers) : part.WellFormed where
  texts s hs := h.texts s (htexts hs)
  ids := h.ids.sublist (hmarkers.map _)
  words m hm := h.words m (hmarkers.subset hm)
  props m hm := h.props m (hmarkers.subset hm)

theorem inside (h : (island before marker inner rest).WellFormed) : inner.WellFormed :=
  h.mono (fun s hs => by simp [Page.texts, hs])
    (List.Sublist.cons _ (List.sublist_append_left _ _))

theorem after (h : (island before marker inner rest).WellFormed) : rest.WellFormed :=
  h.mono (fun s hs => by simp [Page.texts, hs])
    (List.Sublist.cons _ (List.sublist_append_right _ _))

theorem id_ne (h : (island before marker inner rest).WellFormed) {m : Marker}
    (hm : m ∈ inner.markers) : marker.id ≠ m.id := by
  have hids := h.ids
  simp only [markers, List.map_cons, List.map_append, List.nodup_cons, List.mem_append,
    not_or] at hids
  exact fun heq => hids.1.1 (heq ▸ List.mem_map_of_mem hm)

end WellFormed

theorem utf8_island (before : String) (marker : Marker) (inside after : Page) :
    utf8 (island before marker inside after).render =
      utf8 before ++ (utf8 marker.openText ++ (utf8 inside.render ++
        (utf8 (Marker.closeOf marker.id) ++ utf8 after.render))) := by
  simp [render, Marker.wrap, Marker.closeText, utf8_append]

/-- A closing marker is not found in a page that does not hold its island. -/
theorem WellFormed.avoids {page : Page} (h : page.WellFormed) {id : String} (hid : IsWord id)
    (hne : ∀ m ∈ page.markers, id ≠ m.id) {rest : Bytes} (hrest : MarkerNext rest) :
    Avoids (utf8 (Marker.closeOf id)) (utf8 page.render) rest := by
  have hcomment : utf8 "<!--" <+: utf8 (Marker.closeOf id) := by
    rw [Marker.utf8_closeOf, List.append_assoc]
    exact (by decide : utf8 "<!--" <+: utf8 Marker.closeBegin).trans (List.prefix_append _ _)
  induction page generalizing rest with
  | text s => exact avoids_text (h.texts s (by simp [Page.texts])) hrest hcomment
  | island before marker inside after ihInside ihAfter =>
    have hwords := h.words marker (by simp [Page.markers])
    rw [utf8_island]
    refine .append ?_ (.append ?_ (.append ?_ (.append ?_ ?_)))
    · simp only [List.append_assoc]
      exact avoids_text (h.texts before (by simp [Page.texts])) (Marker.markerNext_openText _ _)
        hcomment
    · exact Marker.avoids_openText hwords hid _
    · simp only [List.append_assoc]
      exact ihInside h.inside (fun m hm => hne m (by simp [Page.markers, hm]))
        (Marker.markerNext_closeOf _ _)
    · exact Marker.avoids_other hid hwords.1 (hne marker (by simp [Page.markers])) _
    · exact ihAfter h.after (fun m hm => hne m (by simp [Page.markers, hm])) hrest

end Page

/-! ## The search for islands -/

section Search

variable {finish : List Island → Nat → List Island} {found : List Island} {offset : Nat}

theorem walkFrom_of_avoids {text rest : Bytes} (h : Avoids (utf8 Marker.openBegin) text rest) :
    walkFrom Island.visit finish 0 found offset (text ++ rest) =
      walkFrom Island.visit finish 0 found (offset + text.length) rest := by
  induction text generalizing offset with
  | nil => rfl
  | cons b text ih =>
    have hvisit : Island.visit found offset b (text ++ rest) = .go 1 found := by
      refine if_neg ?_
      rw [List.isPrefixOf_iff_prefix]
      exact h.head
    rw [List.cons_append, walkFrom, hvisit]
    dsimp only
    rw [ih h.tail, List.length_cons, Nat.add_assoc, Nat.add_comm 1]

/-- The search takes in an island at its opening marker, which it passes over as a whole. -/
theorem visit_openText {m : Marker} (hwords : IsWord m.id ∧ IsWord m.name)
    (hread : JsonValue.ofText? m.props.render = some m.props) {inside rest : Bytes}
    (hinside : Avoids (utf8 (Marker.closeOf m.id)) inside (utf8 (Marker.closeOf m.id) ++ rest))
    {b : UInt8} {tail : Bytes} (htext : utf8 m.openText = b :: tail) :
    Island.visit found offset b (tail ++ (inside ++ (utf8 (Marker.closeOf m.id) ++ rest))) =
      .go (b :: tail).length (⟨m, ⟨offset + (b :: tail).length,
        offset + (b :: tail).length + inside.length⟩⟩ :: found) := by
  obtain ⟨ahead, hahead⟩ : ∃ ahead, ahead = inside ++ (utf8 (Marker.closeOf m.id) ++ rest) :=
    ⟨_, rfl⟩
  have hall : b :: (tail ++ ahead) =
      utf8 Marker.openBegin ++ (m.header ++ (utf8 Marker.commentEnd ++ ahead)) := by
    rw [← List.cons_append, ← htext, Marker.utf8_openText]
    simp only [List.append_assoc]
  have hlength : (utf8 Marker.openBegin).length + m.header.length +
      (utf8 Marker.commentEnd).length = (b :: tail).length := by
    rw [← htext, Marker.utf8_openText, List.length_append, List.length_append, Nat.add_assoc]
  have hdrop : (b :: (tail ++ ahead)).drop (b :: tail).length = ahead := by
    rw [← List.cons_append, List.drop_left]
  have hindex : indexOf? (utf8 (Marker.closeOf m.id)) ahead = some inside.length := by
    rw [hahead]
    exact hinside.indexOf? (by simp [Marker.utf8_closeOf, utf8_ne_nil hwords.1.nonempty])
      (List.prefix_append _ _)
  have hbegin : (utf8 Marker.openBegin).isPrefixOf (b :: (tail ++ ahead)) := by
    rw [hall, List.isPrefixOf_iff_prefix]
    exact List.prefix_append _ _
  have hend := indexOf?_commentEnd (Marker.not_infix_header hwords.1 hwords.2) ahead
  have hafter : (b :: (tail ++ ahead)).drop (utf8 Marker.openBegin).length =
      m.header ++ (utf8 Marker.commentEnd ++ ahead) := by
    rw [hall, List.drop_left]
  rw [← hahead]
  simp only [Island.visit, hbegin, hafter, hend, hlength, hdrop, List.take_left, Island.ofHeader?,
    Marker.markerOf?_header hwords.1 hwords.2 hread]
  simp [Marker.closeText, hindex]

theorem walkFrom_page {page : Page} (h : page.WellFormed) {rest : Bytes} (hrest : MarkerNext rest) :
    walkFrom Island.visit finish 0 found offset (utf8 page.render ++ rest) =
      walkFrom Island.visit finish 0 ((page.islandsAt offset).reverse ++ found)
        (offset + (utf8 page.render).length) rest := by
  have hcomment : utf8 "<!--" <+: utf8 Marker.openBegin := by decide
  induction page generalizing found offset rest with
  | text s =>
    exact walkFrom_of_avoids (avoids_text (h.texts s (by simp [Page.texts])) hrest hcomment)
  | island before marker inside after ihInside ihAfter =>
    have hwords := h.words marker (by simp [Page.markers])
    have hread := h.props marker (by simp [Page.markers])
    obtain ⟨b, tail, htext⟩ : ∃ b tail, utf8 marker.openText = b :: tail := by
      rw [Marker.utf8_openText]
      exact ⟨_, _, rfl⟩
    have hclosing := Marker.markerNext_closeOf marker.id (utf8 after.render ++ rest)
    have hinside := h.inside.avoids hwords.1 (fun _ => h.id_ne) hclosing
    rw [Page.utf8_island]
    simp only [List.append_assoc]
    rw [walkFrom_of_avoids (avoids_text (h.texts before (by simp [Page.texts]))
      (Marker.markerNext_openText _ _) hcomment), htext, List.cons_append, walkFrom,
      visit_openText hwords hread hinside htext]
    dsimp only
    rw [List.length_cons, Nat.add_sub_cancel, walkFrom_skip, ihInside h.inside hclosing,
      walkFrom_of_avoids (Marker.openBegin_avoids hwords.1 _), ihAfter h.after hrest]
    simp [Page.islandsAt, htext, Marker.closeText, Nat.add_assoc, Nat.add_comm 1]

end Search

/-! ## What the islands hold -/

theorem slice_middle (left middle right : Bytes) :
    Span.slice ⟨left.length, left.length + middle.length⟩ (left ++ (middle ++ right)) = middle := by
  simp [Span.slice, Span.length]

namespace Page

/-- The range of an island cuts its content out of whatever the page stands in. -/
theorem slices_islandsAt (page : Page) (left right : Bytes) :
    (page.islandsAt left.length).map
        (fun island => (island.marker, island.content.slice (left ++ utf8 page.render ++ right))) =
      page.contents := by
  induction page generalizing left right with
  | text s => rfl
  | island before marker inside after ihInside ihAfter =>
    have hinside := ihInside (left ++ (utf8 before ++ utf8 marker.openText))
      (utf8 marker.closeText ++ (utf8 after.render ++ right))
    have hafter := ihAfter (left ++ (utf8 before ++ (utf8 marker.openText ++
      (utf8 inside.render ++ utf8 marker.closeText)))) right
    have hcontent := slice_middle (left ++ (utf8 before ++ utf8 marker.openText))
      (utf8 inside.render) (utf8 marker.closeText ++ (utf8 after.render ++ right))
    simp only [List.length_append, List.append_assoc, Nat.add_assoc] at hinside hafter hcontent
    simp only [islandsAt, contents, utf8_island, List.map_cons, List.map_append, Nat.add_assoc,
      List.append_assoc]
    rw [← Marker.closeText, hinside, hafter, hcontent]

end Page

end ZigMarkup
