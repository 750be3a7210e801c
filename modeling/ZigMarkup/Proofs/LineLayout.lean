import ZigMarkup.Code.Layout

/-!
The lines of a layout. Pieces make lines, each with a text and with the depth at which that text
begins, and neither base nor width has a part in this. Main statements: a layout is the lines
joined by line feeds, each but the first behind its indentation; and where indents and dedents
are paired, every dedent takes back an indent and none is left in the end.
-/
namespace ZigMarkup

structure Line where
  depth : Nat
  text : String
deriving DecidableEq, Repr

/-- A line behind its indentation. An empty line has none. -/
def Line.placed (base : String) (width : Nat) (l : Line) : String :=
  if l.text.isEmpty then "" else base ++ repeated (l.depth * width) " " ++ l.text

/-- Lines as one text, whose first line goes on with the line on which it begins. -/
def joinLines (base : String) (width : Nat) : List Line → String
  | [] => ""
  | first :: rest => "\n".intercalate (first.text :: rest.map (Line.placed base width))

/-- What pieces add to the line on which they begin, and the lines that follow it. -/
def linesFrom : Nat → List Piece → Line × List Line
  | depth, [] => (⟨depth, ""⟩, [])
  | depth, .text s :: pieces =>
    if s.isEmpty then linesFrom depth pieces
    else (⟨depth, s ++ (linesFrom depth pieces).1.text⟩, (linesFrom depth pieces).2)
  | depth, .newline :: pieces =>
    (⟨depth, ""⟩, (linesFrom depth pieces).1 :: (linesFrom depth pieces).2)
  | depth, .indent :: pieces => linesFrom (depth + 1) pieces
  | depth, .dedent :: pieces => linesFrom (depth - 1) pieces

def linesOf (pieces : List Piece) : List Line := (linesFrom 0 pieces).1 :: (linesFrom 0 pieces).2

/-! ## Writers -/

namespace Writer

/-- What is written ahead of the next text. -/
def lead (w : Writer) : String := if w.atLineStart then w.margin else ""

/-- The writer once it has written a text, at the beginning of a line or not. -/
def put (w : Writer) (text : String) (atLineStart : Bool) : Writer :=
  { w with out := w.out ++ text, atLineStart }

theorem put_put (w : Writer) (text more : String) (start start' : Bool) :
    (w.put text start).put more start' = w.put (text ++ more) start' := by
  simp only [put, String.append_assoc]

theorem writeAll_append (w : Writer) (ps qs : List Piece) :
    w.writeAll (ps ++ qs) = (w.writeAll ps).writeAll qs := List.foldl_append

theorem write_text (w : Writer) {s : String} (h : s ≠ "") :
    w.write (.text s) = w.put (w.lead ++ s) false := by
  have hs : s.isEmpty = false := by simpa using h
  rw [write, if_neg (by simp [hs]), lead]
  split
  · rw [put, String.append_assoc]
  · next hstart => rw [put, String.empty_append, ← Bool.eq_false_iff.mpr hstart]

theorem depth_write_text (w : Writer) (s : String) : (w.write (.text s)).depth = w.depth := by
  by_cases hs : s = ""
  · rw [hs]
    rfl
  · rw [write_text w hs]
    rfl

end Writer

/-! ## Layouts -/

theorem repeated_succ (count : Nat) (s : String) : repeated (count + 1) s = s ++ repeated count s := by
  rw [repeated, List.replicate_succ, String.join_cons, repeated]

theorem repeated_add (first second : Nat) (s : String) :
    repeated (first + second) s = repeated first s ++ repeated second s := by
  induction first with
  | zero =>
    rw [Nat.zero_add]
    exact String.empty_append.symm
  | succ first ih => rw [Nat.succ_add, repeated_succ, ih, repeated_succ, String.append_assoc]

theorem repeated_repeated (count width : Nat) (s : String) :
    repeated count (repeated width s) = repeated (count * width) s := by
  induction count with
  | zero =>
    rw [Nat.zero_mul]
    rfl
  | succ count ih => rw [repeated_succ, ih, ← repeated_add, Nat.succ_mul, Nat.add_comm]

/-- Lines below another one. -/
def linesBelow (base : String) (width : Nat) (lines : List Line) : String :=
  String.join (lines.map fun l => "\n" ++ l.placed base width)

theorem linesBelow_cons (base : String) (width : Nat) (l : Line) (lines : List Line) :
    linesBelow base width (l :: lines) = "\n" ++ l.placed base width ++ linesBelow base width lines := by
  rw [linesBelow, List.map_cons, String.join_cons, linesBelow]

theorem joinLines_cons (base : String) (width : Nat) (first : Line) (rest : List Line) :
    joinLines base width (first :: rest) = first.text ++ linesBelow base width rest := by
  rw [joinLines]
  generalize first.text = text
  induction rest generalizing text with
  | nil => exact String.append_empty.symm
  | cons l rest ih =>
    rw [List.map_cons, String.intercalate_cons_cons, ih, linesBelow_cons]
    simp only [String.append_assoc]

namespace Writer

/-- What a writer makes of the line on which it stands: at its beginning it still indents. -/
def place (w : Writer) (width : Nat) (l : Line) : String :=
  if w.atLineStart then l.placed w.base width else l.text

theorem place_empty (w : Writer) (width depth : Nat) : w.place width ⟨depth, ""⟩ = "" := by
  unfold place
  split <;> rfl

theorem place_text {w : Writer} {width : Nat} (hunit : w.unit = repeated width " ") {s : String}
    (h : s ≠ "") (more : String) : w.place width ⟨w.depth, s ++ more⟩ = w.lead ++ s ++ more := by
  have hfull : (s ++ more).isEmpty = false := by simp [h]
  unfold place lead
  split
  · rw [Line.placed, if_neg (by simp [hfull]), margin, hunit, repeated_repeated]
    simp only [String.append_assoc]
  · rw [String.empty_append]

theorem unit_write (w : Writer) (piece : Piece) : (w.write piece).unit = w.unit := by
  cases piece with
  | text s =>
    by_cases hs : s = ""
    · rw [hs]
      rfl
    · rw [write_text w hs]
      rfl
  | newline | indent | dedent => rfl

/-- A writer adds the lines of the pieces. The depth of a line is that of the writer at its first
text, since only then the line is indented. -/
theorem out_writeAll {width : Nat} (pieces : List Piece) :
    ∀ w : Writer, w.unit = repeated width " " →
      (w.writeAll pieces).out = w.out ++ w.place width (linesFrom w.depth pieces).1 ++
        linesBelow w.base width (linesFrom w.depth pieces).2 := by
  induction pieces with
  | nil =>
    intro w _
    rw [linesFrom, place_empty]
    exact (String.append_empty.trans String.append_empty).symm
  | cons piece pieces ih =>
    intro w hunit
    have hrest := ih (w.write piece) ((w.unit_write piece).trans hunit)
    change ((w.write piece).writeAll pieces).out = _
    rw [hrest]
    cases piece with
    | text s =>
      rw [linesFrom]
      by_cases hs : s = ""
      · rw [hs]
        rfl
      · rw [if_neg (by simpa using hs), place_text hunit hs, write_text w hs]
        change w.out ++ (w.lead ++ s) ++ (linesFrom w.depth pieces).1.text ++ _ = _
        simp only [String.append_assoc]
        rfl
    | newline =>
      rw [linesFrom, place_empty, linesBelow_cons]
      change w.out ++ "\n" ++ (linesFrom w.depth pieces).1.placed w.base width ++ _ = _
      simp only [String.append_empty, String.append_assoc]
      rfl
    | indent | dedent => rfl

end Writer

/-- A layout is made of lines that depend neither on its base nor on its width. -/
theorem layout_eq_joinLines (base : String) (width : Nat) (pieces : List Piece) :
    layout base width pieces = joinLines base width (linesOf pieces) := by
  rw [layout, linesOf, joinLines_cons, Writer.out_writeAll pieces _ rfl]
  change "" ++ (linesFrom 0 pieces).1.text ++ _ = _
  rw [String.empty_append]
  rfl

example : layout "\t" 2 (line "do" ++ indented (line "x;" ++ [.newline]) ++ [.text "done"]) =
    joinLines "\t" 2 [⟨0, "do"⟩, ⟨1, "x;"⟩, ⟨1, ""⟩, ⟨0, "done"⟩] := by decide

/-- What holds of the texts of pieces and is kept when they are put together holds of the texts
of their lines. -/
theorem forall_mem_linesOf {P : String → Prop} (hempty : P "")
    (happend : ∀ {s t}, P s → P t → P (s ++ t)) {pieces : List Piece}
    (h : ∀ s, .text s ∈ pieces → P s) : ∀ l ∈ linesOf pieces, P l.text := by
  suffices hfrom : ∀ depth, P (linesFrom depth pieces).1.text ∧
      ∀ l ∈ (linesFrom depth pieces).2, P l.text from List.forall_mem_cons.mpr (hfrom 0)
  induction pieces with
  | nil => exact fun _ => ⟨hempty, by simp [linesFrom]⟩
  | cons piece pieces ih =>
    have hrest := ih fun s hs => h s (List.mem_cons_of_mem _ hs)
    intro depth
    cases piece with
    | text s =>
      rw [linesFrom]
      split
      · exact hrest depth
      · exact ⟨happend (h s (List.mem_cons_self ..)) (hrest depth).1, (hrest depth).2⟩
    | newline => exact ⟨hempty, List.forall_mem_cons.mpr (hrest depth)⟩
    | indent => exact hrest (depth + 1)
    | dedent => exact hrest (depth - 1)

/-! ## Paired indents -/

/-- Pieces in which every indent has its own dedent, with texts that satisfy `P`. -/
inductive Paired (P : String → Prop) : List Piece → Prop
  | nil : Paired P []
  | text {s : String} : P s → Paired P [.text s]
  | newline : Paired P [.newline]
  | indented {pieces : List Piece} : Paired P pieces → Paired P (indented pieces)
  | append {pieces more : List Piece} : Paired P pieces → Paired P more → Paired P (pieces ++ more)

namespace Paired

variable {P : String → Prop} {pieces : List Piece}

theorem line {s : String} (h : P s) : Paired P (line s) := (text h).append newline

theorem flatten {items : List (List Piece)} (h : ∀ item ∈ items, Paired P item) :
    Paired P items.flatten := by
  induction items with
  | nil => exact nil
  | cons item items ih =>
    rw [List.flatten_cons]
    rw [List.forall_mem_cons] at h
    exact h.1.append (ih h.2)

theorem flatMap {α : Type} {f : α → List Piece} {as : List α} (h : ∀ a ∈ as, Paired P (f a)) :
    Paired P (as.flatMap f) := by
  rw [List.flatMap_def]
  refine flatten fun item hitem => ?_
  obtain ⟨a, ha, rfl⟩ := List.mem_map.mp hitem
  exact h a ha

theorem texts (h : Paired P pieces) : ∀ s, .text s ∈ pieces → P s := by
  induction h with
  | nil => simp
  | text hs => simpa using hs
  | newline => simp
  | indented _ ih => simpa [ZigMarkup.indented] using ih
  | append _ _ ih ih' =>
    intro s hs
    exact (List.mem_append.mp hs).elim (ih s) (ih' s)

/-- Paired pieces end at the depth at which they begin. -/
theorem depth_writeAll (h : Paired P pieces) : ∀ w : Writer, (w.writeAll pieces).depth = w.depth := by
  induction h with
  | nil => exact fun _ => rfl
  | text => exact fun w => w.depth_write_text _
  | newline => exact fun _ => rfl
  | @indented pieces _ ih =>
    intro w
    have hinside := ih (w.write .indent)
    rw [ZigMarkup.indented, Writer.writeAll_append]
    change ((w.write .indent).writeAll pieces).depth - 1 = w.depth
    rw [hinside]
    exact Nat.add_sub_cancel ..
  | append _ _ ih ih' =>
    intro w
    rw [Writer.writeAll_append, ih', ih]

/-- A dedent among pieces and more pieces is one of the first or one of the others. -/
theorem split_append {more done rest : List Piece} (h : pieces ++ more = done ++ .dedent :: rest) :
    (∃ others, pieces = done ++ .dedent :: others) ∨
      ∃ between, done = pieces ++ between ∧ more = between ++ .dedent :: rest := by
  rcases List.append_eq_append_iff.mp h with ⟨between, hdone, hmore⟩ | ⟨extra, hpieces, hrest⟩
  · exact .inr ⟨between, hdone, hmore⟩
  · cases extra with
    | nil => exact .inr ⟨[], by simpa using hpieces.symm, by simpa using hrest.symm⟩
    | cons piece others =>
      obtain ⟨rfl, _⟩ := List.cons.inj hrest
      exact .inl ⟨others, hpieces⟩

/-- Before a dedent the writer is deeper than where the pieces begin. -/
theorem lt_depth_of_dedent (h : Paired P pieces) : ∀ {done rest : List Piece},
    pieces = done ++ .dedent :: rest → ∀ w : Writer, w.depth < (w.writeAll done).depth := by
  induction h with
  | nil => simp
  | text => simp [List.singleton_eq_append_iff]
  | newline => simp [List.singleton_eq_append_iff]
  | @indented pieces hpieces ih =>
    intro done rest hsplit w
    cases done with
    | nil => simp [ZigMarkup.indented] at hsplit
    | cons piece done =>
      obtain ⟨rfl, hinside⟩ := List.cons.inj hsplit
      change w.depth < ((w.write .indent).writeAll done).depth
      have hdeeper : w.depth < (w.write .indent).depth := Nat.lt_succ_self _
      -- The dedent is one of the inner pieces, or the last one, which the indent precedes.
      rcases split_append hinside with ⟨others, hinner⟩ | ⟨between, rfl, hlast⟩
      · exact Nat.lt_trans hdeeper (ih hinner (w.write .indent))
      · obtain rfl : between = [] := by
          cases between with
          | nil => rfl
          | cons => simp at hlast
        rwa [List.append_nil, hpieces.depth_writeAll]
  | @append pieces more hpieces _ ih ih' =>
    intro done rest hsplit w
    rcases split_append hsplit with ⟨others, hinner⟩ | ⟨between, rfl, hmore⟩
    · exact ih hinner w
    · have hdeeper := ih' hmore (w.writeAll pieces)
      rwa [hpieces.depth_writeAll, ← Writer.writeAll_append] at hdeeper

end Paired

end ZigMarkup
