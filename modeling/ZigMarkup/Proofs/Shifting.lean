import ZigMarkup.Proofs.Boundaries

/-!
Reading does not depend on where it takes place. Begun further on with the same bytes ahead, a
production does what it does at the beginning, with every position moved on: those of nodes, of
errors and of the cursor. `Shifts` is the rule for steps put together.
-/
namespace ZigMarkup

def Span.shift (k : Nat) (s : Span) : Span := ⟨s.start + k, s.stop + k⟩

theorem Span.shift_of_length (k pos length : Nat) :
    (⟨pos + k, pos + k + length⟩ : Span) = Span.shift k ⟨pos, pos + length⟩ :=
  congrArg (Span.mk _) (Nat.add_right_comm pos k length)

theorem Span.isEmpty_shift (k : Nat) (s : Span) : (s.shift k).isEmpty = s.isEmpty := by
  simp only [isEmpty, shift, Nat.add_le_add_iff_right]

def ScanError.shift (k : Nat) (e : ScanError) : ScanError := ⟨e.span.shift k, e.fault⟩

def Cursor.shift (k : Nat) (c : Cursor) : Cursor := ⟨c.pos + k, c.rest⟩

namespace Tree

mutual
/-- The tree of the same text further on. -/
def shift (k : Nat) : Tree → Tree
  | ⟨kind, span, children, message⟩ => ⟨kind, span.shift k, shiftAll k children, message⟩

def shiftAll (k : Nat) : List Tree → List Tree
  | [] => []
  | t :: ts => t.shift k :: shiftAll k ts
end

theorem shiftAll_eq (k : Nat) (ts : List Tree) : shiftAll k ts = ts.map (shift k) := by
  induction ts with
  | nil => rfl
  | cons t ts ih => rw [shiftAll, ih, List.map_cons]

theorem shift_node (k : Nat) (kind : Kind) (span : Span) (children : List Tree) :
    (node kind span children).shift k = node kind (span.shift k) (children.map (shift k)) := by
  rw [node, shift, shiftAll_eq, node]

theorem shift_span (k : Nat) (t : Tree) : (t.shift k).span = t.span.shift k := by
  obtain ⟨_, _, _, _⟩ := t
  rfl

theorem shift_kind (k : Nat) (t : Tree) : (t.shift k).kind = t.kind := by
  obtain ⟨_, _, _, _⟩ := t
  rfl

mutual
theorem preorder_shift (k : Nat) : ∀ t : Tree, (t.shift k).preorder = t.preorder.map (shift k)
  | ⟨kind, span, children, message⟩ => by
    rw [shift, preorder, preorder, preorderAll_shift k children, List.map_cons, shift]

theorem preorderAll_shift (k : Nat) : ∀ ts : List Tree,
    preorderAll (shiftAll k ts) = (preorderAll ts).map (shift k)
  | [] => by rw [shiftAll, preorderAll, List.map_nil]
  | t :: ts => by
    rw [shiftAll, preorderAll, preorderAll, preorder_shift k t, preorderAll_shift k ts,
      List.map_append]
end

theorem shift_error (k : Nat) (span : Span) (message : String) :
    (error span message).shift k = error (span.shift k) message := rfl

end Tree

namespace Cursor

variable (k n : Nat) (c start : Cursor)

theorem shift_rest : (c.shift k).rest = c.rest := rfl

theorem peek_shift : (c.shift k).peek = c.peek := rfl

theorem skip_shift : (c.shift k).skip n = (c.skip n).shift k :=
  congrArg (Cursor.mk · _) (Nat.add_right_comm c.pos k n)

theorem advance_shift : (c.shift k).advance n = (c.advance n).shift k := skip_shift k _ c

theorem bump_shift : (c.shift k).bump = c.bump.shift k := advance_shift k 1 c

theorem skipWhile_shift (p : UInt8 → Bool) : (c.shift k).skipWhile p = (c.skipWhile p).shift k :=
  skip_shift k _ c

theorem skipBlanks_shift : (c.shift k).skipBlanks = c.skipBlanks.shift k :=
  skipWhile_shift k c isAsciiBlank

theorem textFrom_shift : (c.shift k).textFrom (start.shift k) = c.textFrom start := by
  simp only [textFrom, shift, Nat.add_sub_add_right]

end Cursor

namespace ScanM

variable {α β : Type} {k : Nat} {c : Cursor}

def shiftResult (k : Nat) (move : α → α) :
    EStateM.Result ScanError Cursor α → EStateM.Result ScanError Cursor α
  | .ok a next => .ok (move a) (next.shift k)
  | .error e next => .error (e.shift k) (next.shift k)

/-- Begun further on, `q` does what `p` does: what it gives is moved on, too. -/
def Shifts (k : Nat) (move : α → α) (c : Cursor) (p q : ScanM α) : Prop :=
  q (c.shift k) = shiftResult k move (p c)

namespace Shifts

variable {move : α → α} {moveTo : β → β}

theorem pure {a b : α} (h : b = move a) : Shifts k move c (pure a) (pure b) := by
  subst h
  rfl

theorem bind {x x' : ScanM α} {f f' : α → ScanM β} (hx : Shifts k move c x x')
    (hf : ∀ a next, x c = .ok a next → Shifts k moveTo next (f a) (f' (move a))) :
    Shifts k moveTo c (x >>= f) (x' >>= f') := by
  unfold Shifts at hx ⊢
  change EStateM.bind x' f' (c.shift k) = shiftResult k moveTo (EStateM.bind x f c)
  unfold EStateM.bind
  rw [hx]
  cases hrun : x c with
  | ok a next => exact hf a next hrun
  | error e next => rfl

theorem get {f f' : Cursor → ScanM α} (h : Shifts k move c (f c) (f' (c.shift k))) :
    Shifts k move c (get >>= f) (get >>= f') := h

theorem set {f f' : PUnit → ScanM α} {next next' : Cursor} (hnext : next' = next.shift k)
    (h : Shifts k move next (f ⟨⟩) (f' ⟨⟩)) :
    Shifts k move c (set next >>= f) (set next' >>= f') := by
  subst hnext
  exact h

theorem modify {f f' : PUnit → ScanM α} {step : Cursor → Cursor}
    (hstep : step (c.shift k) = (step c).shift k) (h : Shifts k move (step c) (f ⟨⟩) (f' ⟨⟩)) :
    Shifts k move c (modify step >>= f) (modify step >>= f') := by
  change f' ⟨⟩ (step (c.shift k)) = shiftResult k move (f ⟨⟩ (step c))
  rw [hstep]
  exact h

theorem ite {p : Prop} [Decidable p] {x x' y y' : ScanM α} (hx : p → Shifts k move c x x')
    (hy : ¬ p → Shifts k move c y y') :
    Shifts k move c (if p then x else y) (if p then x' else y') := by
  split
  · next h => exact hx h
  · next h => exact hy h

theorem skipBlanks {f f' : Unit → ScanM α} (h : Shifts k move c.skipBlanks (f ()) (f' ())) :
    Shifts k move c (ScanM.skipBlanks >>= f) (ScanM.skipBlanks >>= f') :=
  modify (Cursor.skipBlanks_shift k c) h

theorem fail {span span' : Span} {fault : Fault} (h : span' = span.shift k) :
    Shifts k move c (ScanM.fail span fault) (ScanM.fail span' fault) := by
  subst h
  rfl

theorem expected (what : Wanted) :
    Shifts k move c (ScanM.expected what) (ScanM.expected what) := rfl

end Shifts

/-! ## Steps -/

theorem error_shift (failure : Failure) (pos k : Nat) :
    (failure.shift (pos + k)).error = (failure.shift pos).error.shift k := by
  simp only [Failure.shift, Failure.error, ScanError.shift, Span.shift, Nat.add_right_comm]

theorem shifts_read (measure : Bytes → Except Failure Nat) (k : Nat) (c : Cursor) :
    Shifts k id c (read measure) (read measure) := by
  unfold Shifts read
  rw [Cursor.shift_rest]
  cases measure c.rest with
  | ok length => exact congrArg _ (Cursor.skip_shift k length c)
  | error failure =>
    exact congr (congrArg _ (error_shift failure c.pos k)) (Cursor.skip_shift k failure.reached c)

theorem shifts_eat (text : String) (k : Nat) (c : Cursor) :
    Shifts k id c (eat text) (eat text) := by
  unfold Shifts
  rw [eat_eq, eat_eq]
  change EStateM.Result.ok (c.startsWith text) (if c.startsWith text then _ else _) = _
  cases c.startsWith text with
  | true => exact congrArg _ (Cursor.skip_shift k _ c)
  | false => rfl

theorem shifts_expect (text : String) (what : Wanted) (k : Nat) (c : Cursor) :
    Shifts k id c (expect text what) (expect text what) := by
  refine Shifts.bind (shifts_eat text k c) fun found _ _ => ?_
  cases found with
  | true => rfl
  | false => exact .expected what

theorem shifts_word (p : UInt8 → Bool) (k : Nat) (c : Cursor) :
    Shifts k (Option.map (Span.shift k)) c (word p) (word p) :=
  .get (.ite (fun _ => .set (Cursor.skipWhile_shift k c p) (.pure (by
    rw [Cursor.skipWhile_shift]; rfl))) fun _ => .pure rfl)

theorem shifts_capture (k : Nat) (c : Cursor) :
    Shifts k (Option.map (Span.shift k)) c capture capture := by
  unfold Shifts capture
  rw [Cursor.shift_rest]
  cases captureLength c.rest with
  | ok o =>
    cases o with
    | none => rfl
    | some length =>
      exact congr (congrArg (EStateM.Result.ok <| some ·) (Span.shift_of_length k c.pos length))
        (Cursor.skip_shift k length c)
  | error failure =>
    exact congr (congrArg _ (error_shift failure c.pos k)) (Cursor.skip_shift k failure.reached c)

theorem shifts_many {step step' : ScanM (Option α)} {move : α → α}
    (h : ∀ c, Shifts k (Option.map move) c step step') (c : Cursor) :
    Shifts k (List.map move) c (many step) (many step') := by
  suffices hfrom : ∀ turns c, Shifts k (List.map move) c (manyFrom step turns)
      (manyFrom step' turns) from .get (hfrom _ c)
  intro turns
  induction turns with
  | zero => exact fun c => .get (.fail rfl)
  | succ turns ih =>
    intro c
    refine Shifts.bind (h c) fun o next _ => ?_
    cases o with
    | none => exact .pure rfl
    | some a => exact Shifts.bind (ih next) fun as _ _ => .pure rfl

end ScanM

open ScanM

namespace Parser

variable {k : Nat}

/-! ## Nodes and text -/

theorem shifts_leafFrom (kind : Kind) (start c : Cursor) :
    Shifts k (Tree.shift k) c (leafFrom kind start) (leafFrom kind (start.shift k)) := rfl

theorem shifts_nodeFrom (kind : Kind) (start : Cursor) (children : List Tree) (c : Cursor) :
    Shifts k (Tree.shift k) c (nodeFrom kind start children)
      (nodeFrom kind (start.shift k) (children.map (Tree.shift k))) :=
  .get (.pure (Tree.shift_node k kind (c.spanFrom start.pos) children).symm)

theorem utf8Length_takeWhile_le (p : Char → Bool) (cs : List Char) :
    utf8Length (cs.takeWhile p) ≤ utf8Length cs := by
  have hsplit := congrArg (fun cs : List Char => utf8Length cs)
    (List.takeWhile_append_dropWhile (p := p) (l := cs))
  simp only [utf8Length, List.flatMap_append, List.length_append] at hsplit ⊢
  omega

theorem utf8Length_decode_le (bytes : Bytes) : utf8Length (decode bytes).toList ≤ bytes.length := by
  change (utf8 (decode bytes)).length ≤ bytes.length
  rcases decode_cases bytes with hnone | hall
  · rw [hnone]
    exact Nat.zero_le _
  · exact Nat.le_of_eq (congrArg List.length hall)

theorem trimmed_shift (k : Nat) (start : Cursor) (stop : Nat) :
    trimmed (start.shift k) (stop + k) = (trimmed start stop).shift k := by
  have hlength : stop + k - (start.shift k).pos = stop - start.pos := Nat.add_sub_add_right ..
  unfold trimmed
  rw [Cursor.shift_rest, hlength]
  dsimp only
  split
  · rfl
  · -- The blanks at the end are part of what is read.
    have hle : utf8Length (((decode (start.rest.take (stop - start.pos))).toList.reverse).takeWhile
        isBlank) ≤ stop - start.pos := by
      refine Nat.le_trans (utf8Length_takeWhile_le _ _) ?_
      rw [utf8Length_reverse]
      refine Nat.le_trans (utf8Length_decode_le _) ?_
      rw [List.length_take]
      exact Nat.min_le_left _ _
    simp only [Span.shift, Cursor.shift, Span.mk.injEq]
    omega

theorem shifts_comment (c : Cursor) : Shifts k (Tree.shift k) c comment comment := by
  refine .get ?_
  rw [Cursor.shift_rest]
  cases indexOf? (utf8 "-->") (c.rest.drop 4) with
  | none => exact .fail (Span.shift_of_length k c.pos 4)
  | some inner => exact .set (Cursor.skip_shift ..) (shifts_leafFrom ..)

theorem shifts_endTag (c : Cursor) : Shifts k (Tree.shift k) c endTag endTag := by
  refine .get (.bind (shifts_expect ..) fun _ a _ => .skipBlanks ?_)
  refine .bind (shifts_word ..) fun o b _ => .skipBlanks (.bind (shifts_expect ..) fun _ d _ => ?_)
  cases o <;> exact shifts_nodeFrom ..

theorem shifts_strayEndTag {α : Type} {move : α → α} (c : Cursor) :
    Shifts k move c strayEndTag strayEndTag := by
  refine .get (.bind (shifts_endTag c) fun tag a _ => .get ?_)
  rw [Cursor.textFrom_shift]
  exact .fail (Tree.shift_span k tag)

theorem shifts_text (c : Cursor) : Shifts k (Tree.shift k) c text text :=
  .get (.set (Cursor.skipWhile_shift ..) (shifts_leafFrom ..))

theorem shifts_parens (what : Wanted) (c : Cursor) :
    Shifts k id c (parens what) (parens what) :=
  .get (.ite (fun _ => shifts_read ..) fun _ => .expected what)

/-- The nested productions do not depend on where they begin. -/
structure ShiftsNested (k : Nat) (g : Nested) : Prop where
  tag : ∀ c, Shifts k (Tree.shift k) c g.tag g.tag
  braces : ∀ kind c, Shifts k (Tree.shift k) c (g.braces kind) (g.braces kind)

/-! ## Attributes -/

theorem lt_of_group {c next : Cursor} {u : Unit} (h : group c = .ok u next) : c.pos < next.pos := by
  unfold group ScanM.read at h
  split at h
  · next length hlength =>
    cases h
    exact Nat.lt_add_of_pos_right (groupLength_bounds hlength).1
  · cases h

/-- Inside a group, without the bracket that closes it. -/
theorem trimmed_group {c next : Cursor} {u : Unit} (h : group c = .ok u next) (start : Cursor) :
    trimmed (start.shift k) ((next.shift k).pos - 1) = (trimmed start (next.pos - 1)).shift k := by
  have hpos := lt_of_group h
  rw [← trimmed_shift]
  congr 1
  change next.pos + k - 1 = next.pos - 1 + k
  omega

theorem shifts_templatePiece (opening c : Cursor) :
    Shifts k (Option.map (Prod.map (Tree.shift k) (Option.map (Span.shift k)))) c
      (templatePiece opening) (templatePiece (opening.shift k)) := by
  refine .get ?_
  rw [Cursor.peek_shift]
  cases c.peek with
  | none => exact .fail (Span.shift_of_length k opening.pos 1)
  | some b =>
    refine .ite (fun _ => .pure rfl) fun _ => .ite (fun _ => ?_) fun _ => ?_
    · refine .bind (shifts_read ..) fun _ next hgroup => .get (.pure ?_)
      rw [Cursor.skip_shift, trimmed_group hgroup, Span.isEmpty_shift]
      cases (trimmed (c.skip 1) (next.pos - 1)).isEmpty <;> rfl
    · refine .set (Cursor.skipWhile_shift ..) (.bind (shifts_leafFrom ..) fun _ _ _ => .pure rfl)

theorem shifts_templateString (c : Cursor) :
    Shifts k (Tree.shift k) c templateString templateString := by
  refine .get (.set (Cursor.bump_shift k c) (.bind (shifts_many (shifts_templatePiece c) _)
    fun pieces next _ => .modify (Cursor.bump_shift k next) ?_))
  have hfault : (pieces.map (Prod.map (Tree.shift k) (Option.map (Span.shift k)))).findSome? (·.2) =
      (pieces.findSome? (·.2)).map (Span.shift k) := by
    rw [List.findSome?_map, List.map_findSome?]
    rfl
  have hparts : (pieces.map (Prod.map (Tree.shift k) (Option.map (Span.shift k)))).map (·.1) =
      (pieces.map (·.1)).map (Tree.shift k) := by
    rw [List.map_map, List.map_map]
    rfl
  rw [hfault, hparts]
  cases pieces.findSome? (·.2) with
  | some span => exact .fail rfl
  | none => exact shifts_nodeFrom ..

theorem shifts_spread (start c : Cursor) :
    Shifts k (Tree.shift k) c (spread start) (spread (start.shift k)) := by
  refine .set rfl (.bind (shifts_read ..) fun _ next hgroup => .get ?_)
  have hwhole : trimmed ((start.shift k).skip 1) ((next.shift k).pos - 1) =
      (trimmed (start.skip 1) (next.pos - 1)).shift k := by
    rw [Cursor.skip_shift, trimmed_group hgroup]
  have hinner : ∀ whole : Span, trimmed ((start.shift k).skip
      ((whole.shift k).start + 2 - (start.shift k).pos)) (whole.shift k).stop =
        (trimmed (start.skip (whole.start + 2 - start.pos)) whole.stop).shift k := by
    intro whole
    rw [← trimmed_shift, ← Cursor.skip_shift]
    congr 2
    change whole.start + k + 2 - (start.pos + k) = whole.start + 2 - start.pos
    omega
  dsimp only
  rw [hwhole, hinner, Span.isEmpty_shift]
  exact .ite (fun _ => .fail rfl) fun _ => shifts_nodeFrom ..

theorem shifts_bracedAttribute (c : Cursor) :
    Shifts k (Tree.shift k) c bracedAttribute bracedAttribute := by
  refine .get (.set (Cursor.bump_shift k c) (.skipBlanks (.bind (shifts_eat ..) fun _ a _ => ?_)))
  refine .ite (fun _ => shifts_spread c a) fun _ => .bind (shifts_eat ..) fun _ b _ => ?_
  refine .bind (shifts_word ..) fun o d _ => ?_
  cases o with
  | none => exact .expected _
  | some name =>
    exact .skipBlanks (.bind (shifts_expect ..) fun _ _ _ => shifts_nodeFrom ..)

/-! ## Control flow -/

theorem shifts_continueClause (before c : Cursor) :
    Shifts k (Cursor.shift k) c (continueClause before) (continueClause (before.shift k)) := by
  refine .skipBlanks (.bind (shifts_eat ..) fun _ a _ => .ite (fun _ => ?_) fun _ => .pure rfl)
  exact .skipBlanks (.bind (shifts_parens ..) fun _ _ _ => rfl)

theorem shifts_header (withContinue : Bool) (c : Cursor) :
    Shifts k (Tree.shift k) c (header withContinue) (header withContinue) := by
  refine .get (.bind (shifts_parens ..) fun _ a _ => .get (.skipBlanks ?_))
  refine .bind (shifts_capture ..) fun o b _ => ?_
  have hrest : ∀ captured next : Cursor, Shifts k (Tree.shift k) next
      (do
        let stop ← if withContinue then continueClause captured else pure captured
        set stop
        leafFrom .header c)
      (do
        let stop ← if withContinue then continueClause (captured.shift k)
          else pure (captured.shift k)
        set stop
        leafFrom .header (c.shift k)) := by
    intro captured next
    cases withContinue with
    | false => rfl
    | true =>
      exact .bind (shifts_continueClause captured next) fun stop _ _ =>
        .set rfl (shifts_leafFrom ..)
  cases o with
  | none => exact hrest a b
  | some span => exact hrest b b

theorem shifts_opensBody (flow : FlowKind) (c : Cursor) :
    Shifts k id c (opensBody flow) (opensBody flow) := by
  have hlook : ∀ c : Cursor, Shifts k id c (do
      let c ← get
      return c.atTemplate || c.peek = some (ascii '\x7b'))
      (do
      let c ← get
      return c.atTemplate || c.peek = some (ascii '\x7b')) := fun _ => .get (.pure rfl)
  have hloop : ∀ c : Cursor, Shifts k id c (do
      if flow = .whileLoop then
        if ← eat ":" then
          skipBlanks
          parens .continueExpr
          skipBlanks
      let c ← get
      return c.atTemplate || c.peek = some (ascii '\x7b'))
      (do
      if flow = .whileLoop then
        if ← eat ":" then
          skipBlanks
          parens .continueExpr
          skipBlanks
      let c ← get
      return c.atTemplate || c.peek = some (ascii '\x7b')) := by
    intro c
    refine .ite (fun _ => .bind (shifts_eat ..) fun _ a _ => ?_) fun _ => hlook c
    refine .ite (fun _ => .skipBlanks (.bind (shifts_parens ..) fun _ b _ => ?_)) fun _ => hlook a
    exact .skipBlanks (hlook _)
  refine .bind (shifts_capture ..) fun o a _ => ?_
  cases o with
  | none => exact hloop a
  | some span => exact .skipBlanks (hloop _)

theorem shifts_opensMarkup (flow : FlowKind) (c : Cursor) :
    Shifts k id c (opensMarkup flow) (opensMarkup flow) := by
  refine .modify (Cursor.skip_shift ..) (.skipBlanks (.bind (shifts_parens ..) fun _ a _ =>
    .skipBlanks (.ite (fun _ => ?_) fun _ => shifts_opensBody ..)))
  refine .bind (shifts_eat ..) fun _ b _ => .ite (fun _ => .skipBlanks (.get ?_)) fun _ => .pure rfl
  refine .ite (fun _ => .pure rfl) fun _ => .bind (shifts_read ..) fun _ d _ => ?_
  exact .modify (Cursor.skip_shift ..) (.skipBlanks (shifts_opensBody ..))

theorem flowAhead?_shift (c : Cursor) : flowAhead? (c.shift k) = flowAhead? c := by
  unfold flowAhead?
  change (FlowKind.all.find? (c.atKeyword ·.keyword) >>= _) = _
  cases FlowKind.all.find? (c.atKeyword ·.keyword) with
  | none => rfl
  | some flow =>
    have hmarkup : opensMarkup flow (c.shift k) = shiftResult k id (opensMarkup flow c) :=
      shifts_opensMarkup flow c
    simp only [Option.bind_eq_bind, Option.bind_some, hmarkup]
    cases opensMarkup flow c with
    | error e next => rfl
    | ok found next => cases found <;> rfl

section ControlFlow

variable {body : ScanM Tree} (hbody : ∀ c, Shifts k (Tree.shift k) c body body)

include hbody

theorem shifts_headedBranch (start : Cursor) (withContinue : Bool) (c : Cursor) :
    Shifts k (Tree.shift k) c (headedBranch body start withContinue)
      (headedBranch body (start.shift k) withContinue) := by
  refine .skipBlanks (.bind (shifts_header ..) fun head a _ => .skipBlanks ?_)
  exact .bind (hbody _) fun inner _ _ => shifts_nodeFrom ..

theorem shifts_capturedBody (c : Cursor) :
    Shifts k (List.map (Tree.shift k)) c (capturedBody body) (capturedBody body) := by
  refine .bind (shifts_capture ..) fun o a _ => ?_
  cases o with
  | none => exact .bind (hbody a) fun _ _ _ => .pure rfl
  | some span => exact .skipBlanks (.bind (hbody _) fun _ _ _ => .pure rfl)

theorem shifts_elseIf? (c : Cursor) :
    Shifts k (Option.map (Tree.shift k)) c (elseIf? body) (elseIf? body) := by
  refine .get ?_
  dsimp only
  rw [Cursor.skipBlanks_shift, Cursor.skip_shift, Cursor.skipBlanks_shift]
  refine .ite (fun _ => .set (Cursor.skip_shift ..) ?_) fun _ => .pure rfl
  exact .bind (shifts_headedBranch hbody ..) fun _ _ _ => .pure rfl

theorem shifts_else? (c : Cursor) :
    Shifts k (Option.map (Tree.shift k)) c (else? body) (else? body) := by
  refine .get ?_
  dsimp only
  rw [Cursor.skipBlanks_shift, Cursor.skip_shift, Cursor.skipBlanks_shift]
  refine .ite (fun _ => .set rfl ?_) fun _ => .pure rfl
  exact .bind (shifts_capturedBody hbody _) fun parts _ _ =>
    .bind (shifts_nodeFrom ..) fun _ _ _ => .pure rfl

theorem shifts_ifBlock (c : Cursor) :
    Shifts k (Tree.shift k) c (ifBlock body) (ifBlock body) := by
  refine .get (.set (Cursor.skip_shift ..)
    (.bind (shifts_headedBranch hbody ..) fun first a _ => ?_))
  refine .bind (shifts_many (shifts_elseIf? hbody) a) fun others b _ => ?_
  refine .bind (shifts_else? hbody b) fun last d _ => ?_
  have hparts : first.shift k :: others.map (Tree.shift k) ++ (last.map (Tree.shift k)).toList =
      (first :: others ++ last.toList).map (Tree.shift k) := by
    cases last <;> simp
  rw [hparts]
  exact shifts_nodeFrom ..

theorem shifts_loopBlock (flow : FlowKind) (c : Cursor) :
    Shifts k (Tree.shift k) c (loopBlock body flow) (loopBlock body flow) :=
  .get (.set (Cursor.skip_shift ..) (.bind (shifts_headedBranch hbody ..) fun _ _ _ =>
    shifts_nodeFrom ..))

theorem shifts_prong? (opening c : Cursor) :
    Shifts k (Option.map (Tree.shift k)) c (prong? body opening)
      (prong? body (opening.shift k)) := by
  refine .skipBlanks (.bind (shifts_eat ..) fun _ a _ => .ite (fun _ => .pure rfl) fun _ => ?_)
  refine .get (.ite (fun _ => .fail (Span.shift_of_length k opening.pos 6)) fun _ => ?_)
  refine .bind (shifts_read ..) fun _ b _ => .get ?_
  have hpattern : trimmed (a.shift k) (b.shift k).pos = (trimmed a b.pos).shift k :=
    trimmed_shift k a b.pos
  dsimp only
  rw [hpattern, Span.isEmpty_shift]
  refine .ite (fun _ => .expected _) fun _ => .modify (Cursor.skip_shift ..) (.skipBlanks ?_)
  refine .bind (shifts_capturedBody hbody _) fun parts d _ => ?_
  refine .bind (shifts_nodeFrom ..) fun _ _ _ => ?_
  exact .skipBlanks (.bind (shifts_eat ..) fun _ _ _ => .pure rfl)

theorem shifts_switchBlock (c : Cursor) :
    Shifts k (Tree.shift k) c (switchBlock body) (switchBlock body) := by
  refine .get (.set (Cursor.skip_shift ..) (.skipBlanks (.get ?_)))
  refine .bind (shifts_parens ..) fun _ a _ => .bind (shifts_leafFrom ..) fun head b _ => ?_
  refine .skipBlanks (.bind (shifts_expect ..) fun _ d _ => ?_)
  refine .bind (shifts_many (shifts_prong? hbody c) d) fun prongs e _ => ?_
  rw [List.isEmpty_map]
  refine .ite (fun _ => .fail (Span.shift_of_length k c.pos 6)) fun _ => ?_
  exact shifts_nodeFrom .switchBlock c (head :: prongs) e

theorem shifts_controlFlow (flow : FlowKind) (c : Cursor) :
    Shifts k (Tree.shift k) c (controlFlow body flow) (controlFlow body flow) := by
  cases flow with
  | ifElse => exact shifts_ifBlock hbody c
  | switch => exact shifts_switchBlock hbody c
  | forLoop | whileLoop => exact shifts_loopBlock hbody _ c

end ControlFlow

/-! ## Productions that contain each other -/

section Nested

variable {g : Nested} (hg : ShiftsNested k g)

include hg

theorem shifts_attributeValue (c : Cursor) :
    Shifts k (Tree.shift k) c (attributeValue g) (attributeValue g) := by
  refine .get (.ite (fun _ => .bind (shifts_read ..) fun _ _ _ => shifts_leafFrom ..) fun _ => ?_)
  refine .ite (fun _ => hg.braces ..) fun _ => .ite (fun _ => shifts_templateString c) fun _ => ?_
  refine .ite (fun _ => .set ?_ (.get (.pure rfl))) fun _ => .expected _
  rw [Cursor.skip_shift, Cursor.skipWhile_shift]

theorem shifts_attributeValue? (c : Cursor) :
    Shifts k (Option.map (Tree.shift k)) c (attributeValue? g) (attributeValue? g) := by
  refine .get (.skipBlanks (.bind (shifts_eat ..) fun _ a _ => .ite (fun _ => ?_) fun _ => ?_))
  · exact .skipBlanks (.bind (shifts_attributeValue hg _) fun _ _ _ => .pure rfl)
  · exact .set rfl (.pure rfl)

theorem shifts_attr (c : Cursor) : Shifts k (Tree.shift k) c (attr g) (attr g) := by
  refine .get ?_
  rw [Cursor.peek_shift]
  cases c.peek with
  | none => exact .fail rfl
  | some b =>
    refine .ite (fun _ => .set (Cursor.bump_shift k c) (.bind (shifts_word ..) fun o a _ => ?_))
      fun _ => .ite (fun _ => shifts_bracedAttribute c) fun _ =>
        .bind (shifts_word ..) fun o a _ => ?_
    · cases o with
      | none => exact .expected _
      | some name =>
        refine .bind (shifts_attributeValue? hg a) fun value _ _ => ?_
        cases value <;> exact shifts_nodeFrom ..
    · cases o with
      | none => exact .fail (Span.shift_of_length k c.pos _)
      | some name =>
        refine .bind (shifts_attributeValue? hg a) fun value _ _ => ?_
        cases value <;> exact shifts_nodeFrom ..

theorem shifts_attrOrError (c : Cursor) :
    Shifts k (Tree.shift k) c (attrOrError g) (attrOrError g) := by
  have hattr : attr g (c.shift k) = shiftResult k (Tree.shift k) (attr g c) := shifts_attr hg c
  unfold Shifts attrOrError
  rw [hattr]
  cases attr g c with
  | ok t next => rfl
  | error e reached =>
    have hlength : max (max (e.shift k).span.stop ((c.shift k).pos + 1)) (reached.shift k).pos -
        (c.shift k).pos = max (max e.span.stop (c.pos + 1)) reached.pos - c.pos := by
      change max (max (e.span.stop + k) (c.pos + k + 1)) (reached.pos + k) - (c.pos + k) = _
      omega
    simp only [shiftResult]
    rw [hlength, Cursor.advance_shift, Cursor.skip_shift]
    rfl

theorem shifts_attr? (opening : Span) (name : String) (c : Cursor) :
    Shifts k (Option.map (Tree.shift k)) c (attr? g opening name)
      (attr? g (opening.shift k) name) :=
  .skipBlanks (.get (.ite (fun _ => .pure rfl) fun _ => .ite (fun _ => .fail rfl) fun _ =>
    .bind (shifts_attrOrError hg _) fun _ _ _ => .pure rfl))

theorem shifts_child? (terminator : Terminator) (opening : Span) (opener : String) (c : Cursor) :
    Shifts k (Option.map (Tree.shift k)) c (child? g terminator opening opener)
      (child? g terminator (opening.shift k) opener) := by
  refine .get ?_
  rw [Cursor.peek_shift]
  cases c.peek with
  | none => exact .fail rfl
  | some b =>
    refine .ite (fun _ => .ite (fun _ => ?_) fun _ => ?_) fun _ => .ite (fun _ => ?_) fun _ =>
      .ite (fun _ => ?_) fun _ => .bind (shifts_text c) fun _ _ _ => .pure rfl
    · cases terminator with
      | endTag => exact .pure rfl
      | brace => exact shifts_strayEndTag c
    · exact .bind (hg.tag c) fun _ _ _ => .pure rfl
    · exact .bind (hg.braces _ c) fun _ _ _ => .pure rfl
    · cases terminator with
      | brace => exact .pure rfl
      | endTag =>
        refine .set (Cursor.bump_shift k c) (.pure ?_)
        rw [Option.map_some, Tree.shift_error, ← Span.shift_of_length]
        rfl

theorem shifts_children (terminator : Terminator) (opening : Span) (opener : String) (c : Cursor) :
    Shifts k (List.map (Tree.shift k)) c (children g terminator opening opener)
      (children g terminator (opening.shift k) opener) :=
  shifts_many (shifts_child? hg terminator opening opener) c

theorem shifts_rootItem? (opening c : Cursor) :
    Shifts k (Option.map (Tree.shift k)) c (rootItem? g opening)
      (rootItem? g (opening.shift k)) := by
  refine .skipBlanks (.bind (shifts_eat ..) fun _ a _ => .ite (fun _ => .pure rfl) fun _ => ?_)
  refine .get (.ite (fun _ => .fail (Span.shift_of_length k opening.pos 1)) fun _ => ?_)
  exact .ite (fun _ => .bind (hg.tag a) fun _ _ _ => .pure rfl) fun _ => .expected _

theorem shifts_templateRoot (c : Cursor) :
    Shifts k (Tree.shift k) c (templateRoot g) (templateRoot g) :=
  .get (.bind (shifts_expect ..) fun _ a _ => .bind (shifts_many (shifts_rootItem? hg c) a)
    fun _ _ _ => shifts_nodeFrom ..)

theorem shifts_body (c : Cursor) : Shifts k (Tree.shift k) c (body g) (body g) := by
  refine .get (.ite (fun _ => ?_) fun _ => .ite (fun _ => ?_) fun _ => .expected _)
  · exact .bind (shifts_templateRoot hg c) fun _ _ _ => shifts_nodeFrom ..
  · refine .set (Cursor.bump_shift k c) ?_
    rw [show (⟨(c.shift k).pos, (c.shift k).pos + 1⟩ : Span) = Span.shift k ⟨c.pos, c.pos + 1⟩
      from Span.shift_of_length k c.pos 1]
    exact .bind (shifts_children hg ..) fun _ _ _ => .bind (shifts_expect ..) fun _ _ _ =>
      shifts_nodeFrom ..

theorem shifts_fragment (start c : Cursor) :
    Shifts k (Tree.shift k) c (fragment g start) (fragment g (start.shift k)) := by
  refine .get (.bind (shifts_children hg .endTag (c.spanFrom start.pos) "<>" c) fun items a _ => ?_)
  refine .bind (shifts_endTag a) fun close b _ => ?_
  have h := shifts_nodeFrom (k := k) .fragment start (items ++ [close]) b
  rwa [List.map_append] at h

theorem shifts_element (start : Cursor) (name : Span) (c : Cursor) :
    Shifts k (Tree.shift k) c (element g start name)
      (element g (start.shift k) (name.shift k)) := by
  refine .get ?_
  rw [Cursor.skip_shift, Cursor.textFrom_shift]
  refine .bind (shifts_many (shifts_attr? hg ⟨start.pos, name.stop⟩ _) c) fun attributes a _ => ?_
  refine .bind (shifts_eat ..) fun _ b _ => .ite (fun _ => ?_) fun _ => ?_
  · exact shifts_nodeFrom .selfClosingElement start (.leaf .tagName name :: attributes) b
  refine .modify (Cursor.bump_shift k b) (.ite (fun _ => ?_) fun _ => ?_)
  · exact shifts_nodeFrom .selfClosingElement start (.leaf .tagName name :: attributes) b.bump
  refine .bind (shifts_nodeFrom .startTag start (.leaf .tagName name :: attributes) b.bump)
    fun startTag d _ => ?_
  refine .bind (shifts_children hg .endTag ⟨start.pos, name.stop⟩ _ d) fun items e _ => ?_
  refine .bind (shifts_endTag e) fun close f _ => ?_
  have h := shifts_nodeFrom (k := k) .element start (startTag :: items ++ [close]) f
  rwa [List.map_append] at h

theorem shifts_tag (c : Cursor) : Shifts k (Tree.shift k) c (tag g) (tag g) := by
  refine .get (.ite (fun _ => shifts_comment c) fun _ => ?_)
  refine .ite (fun _ => shifts_strayEndTag c) fun _ => ?_
  refine .set (Cursor.bump_shift k c) (.bind (shifts_eat ..) fun _ a _ => ?_)
  refine .ite (fun _ => shifts_fragment hg c a) fun _ => .bind (shifts_word ..) fun o b _ => ?_
  cases o with
  | none => exact .expected _
  | some name => exact shifts_element hg c name b

theorem shifts_braced (start c : Cursor) :
    Shifts k (Tree.shift k) c (braced g start) (braced g (start.shift k)) := by
  refine .get (.ite (fun _ => ?_) fun _ => ?_)
  · refine .bind (shifts_templateRoot hg c) fun _ _ _ => .skipBlanks ?_
    exact .bind (shifts_expect ..) fun _ _ _ => .pure rfl
  · rw [flowAhead?_shift]
    cases flowAhead? c with
    | some flow =>
      refine .bind (shifts_controlFlow (shifts_body hg) flow c) fun _ _ _ => .skipBlanks ?_
      exact .bind (shifts_expect ..) fun _ _ _ => .pure rfl
    | none =>
      refine .set rfl (.bind (shifts_read ..) fun _ next hgroup => .get (.pure ?_))
      rw [Cursor.skip_shift, trimmed_group hgroup]
      rfl

theorem shifts_bracesOf (kind : Kind) (c : Cursor) :
    Shifts k (Tree.shift k) c (bracesOf g kind) (bracesOf g kind) := by
  refine .get (.set (Cursor.bump_shift k c) (.skipBlanks (.bind (shifts_eat ..) fun _ a _ => ?_)))
  refine .ite (fun _ => shifts_leafFrom ..) fun _ => .bind (shifts_braced hg c a) fun _ _ _ => ?_
  exact shifts_nodeFrom ..

theorem shifts_braces (kind : Kind) (c : Cursor) :
    Shifts k (Tree.shift k) c (braces g kind) (braces g kind) := by
  have hbraces : bracesOf g kind (c.shift k) = shiftResult k (Tree.shift k) (bracesOf g kind c) :=
    shifts_bracesOf hg kind c
  unfold Shifts braces
  rw [hbraces, Cursor.shift_rest]
  cases bracesOf g kind c with
  | ok t next => rfl
  | error e reached =>
    have hlength : max (e.shift k).span.stop ((c.shift k).pos + 1) - (c.shift k).pos =
        max e.span.stop (c.pos + 1) - c.pos := by
      change max (e.span.stop + k) (c.pos + k + 1) - (c.pos + k) = _
      omega
    simp only [shiftResult]
    cases groupLength c.rest with
    | ok length => exact congrArg _ (Cursor.skip_shift k length c)
    | error failure =>
      rw [hlength]
      exact congrArg _ (Cursor.advance_shift k _ c)

end Nested

/-- Reading does not depend on where it begins. -/
theorem nested_shifts (k depth : Nat) : ShiftsNested k (nested depth) := by
  induction depth with
  | zero => exact ⟨fun _ => rfl, fun _ _ => rfl⟩
  | succ depth ih => exact ⟨shifts_tag ih, shifts_braces ih⟩

end Parser

end ZigMarkup
