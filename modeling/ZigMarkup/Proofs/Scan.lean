import ZigMarkup.Source.Cursor

/-!
What a reading step can say about its result. `Gives p P` holds when every value that `p`
reads satisfies `P`; a step that fails satisfies it. One rule for each way of putting steps
together is enough for all productions of the grammar.
-/
namespace ZigMarkup

theorem Cursor.skipWhile_rest (p : UInt8 → Bool) (c : Cursor) :
    (c.skipWhile p).rest = c.rest.dropWhile p := by
  have h : c.rest.takeWhile p ++ c.rest.dropWhile p = c.rest := List.takeWhile_append_dropWhile
  calc c.rest.drop (c.rest.takeWhile p).length
      = (c.rest.takeWhile p ++ c.rest.dropWhile p).drop (c.rest.takeWhile p).length := by rw [h]
    _ = c.rest.dropWhile p := List.drop_left

/-- What is left begins with something that is not skipped. -/
theorem eq_false_of_dropWhile {α : Type} {p : α → Bool} {x : α} {xs rest : List α}
    (h : xs.dropWhile p = x :: rest) : p x = false := by
  have hhead := List.head?_dropWhile_not p xs
  rw [h] at hhead
  simpa using hhead

namespace ScanM

variable {α β : Type}

/-- Results of reading can be compared. -/
instance decidableEqResult [DecidableEq α] : DecidableEq (EStateM.Result ScanError Cursor α)
  | .ok a c, .ok b d => decidable_of_iff (a = b ∧ c = d) (by simp)
  | .error e c, .error f d => decidable_of_iff (e = f ∧ c = d) (by simp)
  | .ok _ _, .error _ _ => isFalse (by simp)
  | .error _ _, .ok _ _ => isFalse (by simp)

def Gives (p : ScanM α) (P : α → Prop) : Prop :=
  ∀ c a next, p c = .ok a next → P a

/-- A sequence that succeeds has both its steps succeed. -/
theorem ok_of_bind {x : ScanM α} {f : α → ScanM β} {c next : Cursor} {b : β}
    (h : (x >>= f) c = .ok b next) : ∃ a mid, x c = .ok a mid ∧ f a mid = .ok b next := by
  change EStateM.bind x f c = _ at h
  unfold EStateM.bind at h
  split at h
  · next a mid hx => exact ⟨a, mid, hx, h⟩
  · cases h

theorem bind_of_ok {x : ScanM α} {f : α → ScanM β} {c mid : Cursor} {a : α}
    (h : x c = .ok a mid) : (x >>= f) c = f a mid := by
  change EStateM.bind x f c = _
  unfold EStateM.bind
  rw [h]

theorem Gives.pure {P : α → Prop} {a : α} (h : P a) : Gives (pure a) P := by
  intro c a' next ha
  cases ha
  exact h

theorem Gives.bind {x : ScanM α} {f : α → ScanM β} {Q : α → Prop} {P : β → Prop}
    (hx : Gives x Q) (hf : ∀ a, Q a → Gives (f a) P) : Gives (x >>= f) P := by
  intro c b next h
  obtain ⟨a, mid, ha, hb⟩ := ok_of_bind h
  exact hf a (hx c a mid ha) mid b next hb

/-- The first step only moves the cursor or looks ahead. -/
theorem Gives.after {x : ScanM α} {f : α → ScanM β} {P : β → Prop}
    (hf : ∀ a, Gives (f a) P) : Gives (x >>= f) P := by
  intro c b next h
  obtain ⟨a, mid, _, hb⟩ := ok_of_bind h
  exact hf a mid b next hb

theorem Gives.ite {p : Prop} [Decidable p] {x y : ScanM α} {P : α → Prop}
    (hx : p → Gives x P) (hy : ¬ p → Gives y P) : Gives (if p then x else y) P := by
  split
  · next h => exact hx h
  · next h => exact hy h

theorem Gives.mono {p : ScanM α} {P Q : α → Prop} (h : Gives p P) (hPQ : ∀ a, P a → Q a) :
    Gives p Q := by
  intro c a next ha
  exact hPQ a (h c a next ha)

theorem gives_fail {P : α → Prop} (span : Span) (fault : Fault) : Gives (fail span fault) P := by
  intro c a next h
  cases h

theorem gives_expected {P : α → Prop} (what : Wanted) : Gives (expected what) P :=
  Gives.after fun _ => gives_fail _ _

theorem gives_manyFrom {step : ScanM (Option α)} {P : α → Prop}
    (h : Gives step fun o => ∀ a ∈ o, P a) (n : Nat) :
    Gives (manyFrom step n) fun as => ∀ a ∈ as, P a := by
  induction n with
  | zero => exact Gives.after fun _ => gives_fail _ _
  | succ n ih =>
    refine Gives.bind h fun o ho => ?_
    cases o with
    | none => exact Gives.pure (by simp)
    | some a =>
      refine Gives.bind ih fun as has => Gives.pure ?_
      intro b hb
      rcases List.mem_cons.mp hb with rfl | hb
      · exact ho b rfl
      · exact has b hb

theorem gives_many {step : ScanM (Option α)} {P : α → Prop}
    (h : Gives step fun o => ∀ a ∈ o, P a) : Gives (many step) fun as => ∀ a ∈ as, P a :=
  Gives.after fun _ => gives_manyFrom h _

/-! ## Steps that always succeed -/

theorem eat_eq (text : String) (c : Cursor) : eat text c =
    .ok (c.startsWith text) (if c.startsWith text then c.skip (utf8 text).length else c) := by
  change (if c.startsWith text then _ else _ : ScanM Bool) c = _
  cases c.startsWith text <;> rfl

theorem expect_ok {text : String} {what : Wanted} {c next : Cursor} {u : Unit}
    (h : expect text what c = .ok u next) :
    c.startsWith text ∧ next = c.skip (utf8 text).length := by
  obtain ⟨found, mid, hfound, hrest⟩ := ok_of_bind h
  rw [eat_eq] at hfound
  cases hfound
  cases hstart : c.startsWith text with
  | true =>
    rw [hstart] at hrest
    cases hrest
    exact ⟨rfl, rfl⟩
  | false =>
    rw [hstart] at hrest
    cases hrest

end ScanM

end ZigMarkup
