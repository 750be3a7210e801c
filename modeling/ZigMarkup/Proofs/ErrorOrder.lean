import Mathlib.Data.List.Forall2
import ZigMarkup.Proofs.Acceptance

/-!
Which error is reported. A node of a tree is found by the steps that lead to it from the root, and
preorder is the lexical order of these steps. Main statement: if a tree has error nodes, the one
reported is that with the least start, and of those the first in preorder, whatever else is wrong
with its templates; without one, each template root is read as it would be alone, and the first that
is refused is reported.
-/
namespace ZigMarkup

namespace Tree

/-! ## Steps through a tree -/

/-- The node that steps from child to child lead to; each step is the number of a child. -/
def descend? : Tree → List Nat → Option Tree
  | t, [] => some t
  | t, step :: steps => t.children[step]?.bind (·.descend? steps)

mutual
/-- All nodes in preorder, with the steps that lead to them. -/
def addressed : Tree → List (List Nat × Tree)
  | ⟨kind, span, children, message⟩ =>
    ([], ⟨kind, span, children, message⟩) :: addressedFrom 0 children

/-- The same for a list of children, of which the first has the number `first`. -/
def addressedFrom (first : Nat) : List Tree → List (List Nat × Tree)
  | [] => []
  | t :: ts => t.addressed.map (fun a => (first :: a.1, a.2)) ++ addressedFrom (first + 1) ts
end

mutual
theorem map_addressed : ∀ t : Tree, t.addressed.map (·.2) = t.preorder
  | ⟨_, _, children, _⟩ => by
    rw [addressed, preorder, List.map_cons, map_addressedFrom 0 children]

theorem map_addressedFrom (first : Nat) : ∀ ts : List Tree,
    (addressedFrom first ts).map (·.2) = preorderAll ts
  | [] => rfl
  | t :: ts => by
    rw [addressedFrom, preorderAll, List.map_append, List.map_map, map_addressedFrom (first + 1) ts,
      ← map_addressed t]
    rfl
end

theorem mem_addressedFrom {first : Nat} {steps : List Nat} {u : Tree} {ts : List Tree} :
    (steps, u) ∈ addressedFrom first ts ↔ ∃ i rest, ∃ t, ts[i]? = some t ∧
      steps = (first + i) :: rest ∧ (rest, u) ∈ t.addressed := by
  induction ts generalizing first with
  | nil => simp [addressedFrom]
  | cons t ts ih =>
    rw [addressedFrom, List.mem_append, ih]
    constructor
    · rintro (hmem | ⟨i, rest, t', ht', rfl, hmem⟩)
      · obtain ⟨⟨rest, v⟩, hrest, hpair⟩ := List.mem_map.mp hmem
        obtain ⟨rfl, rfl⟩ := Prod.mk.inj hpair
        exact ⟨0, rest, t, rfl, rfl, hrest⟩
      · exact ⟨i + 1, rest, t', ht', by rw [Nat.add_right_comm, Nat.add_assoc], hmem⟩
    · rintro ⟨i, rest, t', ht', rfl, hmem⟩
      cases i with
      | zero =>
        obtain rfl := Option.some.inj ht'
        exact .inl (List.mem_map.mpr ⟨(rest, u), hmem, rfl⟩)
      | succ i => exact .inr ⟨i, rest, t', ht', by rw [Nat.add_right_comm, Nat.add_assoc], hmem⟩

theorem mem_addressed {steps : List Nat} {t u : Tree} :
    (steps, u) ∈ t.addressed ↔ t.descend? steps = some u := by
  induction steps generalizing t with
  | nil =>
    cases t
    simp only [addressed, List.mem_cons, Prod.mk.injEq, true_and, mem_addressedFrom, reduceCtorEq,
      false_and, and_false, exists_false, or_false, descend?, Option.some.injEq]
    exact eq_comm
  | cons step steps ih =>
    cases t
    simp only [addressed, List.mem_cons, Prod.mk.injEq, reduceCtorEq, false_and, false_or,
      mem_addressedFrom, Nat.zero_add, List.cons.injEq, descend?, Option.bind_eq_some_iff]
    constructor
    · rintro ⟨i, rest, t, ht, ⟨rfl, rfl⟩, hmem⟩
      exact ⟨t, ht, ih.mp hmem⟩
    · rintro ⟨t, ht, hdescend⟩
      exact ⟨step, steps, t, ht, ⟨rfl, rfl⟩, ih.mpr hdescend⟩

mutual
/-- Preorder is the lexical order of steps. -/
theorem pairwise_addressed : ∀ t : Tree, t.addressed.Pairwise fun a b => a.1 < b.1
  | ⟨_, _, children, _⟩ => by
    rw [addressed, List.pairwise_cons]
    refine ⟨fun a ha => ?_, pairwise_addressedFrom 0 children⟩
    obtain ⟨i, rest, _, _, hsteps, _⟩ := mem_addressedFrom.mp ha
    rw [hsteps]
    exact List.nil_lt_cons _ _

theorem pairwise_addressedFrom (first : Nat) : ∀ ts : List Tree,
    (addressedFrom first ts).Pairwise fun a b => a.1 < b.1
  | [] => .nil
  | t :: ts => by
    rw [addressedFrom, List.pairwise_append]
    refine ⟨List.pairwise_map.mpr ((pairwise_addressed t).imp fun h => ?_),
      pairwise_addressedFrom (first + 1) ts, fun a ha b hb => ?_⟩
    · exact List.cons_lt_cons_iff.mpr (.inr ⟨rfl, h⟩)
    · obtain ⟨a', _, rfl⟩ := List.mem_map.mp ha
      obtain ⟨i, rest, _, _, hsteps, _⟩ := mem_addressedFrom.mp hb
      rw [hsteps]
      exact List.cons_lt_cons_iff.mpr (.inl (by omega))
end

theorem mem_preorder_iff {t u : Tree} : u ∈ t.preorder ↔ ∃ steps, t.descend? steps = some u := by
  rw [← map_addressed, List.mem_map]
  constructor
  · rintro ⟨⟨steps, v⟩, hmem, rfl⟩
    exact ⟨steps, mem_addressed.mp hmem⟩
  · rintro ⟨steps, hsteps⟩
    exact ⟨(steps, u), mem_addressed.mpr hsteps, rfl⟩

/-! ## The first error -/

/-- An error node that begins before all others, or with some of them and comes first in
preorder. -/
structure FirstError (file : Tree) (steps : List Nat) (error : Tree) : Prop where
  found : file.descend? steps = some error
  kind : error.kind = .error
  first : ∀ steps' other, file.descend? steps' = some other → other.kind = .error →
    steps' ≠ steps → error.span.start < other.span.start ∨
      error.span.start = other.span.start ∧ steps < steps'

/-- A stable sort keeps the order of what it does not tell apart. -/
theorem pairwise_mergeSort_stable {α : Type} {le : α → α → Bool} {R : α → α → Prop}
    (htrans : ∀ a b c, le a b → le b c → le a c) (htotal : ∀ a b, le a b || le b a) {l : List α}
    (h : l.Pairwise R) :
    (l.mergeSort le).Pairwise fun a b => le a b = true ∧ (le b a = true → R a b) := by
  induction l with
  | nil => simp
  | cons a l ih =>
    obtain ⟨hhead, hrest⟩ := List.pairwise_cons.mp h
    have hsorted := List.pairwise_mergeSort htrans htotal (a :: l)
    obtain ⟨before, after, hwhole, hl, hbefore⟩ := List.mergeSort_cons htrans htotal a l
    have hmem : ∀ b ∈ after, b ∈ l := by
      intro b hb
      have hin : b ∈ l.mergeSort le := hl ▸ List.mem_append_right before hb
      exact List.mem_mergeSort.mp hin
    have ih := ih hrest
    rw [hl, List.pairwise_append] at ih
    rw [hwhole] at hsorted ⊢
    rw [List.pairwise_append, List.pairwise_cons] at hsorted
    refine List.pairwise_append.mpr ⟨ih.1, List.pairwise_cons.mpr ⟨fun b hb => ?_, ih.2.1⟩, ?_⟩
    · exact ⟨hsorted.2.1.1 b hb, fun _ => hhead b (hmem b hb)⟩
    · intro b hb c hc
      rcases List.mem_cons.mp hc with rfl | hc
      · have hnot : le c b = false := by simpa using hbefore b hb
        refine ⟨by simpa [hnot] using htotal b c, fun hle => ?_⟩
        rw [hnot] at hle
        cases hle
      · exact ih.2.2 b hb c hc

def startsBefore (a b : Tree) : Bool := a.span.start ≤ b.span.start

theorem errors_eq (t : Tree) : t.errors =
    ((t.addressed.filter (·.2.isError)).mergeSort fun a b => startsBefore a.2 b.2).map (·.2) := by
  rw [errors, ← map_addressed, List.filter_map]
  exact (List.map_mergeSort (f := fun a : List Nat × Tree => a.2)
    (r := fun a b => startsBefore a.2 b.2) (fun _ _ _ _ => rfl)).symm

/-- Errors are sorted by where they begin and where they stand. -/
theorem exists_firstError {file : Tree}
    (h : ∃ steps error, file.descend? steps = some error ∧ error.kind = .error) :
    ∃ steps error rest, FirstError file steps error ∧ file.errors = error :: rest := by
  have hmem : ∀ steps error, (steps, error) ∈ (file.addressed.filter (·.2.isError)).mergeSort
      (fun a b => startsBefore a.2 b.2) ↔
        file.descend? steps = some error ∧ error.kind = .error := by
    intro steps error
    rw [List.mem_mergeSort, List.mem_filter, mem_addressed]
    simp [isError]
  have hsorted := @pairwise_mergeSort_stable _ (fun a b => startsBefore a.2 b.2) _
    (fun a b c => by simp only [startsBefore, decide_eq_true_eq]; omega)
    (fun a b => by simp only [startsBefore, Bool.or_eq_true, decide_eq_true_eq]; omega)
    _ ((pairwise_addressed file).filter (·.2.isError))
  rw [errors_eq]
  cases herrors : (file.addressed.filter (·.2.isError)).mergeSort
      (fun a b => startsBefore a.2 b.2) with
  | nil =>
    obtain ⟨steps, error, hfound⟩ := h
    have hin := (hmem steps error).mpr hfound
    rw [herrors] at hin
    cases hin
  | cons first rest =>
    rw [herrors] at hsorted hmem
    obtain ⟨hfound, hkind⟩ := (hmem first.1 first.2).mp List.mem_cons_self
    refine ⟨first.1, first.2, _, ⟨hfound, hkind, fun steps other hother hkind' hne => ?_⟩, rfl⟩
    rcases List.mem_cons.mp ((hmem steps other).mpr ⟨hother, hkind'⟩) with heq | hin
    · exact absurd (congrArg Prod.fst heq) hne
    · obtain ⟨hle, hlt⟩ := (List.pairwise_cons.mp hsorted).1 _ hin
      simp only [startsBefore, decide_eq_true_eq] at hle hlt
      rcases Nat.lt_or_eq_of_le hle with hless | heq
      · exact .inl hless
      · exact .inr ⟨heq, hlt (Nat.le_of_eq heq.symm)⟩

/-- A file that holds one template root only. -/
def alone (root : Tree) : Tree := .node .sourceFile root.span [root]

theorem errors_alone {root : Tree} (h : root.Everywhere (·.kind ≠ .error)) :
    root.alone.errors = [] := by
  have hfile : root.alone.Everywhere (·.kind ≠ .error) :=
    everywhere_iff.mpr ⟨by simp [alone, node], by simpa [alone, node] using h⟩
  exact errors_eq_nil (List.any_eq_false.mpr fun u hu => by simpa [isError] using hfile u hu)

end Tree

/-! ## Root by root -/

namespace Checked

variable {α β : Type} {f : α → Checked β} {as : List α}

theorem mapM_eq_ok_iff {bs : List β} :
    as.mapM f = .ok bs ↔ List.Forall₂ (fun a b => f a = .ok b) as bs := by
  induction as generalizing bs with
  | nil =>
    rw [List.mapM_nil, List.forall₂_nil_left_iff]
    exact ⟨fun h => (Except.ok.inj h).symm, fun h => congrArg Except.ok h.symm⟩
  | cons a as ih =>
    rw [List.mapM_cons, List.forall₂_cons_left_iff]
    constructor
    · intro h
      obtain ⟨b, hb, h⟩ := ok_of_bind h
      obtain ⟨rest, hrest, h⟩ := ok_of_bind h
      exact ⟨b, rest, hb, ih.mp hrest, (Except.ok.inj h).symm⟩
    · rintro ⟨b, rest, hb, hrest, rfl⟩
      rw [hb, ih.mpr hrest]
      rfl

/-- A list is refused for the first of its members that is. -/
theorem mapM_eq_error_iff {d : Diagnostic} : as.mapM f = .error d ↔ ∃ before a after,
    as = before ++ a :: after ∧ (∀ x ∈ before, ∃ b, f x = .ok b) ∧ f a = .error d := by
  induction as with
  | nil =>
    rw [List.mapM_nil]
    constructor
    · intro h
      cases h
    · rintro ⟨before, a, after, h, _⟩
      simp at h
  | cons a as ih =>
    rw [List.mapM_cons]
    cases ha : f a with
    | error e =>
      constructor
      · intro h
        obtain rfl := Except.error.inj h
        exact ⟨[], a, as, rfl, by simp, ha⟩
      · rintro ⟨before, x, after, hsplit, hbefore, hx⟩
        cases before with
        | nil =>
          obtain ⟨rfl, rfl⟩ := List.cons.inj hsplit
          rw [hx] at ha
          cases ha
          rfl
        | cons y before =>
          obtain ⟨rfl, rfl⟩ := List.cons.inj hsplit
          obtain ⟨b, hb⟩ := hbefore a List.mem_cons_self
          rw [hb] at ha
          cases ha
    | ok b =>
      have hmore : (as.mapM f >>= fun rest => pure (b :: rest)) = .error d ↔
          as.mapM f = .error d := by
        cases as.mapM f with
        | ok rest => exact ⟨fun h => (by cases h), fun h => (by cases h)⟩
        | error e => rfl
      refine hmore.trans (ih.trans ?_)
      constructor
      · rintro ⟨before, x, after, rfl, hbefore, hx⟩
        exact ⟨a :: before, x, after, rfl, List.forall_mem_cons.mpr ⟨⟨b, ha⟩, hbefore⟩, hx⟩
      · rintro ⟨before, x, after, hsplit, hbefore, hx⟩
        cases before with
        | nil =>
          obtain ⟨rfl, rfl⟩ := List.cons.inj hsplit
          rw [hx] at ha
          cases ha
        | cons y before =>
          obtain ⟨rfl, rfl⟩ := List.cons.inj hsplit
          exact ⟨before, x, after, rfl, fun z hz => hbefore z (List.mem_cons_of_mem _ hz), hx⟩

/-- A list is refused if one of its members is. -/
theorem exists_mapM_error {a : α} {d : Diagnostic} (hmem : a ∈ as) (ha : f a = .error d) :
    ∃ d, as.mapM f = .error d := by
  cases has : as.mapM f with
  | error e => exact ⟨e, rfl⟩
  | ok bs =>
    obtain ⟨i, hi, rfl⟩ := List.getElem_of_mem hmem
    have hok := List.forall₂_iff_get.mp (mapM_eq_ok_iff.mp has)
    have hget := hok.2 i hi (hok.1 ▸ hi)
    rw [List.get_eq_getElem, ha] at hget
    cases hget

end Checked

/-- The template that one root is read as. -/
def templateOf (source : Bytes) (root : Tree) : Checked Template := do
  return ⟨root.span, ← OfTree.rootOf source root.span root.children, ""⟩

theorem templatesOf_of_errors {source : Bytes} {file : Tree} (h : file.errors = []) :
    templatesOf source file = file.templateRoots.mapM (templateOf source) := by
  unfold templatesOf
  rw [h]
  rfl

theorem templatesOf_alone {source : Bytes} {root : Tree} (hkind : root.kind = .templateRoot)
    (hclean : root.Everywhere (·.kind ≠ .error)) :
    templatesOf source root.alone = (do return [← templateOf source root]) := by
  have hroots : root.alone.templateRoots = [root] := by
    simp [Tree.alone, Tree.node, Tree.templateRoots, Tree.childrenOf, hkind]
  rw [templatesOf_of_errors (Tree.errors_alone hclean), hroots, List.mapM_cons, List.mapM_nil]
  rfl

theorem templatesOf_alone_ok {source : Bytes} {root : Tree} (hkind : root.kind = .templateRoot)
    (hclean : root.Everywhere (·.kind ≠ .error)) {template : Template} :
    templatesOf source root.alone = .ok [template] ↔ templateOf source root = .ok template := by
  rw [templatesOf_alone hkind hclean]
  cases templateOf source root with
  | ok t =>
    constructor
    · intro h
      rw [(List.cons.inj (Except.ok.inj h)).1]
    · intro h
      rw [Except.ok.inj h]
      rfl
  | error e => exact ⟨fun h => (by cases h), fun h => (by cases h)⟩

theorem templatesOf_alone_error {source : Bytes} {root : Tree} (hkind : root.kind = .templateRoot)
    (hclean : root.Everywhere (·.kind ≠ .error)) {d : Diagnostic} :
    templatesOf source root.alone = .error d ↔ templateOf source root = .error d := by
  rw [templatesOf_alone hkind hclean]
  cases templateOf source root with
  | ok t => exact ⟨fun h => (by cases h), fun h => (by cases h)⟩
  | error e =>
    exact ⟨fun h => congrArg Except.error (Except.error.inj h),
      fun h => congrArg Except.error (Except.error.inj h)⟩

/-- Two errors that begin together, one of them further in, and before both one that begins
later. -/
def tiedErrors : Tree :=
  .node .sourceFile ⟨0, 9⟩
    [.node .templateRoot ⟨0, 9⟩
      [.error ⟨5, 6⟩ "late", .node .element ⟨1, 4⟩ [⟨.error, ⟨2, 2⟩, [], none⟩]],
    .error ⟨2, 3⟩ "tied"]

end ZigMarkup
