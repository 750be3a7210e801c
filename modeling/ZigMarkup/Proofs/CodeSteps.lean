import Mathlib.Data.List.Forall2
import ZigMarkup.Code.OfTemplate
import ZigMarkup.Proofs.CodeRun

/-!
How runs of code compare to what the code stands for. A run is started among lists that have
no number from some bound on, since the numbers from there on may be declared by the code
itself. An expression yields its value and leaves the lists alone. A statement either adds
items to the list it appends to, or leaves the block it breaks to; the lists that were
declared on the way are dropped where the body ends.
-/
namespace ZigMarkup.Code

open RunM

variable {σ ν α β : Type} {host : Host σ ν} {n : Nat}

abbrev Lists (ν : Type) := List (ListVar × List (Built ν))

/-- No list has a number from `n` on. -/
def FreeFrom (n : Nat) (lists : Lists ν) : Prop := ∀ id, n ≤ id → .fresh id ∉ lists.map Prod.fst

theorem FreeFrom.mono {m : Nat} {lists : Lists ν} (h : FreeFrom n lists) (hm : n ≤ m) :
    FreeFrom m lists := fun id hid => h id (Nat.le_trans hm hid)

theorem FreeFrom.declare {id : Nat} {lists : Lists ν} (h : FreeFrom n lists) (hid : n ≤ id)
    (items : List (Built ν)) : FreeFrom (id + 1) ((.fresh id, items) :: lists) := by
  intro other hother hmem
  rw [List.map_cons, List.mem_cons] at hmem
  rcases hmem with hmem | hmem
  · cases hmem
    omega
  · exact h other (by omega) hmem

@[simp] theorem extend_names (list : ListVar) (items : List (Built ν)) (lists : Lists ν) :
    (extend list items lists).map Prod.fst = lists.map Prod.fst := by
  rw [extend, List.map_map]
  refine List.map_congr_left fun entry _ => ?_
  rw [Function.comp_apply]
  split <;> rfl

@[simp] theorem extend_length (list : ListVar) (items : List (Built ν)) (lists : Lists ν) :
    (extend list items lists).length = lists.length := List.length_map ..

theorem extend_nil (list : ListVar) (lists : Lists ν) : extend list [] lists = lists := by
  simp [extend]

theorem extend_append (list : ListVar) (first second : List (Built ν)) (lists : Lists ν) :
    extend list second (extend list first lists) = extend list (first ++ second) lists := by
  rw [extend, extend, extend, List.map_map]
  refine List.map_congr_left fun entry _ => ?_
  rw [Function.comp_apply]
  by_cases h : entry.1 = list <;> simp [h]

theorem extend_of_notMem {list : ListVar} {lists : Lists ν} (h : list ∉ lists.map Prod.fst)
    (items : List (Built ν)) : extend list items lists = lists := by
  have hsame : ∀ entry ∈ lists,
      (if entry.1 = list then (entry.1, entry.2 ++ items) else entry) = entry := by
    intro entry hentry
    have hne : entry.1 ≠ list := fun heq => h (heq ▸ List.mem_map_of_mem hentry)
    exact if_neg hne
  rw [extend, List.map_congr_left hsame, List.map_id']

theorem RunM.bind_of_some {x : RunM σ ν α} {f : α → RunM σ ν β} {m next : Memory σ ν} {a : α}
    (h : x m = some (a, next)) : (x >>= f) m = f a next := by
  change (x m >>= fun p => f p.1 p.2) = _
  rw [h]
  rfl

theorem RunM.inScope_of_some {x : RunM σ ν α} {m next : Memory σ ν} {a : α}
    (h : x m = some (a, next)) : inScope x m =
      some (a, ⟨next.host, next.lists.drop (next.lists.length - m.lists.length)⟩) := by
  rw [inScope, h]

theorem RunM.andThen_next {x rest : RunM σ ν (Exit ν)} {m next : Memory σ ν}
    (h : x m = some (.next, next)) : andThen x rest m = rest next := bind_of_some h

theorem RunM.andThen_leave {x rest : RunM σ ν (Exit ν)} {m next : Memory σ ν}
    {label : BlockLabel} {v : Built ν} (h : x m = some (.leave label v, next)) :
    andThen x rest m = some (.leave label v, next) := bind_of_some h

/-- A run yields what `den` says and changes no list. -/
def Yields (n : Nat) (run : RunM σ ν α) (den : StateM σ α) : Prop :=
  ∀ s lists, FreeFrom n lists → run ⟨s, lists⟩ = some ((den s).1, ⟨(den s).2, lists⟩)

theorem Yields.mono {m : Nat} {run : RunM σ ν α} {den : StateM σ α} (h : Yields m run den)
    (hm : n ≤ m) : Yields n run den := fun s lists hfree => h s lists (hfree.mono hm)

theorem Yields.pure (a : α) : Yields n (pure a : RunM σ ν α) (pure a) := fun _ _ _ => rfl

theorem Yields.ask (f : σ → α × σ) : Yields n (ask f : RunM σ ν α) f := fun _ _ _ => rfl

theorem Yields.bind {x : RunM σ ν α} {d : StateM σ α} {f : α → RunM σ ν β} {g : α → StateM σ β}
    (hx : Yields n x d) (hf : ∀ a, Yields n (f a) (g a)) : Yields n (x >>= f) (d >>= g) := by
  intro s lists hfree
  rw [bind_of_some (hx s lists hfree)]
  exact hf _ _ lists hfree

/-- A builder of an open block. -/
def Builder.Opened (blocks : List Nat) (b : Builder) : Prop := ∃ id ∈ blocks, b = .ofBlock id

theorem onBuilder_bind {blocks : List Nat} {b : Builder} (hb : b.Opened blocks)
    (x : RunM σ ν α) : (do onBuilder blocks b; x) = x := by
  obtain ⟨id, hid, rfl⟩ := hb
  simp [onBuilder, Builder.ofBlock, hid]

theorem Yields.called {blocks : List Nat} {b : Builder} {x : RunM σ ν α} {d : StateM σ α}
    (hb : b.Opened blocks) (hx : Yields n x d) :
    Yields n (do onBuilder blocks b; x) d := by
  rwa [onBuilder_bind hb]

/-- A run that ends as `post` says of the result of `den` and of the lists before and after. -/
def Ends (pre : Lists ν → Prop) (run : RunM σ ν (Exit ν)) (den : StateM σ α)
    (post : α → Lists ν → Exit ν → Lists ν → Prop) : Prop :=
  ∀ s lists, pre lists → ∃ exit next,
    run ⟨s, lists⟩ = some (exit, ⟨(den s).2, next⟩) ∧ post (den s).1 lists exit next

/-- A run that adds items to a list. -/
def Adds (n : Nat) (list : ListVar) (run : RunM σ ν (Exit ν)) (den : StateM σ (List (Built ν))) :
    Prop :=
  Ends (fun lists => FreeFrom n lists ∧ list ∈ lists.map Prod.fst) run den
    fun items lists exit next => exit = .next ∧ next = extend list items lists

/-- A run that leaves a block with a value. -/
def Leaves (n : Nat) (label : BlockLabel) (run : RunM σ ν (Exit ν)) (den : StateM σ (Built ν)) :
    Prop :=
  Ends (FreeFrom n) run den
    fun value lists exit next => exit = .leave label value ∧ ∃ extra, next = extra ++ lists

theorem Adds.done (n : Nat) (list : ListVar) :
    Adds n list (pure .next : RunM σ ν (Exit ν)) (pure []) := fun _ lists _ =>
  ⟨.next, lists, rfl, rfl, (extend_nil list lists).symm⟩

theorem Adds.andThen {list : ListVar} {first rest : RunM σ ν (Exit ν)}
    {xs ys : StateM σ (List (Built ν))} (hfirst : Adds n list first xs)
    (hrest : Adds n list rest ys) :
    Adds n list (andThen first rest) (do let x ← xs; let y ← ys; return x ++ y) := by
  intro s lists ⟨hfree, hlist⟩
  obtain ⟨_, _, hrun, rfl, rfl⟩ := hfirst s lists ⟨hfree, hlist⟩
  have hnames := extend_names list (xs s).1 lists
  have hpre : FreeFrom n (extend list (xs s).1 lists) ∧
      list ∈ (extend list (xs s).1 lists).map Prod.fst := by
    rw [FreeFrom, hnames]
    exact ⟨hfree, hlist⟩
  obtain ⟨_, _, hrun', rfl, rfl⟩ := hrest (xs s).2 _ hpre
  exact ⟨.next, _, (andThen_next hrun).trans hrun', rfl, extend_append ..⟩

theorem Adds.deliver {list : ListVar} {run : RunM σ ν (Built ν)} {den : StateM σ (Built ν)}
    (h : Yields n run den) : Adds n list (do append list (← run); return .next)
      (do return [← den]) := by
  intro s lists ⟨hfree, hlist⟩
  refine ⟨.next, extend list [(den s).1] lists, ?_, rfl, rfl⟩
  rw [bind_of_some (h s lists hfree)]
  have happend : append list (den s).1 ⟨(den s).2, lists⟩ =
      some ((), ⟨(den s).2, extend list [(den s).1] lists⟩) := if_pos hlist
  rw [bind_of_some happend]
  rfl

theorem Leaves.deliver {label : BlockLabel} {run : RunM σ ν (Built ν)} {den : StateM σ (Built ν)}
    (h : Yields n run den) : Leaves n label (do return .leave label (← run)) den := by
  intro s lists hfree
  refine ⟨.leave label (den s).1, lists, ?_, rfl, [], rfl⟩
  rw [bind_of_some (h s lists hfree)]
  rfl

/-- Nothing that follows is run. -/
theorem Leaves.andThen {label : BlockLabel} {first : RunM σ ν (Exit ν)} {den : StateM σ (Built ν)}
    (h : Leaves n label first den) (rest : RunM σ ν (Exit ν)) :
    Leaves n label (andThen first rest) den := by
  intro s lists hfree
  obtain ⟨_, next, hrun, rfl, hnext⟩ := h s lists hfree
  exact ⟨_, next, andThen_leave hrun, rfl, hnext⟩

/-- A body that adds items declares nothing that would be dropped at its end. -/
theorem Adds.inScope {list : ListVar} {run : RunM σ ν (Exit ν)} {den : StateM σ (List (Built ν))}
    (h : Adds n list run den) : Adds n list (inScope run) den := by
  intro s lists hpre
  obtain ⟨_, _, hrun, rfl, rfl⟩ := h s lists hpre
  refine ⟨.next, extend list (den s).1 lists, ?_, rfl, rfl⟩
  rw [inScope_of_some hrun]
  simp

/-- Past the end of the body that is left, the lists are what they were. -/
theorem Leaves.inScope {label : BlockLabel} {run : RunM σ ν (Exit ν)} {den : StateM σ (Built ν)}
    (h : Leaves n label run den) {s : σ} {lists : Lists ν} (hfree : FreeFrom n lists) :
    inScope run ⟨s, lists⟩ = some (.leave label (den s).1, ⟨(den s).2, lists⟩) := by
  obtain ⟨_, _, hrun, rfl, extra, rfl⟩ := h s lists hfree
  rw [inScope_of_some hrun]
  simp

theorem Leaves.block {blocks : List Nat} {id : Nat} {allocator : String} {body : List Stmt}
    {den : StateM σ (Built ν)} (hid : id ∉ blocks)
    (h : Leaves n (.block id) (execAll host (id :: blocks) body) den) :
    Yields n (Expr.eval host blocks (.block id allocator body)) den := by
  intro s lists hfree
  have hbody := h.inScope (s := s) hfree
  rw [Expr.eval, if_neg (by simpa using hid), bind_of_some hbody]
  simp only [if_true]
  rfl

theorem adds_loop {blocks : List Nat} {list : ListVar} {body : List Stmt}
    {items : StateM σ (List (Built ν))} (h : Adds n list (execAll host blocks body) items)
    (keyword head : String) :
    Adds n list (Stmt.exec host blocks (.loop keyword head body))
      (do let count ← host.rounds keyword head; host.repeated keyword head items count) := by
  have hround : Adds n list (do changeHost (host.turn keyword head); inScope (execAll host blocks body))
      (fun s => items (host.turn keyword head s)) :=
    fun s lists hpre => h.inScope (host.turn keyword head s) lists hpre
  have hrounds : ∀ count, Adds n list (rounds (do
      changeHost (host.turn keyword head); inScope (execAll host blocks body)) count)
      (host.repeated keyword head items count) := by
    intro count
    induction count with
    | zero => exact Adds.done n list
    | succ count ih => exact hround.andThen ih
  intro s lists hpre
  exact hrounds (host.rounds keyword head s).1 (host.rounds keyword head s).2 lists hpre

section Branches

variable {pre : Lists ν → Prop} {post : α → Lists ν → Exit ν → Lists ν → Prop}
  {blocks : List Nat} {otherwise : StateM σ α} {body : Alternative σ ν → StateM σ α}

/-- An arm that runs as one of the alternatives does. -/
structure ArmEnds (host : Host σ ν) (blocks : List Nat) (pre : Lists ν → Prop)
    (body : Alternative σ ν → StateM σ α) (post : α → Lists ν → Exit ν → Lists ν → Prop)
    (arm : Arm) (a : Alternative σ ν) : Prop where
  head : arm.head = a.head
  capture : arm.capture = a.capture
  body : Ends pre (inScope (execAll host blocks arm.body)) (body a) post

theorem Ends.captured {capture : Option String} {run : RunM σ ν (Exit ν)} {den : StateM σ α}
    (h : Ends pre run den post) :
    Ends pre (do bindCapture host capture; run) (host.captured capture den) post := by
  intro s lists hpre
  cases capture with
  | none => exact h s lists hpre
  | some text => exact h (host.capture text s) lists hpre

theorem Ends.condition {head : String} {yes no : RunM σ ν (Exit ν)} {d e : StateM σ α}
    (hyes : Ends pre yes d post) (hno : Ends pre no e post) :
    Ends pre (do if ← ask (host.holds head) then yes else no)
      (do if ← host.holds head then d else e) post := by
  intro s lists hpre
  have hask : (ask (host.holds head) : RunM σ ν Bool) ⟨s, lists⟩ =
      some ((host.holds head s).1, ⟨(host.holds head s).2, lists⟩) := rfl
  have hden : (do if ← host.holds head then d else e : StateM σ α) s =
      (if (host.holds head s).1 then d else e) (host.holds head s).2 := rfl
  rw [bind_of_some hask, hden]
  cases (host.holds head s).1 with
  | true => exact hyes _ lists hpre
  | false => exact hno _ lists hpre

/-- Only the last of these heads may be missing. -/
def ElseLast : List (Option String) → Prop
  | [] => True
  | [_] => True
  | head :: heads => head ≠ none ∧ ElseLast heads

/-- An `if` without `else` may take no branch at all, so the run must also end well then. -/
theorem ends_execElse {arms : List Arm} {alternatives : List (Alternative σ ν)}
    (harms : List.Forall₂ (ArmEnds host blocks pre body post) arms alternatives)
    (hlast : ElseLast (arms.map Arm.head))
    (hnone : (∀ arm ∈ arms, arm.head ≠ none) → Ends pre (pure .next) otherwise post) :
    Ends pre (execElse host blocks arms) (host.firstTaken otherwise body alternatives) post := by
  induction harms with
  | nil => exact hnone (by simp)
  | @cons arm a arms as harm harms ih =>
    obtain ⟨head, capture, stmts⟩ := arm
    obtain ⟨head', capture', single, items⟩ := a
    obtain ⟨hhead, hcapture, hbody⟩ := harm
    cases hhead
    cases hcapture
    cases head with
    | none =>
      cases harms with
      | nil => exact hbody.captured
      | cons _ _ => exact absurd rfl hlast.1
    | some head =>
      refine hbody.condition (ih ?_ ?_)
      · cases harms with
        | nil => trivial
        | cons _ _ => exact hlast.2
      · intro hall
        exact hnone fun arm harm => by
          rcases List.mem_cons.mp harm with rfl | harm
          · simp
          · exact hall arm harm

theorem ends_execProng {arms : List Arm} {alternatives : List (Alternative σ ν)}
    (harms : List.Forall₂ (ArmEnds host blocks pre body post) arms alternatives) {k : Nat}
    {a : Alternative σ ν} (hk : alternatives[k]? = some a) :
    Ends pre (execProng host blocks k arms) (host.captured a.capture (body a)) post := by
  induction harms generalizing k with
  | nil => simp at hk
  | @cons arm first arms as harm harms ih =>
    obtain ⟨head, capture, stmts⟩ := arm
    cases k with
    | zero =>
      cases hk
      rw [← harm.capture]
      exact harm.body.captured
    | succ k => exact ih (by simpa using hk)

theorem ends_switch {arms : List Arm} {alternatives : List (Alternative σ ν)} {subject : String}
    (harms : List.Forall₂ (ArmEnds host blocks pre body post) arms alternatives)
    (hne : alternatives ≠ []) :
    Ends pre (Stmt.exec host blocks (.switch subject arms))
      (host.selected subject otherwise body alternatives) post := by
  have hheads : arms.map (fun arm => arm.head.getD "else") =
      alternatives.map fun a => a.head.getD "else" := by
    clear hne
    induction harms with
    | nil => rfl
    | cons harm _ ih => rw [List.map_cons, List.map_cons, ih, harm.head]
  intro s lists hpre
  let patterns := alternatives.map fun a => a.head.getD "else"
  have hlt : (host.select subject patterns s).1 < alternatives.length := by
    have hpatterns : patterns ≠ [] := by simpa [patterns] using hne
    simpa [patterns] using host.select_lt subject patterns s hpatterns
  have hk := List.getElem?_eq_getElem hlt
  obtain ⟨exit, next, hrun, hpost⟩ :=
    ends_execProng harms hk (host.select subject patterns s).2 lists hpre
  have hden : host.selected subject otherwise body alternatives s =
      host.captured (alternatives[(host.select subject patterns s).1]).capture
        (body alternatives[(host.select subject patterns s).1])
        (host.select subject patterns s).2 := by
    have hselect : ∀ (f : Nat → StateM σ α), (host.select subject patterns >>= f) s =
        f (host.select subject patterns s).1 (host.select subject patterns s).2 := fun _ => rfl
    rw [Host.selected, hselect, hk]
  rw [hden]
  refine ⟨exit, next, ?_, hpost⟩
  rw [Stmt.exec, hheads]
  exact hrun

end Branches

end ZigMarkup.Code
