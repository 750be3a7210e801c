import ZigMarkup.Proofs.CodeSteps
import ZigMarkup.Proofs.Lowered

/-!
The statements for control flow. All numbers that emission gives out from a counter on are at
least that counter, so code for a later part never meets a list or block of an earlier one.
Given arms that serve a sink as the branches of a construct ask, the statements for the whole
construct serve it too: an `if` or switch through the arm that is taken, and a loop in the
place of a value through a list of its own.
-/
namespace ZigMarkup.Code

open RunM

variable {σ ν α β : Type} {host : Host σ ν} {n : Nat} {blocks : List Nat} {b : Builder}

/-- Emission from any counter at or past `n` keeps it there and makes what `P` says. -/
def Emits (n : Nat) (x : EmitM α) (P : α → Prop) : Prop :=
  ∀ c : Counter, n ≤ c.next → n ≤ (x c).2.next ∧ P (x c).1

theorem Emits.pure {a : α} {P : α → Prop} (h : P a) : Emits n (pure a) P := fun _ hc => ⟨hc, h⟩

theorem Emits.bind {x : EmitM α} {f : α → EmitM β} {P : α → Prop} {Q : β → Prop}
    (hx : Emits n x P) (hf : ∀ a, P a → Emits n (f a) Q) : Emits n (x >>= f) Q := by
  intro c hc
  obtain ⟨hnext, ha⟩ := hx c hc
  exact hf _ ha (x c).2 hnext

theorem Emits.mono {x : EmitM α} {P Q : α → Prop} (hx : Emits n x P) (h : ∀ a, P a → Q a) :
    Emits n x Q := fun c hc => ⟨(hx c hc).1, h _ (hx c hc).2⟩

theorem Emits.freshList {f : ListVar → EmitM α} {P : α → Prop}
    (h : ∀ id, n ≤ id → Emits (id + 1) (f (.fresh id)) P) : Emits n (freshList >>= f) P := by
  intro c hc
  have hrest := h c.next hc ⟨c.next + 1, c.blocks⟩ (Nat.le_refl _)
  exact ⟨Nat.le_trans (Nat.le_succ_of_le hc) hrest.1, hrest.2⟩

theorem Emits.inBlock {allocator : String} {body : Nat → EmitM (List Stmt)} {P : Expr → Prop}
    (h : ∀ id, n ≤ id → Emits (id + 1) (body id) fun stmts => P (.block id allocator stmts)) :
    Emits n (inBlock allocator body) P := by
  intro c hc
  have hrest := h c.next hc ⟨c.next + 1, c.blocks + 1⟩ (Nat.le_refl _)
  exact ⟨Nat.le_trans (Nat.le_succ_of_le hc) hrest.1, hrest.2⟩

/-- Statements that deliver one value to a block, or items to a list. -/
def Serves (host : Host σ ν) (n : Nat) (blocks : List Nat) (sink : Sink)
    (single : StateM σ (Built ν)) (items : StateM σ (List (Built ν))) (stmts : List Stmt) : Prop :=
  match sink with
  | .breakTo label => Leaves n label (execAll host blocks stmts) single
  | .appendTo list => Adds n list (execAll host blocks stmts) items

/-- One statement that adds items is the whole body. -/
theorem Adds.only {list : ListVar} {stmt : Stmt} {items : StateM σ (List (Built ν))}
    (h : Adds n list (Stmt.exec host blocks stmt) items) :
    Adds n list (execAll host blocks [stmt]) items := by
  intro s lists hpre
  obtain ⟨exit, next, hrun, hexit, hnext⟩ := h s lists hpre
  subst hexit
  exact ⟨.next, next, andThen_next hrun, rfl, hnext⟩

theorem deliver_serves (sink : Sink) {e : Expr} {den : StateM σ (Built ν)}
    (h : Yields n (e.eval host blocks) den) :
    Serves host n blocks sink den (do return [← den]) [.deliver sink e] := by
  cases sink with
  | breakTo label =>
    have hleave : Leaves n label (Stmt.exec host blocks (.deliver (.breakTo label) e)) den := by
      rw [Stmt.exec]
      exact Leaves.deliver h
    exact hleave.andThen _
  | appendTo list =>
    refine Adds.only ?_
    rw [Stmt.exec]
    exact Adds.deliver h

/-- An arm that serves a sink as one of the alternatives does. -/
structure ArmServes (host : Host σ ν) (n : Nat) (blocks : List Nat) (sink : Sink) (arm : Arm)
    (a : Alternative σ ν) : Prop where
  head : arm.head = a.head
  capture : arm.capture = a.capture
  body : Serves host n blocks sink a.single a.items arm.body

theorem ArmServes.ends_leave {label : BlockLabel} {arm : Arm} {a : Alternative σ ν}
    {post : Built ν → Lists ν → Exit ν → Lists ν → Prop}
    (h : ArmServes host n blocks (.breakTo label) arm a)
    (hpost : ∀ value lists, post value lists (.leave label value) lists) :
    ArmEnds host blocks (FreeFrom n) Alternative.single post arm a :=
  ⟨h.head, h.capture, fun _ lists hfree =>
    ⟨_, lists, Leaves.inScope h.body hfree, hpost _ lists⟩⟩

theorem ArmServes.ends_next {list : ListVar} {arm : Arm} {a : Alternative σ ν}
    (h : ArmServes host n blocks (.appendTo list) arm a) :
    ArmEnds host blocks (fun lists => FreeFrom n lists ∧ list ∈ lists.map Prod.fst)
      Alternative.items (fun items lists exit next => exit = .next ∧ next = extend list items lists)
      arm a := ⟨h.head, h.capture, Adds.inScope h.body⟩

theorem heads_of_serves {sink : Sink} {arms : List Arm} {alternatives : List (Alternative σ ν)}
    (h : List.Forall₂ (ArmServes host n blocks sink) arms alternatives) :
    arms.map Arm.head = alternatives.map Alternative.head := by
  induction h with
  | nil => rfl
  | cons harm _ ih => rw [List.map_cons, List.map_cons, ih, harm.head]

theorem elseLast_of_arranged {heads : List (Option String)} (h : FlowKind.ifElse.Arranged heads) :
    ElseLast heads := by
  obtain ⟨first, others, last?, rfl⟩ := h
  induction others generalizing first with
  | nil =>
    cases last? with
    | none => trivial
    | some last => exact ⟨by simp, trivial⟩
  | cons second others ih => exact ⟨by simp, ih second⟩

theorem exec_ifChain {arms : List Arm} (h : FlowKind.ifElse.Arranged (arms.map Arm.head)) :
    Stmt.exec host blocks (.ifChain arms) = execElse host blocks arms := by
  obtain ⟨first, others, last?, hheads⟩ := h
  match arms, hheads with
  | [], hheads => cases hheads
  | ⟨head, capture, body⟩ :: rest, hheads =>
    have hhead : head = some first := (List.cons.inj hheads).1
    subst hhead
    rw [Stmt.exec, execElse]

section Flow

variable {arms : List Arm} {alternatives : List (Alternative σ ν)} {subject : Option String}

theorem ifChain_adds {list : ListVar}
    (harranged : FlowKind.ifElse.Arranged (alternatives.map Alternative.head))
    (harms : List.Forall₂ (ArmServes host n blocks (.appendTo list)) arms alternatives) :
    Adds n list (Stmt.exec host blocks (.ifChain arms))
      (host.flowItems .ifElse subject alternatives) := by
  rw [← heads_of_serves harms] at harranged
  rw [exec_ifChain harranged]
  exact ends_execElse (harms.imp fun _ _ h => h.ends_next) (elseLast_of_arranged harranged)
    fun _ => Adds.done n list

/-- Where no branch is taken, the statement after the chain breaks with nothing. -/
theorem ifChain_leaves {label : BlockLabel} (hb : b.Opened blocks)
    (harranged : FlowKind.ifElse.Arranged (alternatives.map Alternative.head))
    (harms : List.Forall₂ (ArmServes host n blocks (.breakTo label)) arms alternatives) :
    Leaves n label (execAll host blocks (.ifChain arms ::
        if arms.any (·.head.isNone) then [] else [Stmt.deliver (.breakTo label) (.empty b)]))
      (host.flowValue .ifElse subject alternatives) := by
  rw [← heads_of_serves harms] at harranged
  let post := fun (value : Built ν) (lists : Lists ν) (exit : Exit ν) (next : Lists ν) =>
    next = lists ∧ (exit = .leave label value ∨
      (exit = .next ∧ value = .empty ∧ ∀ arm ∈ arms, arm.head ≠ none))
  have hchain : Ends (FreeFrom n) (execElse host blocks arms)
      (host.flowValue .ifElse subject alternatives) post := by
    refine ends_execElse (harms.imp fun _ _ h => h.ends_leave fun _ _ => ⟨rfl, Or.inl rfl⟩)
      (elseLast_of_arranged harranged) fun hall s lists _ => ?_
    exact ⟨.next, lists, rfl, rfl, Or.inr ⟨rfl, rfl, hall⟩⟩
  intro s lists hfree
  obtain ⟨exit, next, hrun, hnext, hexit⟩ := hchain s lists hfree
  subst hnext
  rw [← exec_ifChain harranged] at hrun
  rcases hexit with rfl | ⟨rfl, hempty, hall⟩
  · exact ⟨_, _, andThen_leave hrun, rfl, [], rfl⟩
  · have hany : arms.any (·.head.isNone) = false := by
      rw [List.any_eq_false]
      intro arm harm
      simpa using hall arm harm
    have hvalue : Yields n (Expr.eval host blocks (.empty b)) (pure .empty) := by
      rw [Expr.eval]
      exact (Yields.pure _).called hb
    obtain ⟨exit, next, hlast, hexit, hextra⟩ :=
      deliver_serves (.breakTo label) hvalue
        (host.flowValue .ifElse subject alternatives s).2 next hfree
    refine ⟨exit, next, ?_, ?_, hextra⟩
    · rw [hany]
      exact (andThen_next hrun).trans hlast
    · rw [hexit, hempty]
      rfl

theorem switch_adds {list : ListVar} (hne : alternatives ≠ [])
    (harms : List.Forall₂ (ArmServes host n blocks (.appendTo list)) arms alternatives) :
    Adds n list (Stmt.exec host blocks (.switch (subject.getD "") arms))
      (host.flowItems .switch subject alternatives) :=
  ends_switch (harms.imp fun _ _ h => h.ends_next) hne

theorem switch_leaves {label : BlockLabel} (hne : alternatives ≠ [])
    (harms : List.Forall₂ (ArmServes host n blocks (.breakTo label)) arms alternatives) :
    Leaves n label (Stmt.exec host blocks (.switch (subject.getD "") arms))
      (host.flowValue .switch subject alternatives) :=
  ends_switch (harms.imp fun _ _ h => h.ends_leave fun _ _ => ⟨rfl, [], rfl⟩) hne

theorem loopOver_adds (flow : FlowKind) {list : ListVar} (hne : alternatives ≠ [])
    (harms : List.Forall₂ (ArmServes host n blocks (.appendTo list)) arms alternatives) :
    Adds n list (Stmt.exec host blocks (loopOver flow arms))
      (host.looped flow.keyword alternatives) := by
  cases harms with
  | nil => exact absurd rfl hne
  | @cons arm a _ _ harm _ =>
    rw [loopOver, harm.head]
    exact adds_loop harm.body flow.keyword (a.head.getD "")

/-- A loop in the place of a value collects in a list of its own, which is given up again. -/
theorem loop_leaves {flow : FlowKind} {label : BlockLabel} {id : Nat} (hb : b.Opened blocks)
    (hid : n ≤ id) (hne : alternatives ≠ [])
    (harms : List.Forall₂ (ArmServes host (id + 1) blocks (.appendTo (.fresh id))) arms
      alternatives) :
    Leaves n label (execAll host blocks [.declare (.fresh id) b, loopOver flow arms,
        .deliver (.breakTo label) (.collected b (.fresh id))])
      (do return .fragment (← host.looped flow.keyword alternatives)) := by
  intro s lists hfree
  have hdeclare : Stmt.exec host blocks (.declare (.fresh id) b) ⟨s, lists⟩ =
      some (.next, ⟨s, (.fresh id, []) :: lists⟩) := by
    rw [Stmt.exec, onBuilder_bind hb]
    have hnew : declare (.fresh id) ⟨s, lists⟩ =
        some ((), (⟨s, (.fresh id, []) :: lists⟩ : Memory σ ν)) := if_neg (hfree id hid)
    exact bind_of_some hnew
  obtain ⟨_, _, hloop, rfl, rfl⟩ := loopOver_adds flow hne harms s
    ((.fresh id, []) :: lists) ⟨hfree.declare hid [], by simp⟩
  let items := (host.looped flow.keyword alternatives s).1
  have hlists : extend (.fresh id) items ((.fresh id, []) :: lists) = (.fresh id, items) :: lists := by
    have hrest := extend_of_notMem (hfree id hid) items
    simp only [extend, List.map_cons, if_true, List.nil_append] at hrest ⊢
    rw [hrest]
  rw [hlists] at hloop
  let after : Memory σ ν :=
    ⟨(host.looped flow.keyword alternatives s).2, (.fresh id, items) :: lists⟩
  have hcontents : contents (.fresh id) after = some (items, after) := by
    simp [contents, after]
  have hvalue : Expr.eval host blocks (.collected b (.fresh id)) after =
      some (.fragment items, after) := by
    rw [Expr.eval, onBuilder_bind hb]
    exact bind_of_some hcontents
  have hlast : Stmt.exec host blocks (.deliver (.breakTo label) (.collected b (.fresh id))) after =
      some (.leave label (.fragment items), after) := by
    rw [Stmt.exec]
    exact bind_of_some hvalue
  refine ⟨.leave label (.fragment items), (.fresh id, items) :: lists, ?_, rfl,
    [(.fresh id, items)], rfl⟩
  exact (andThen_next hdeclare).trans ((andThen_next hloop).trans (andThen_leave hlast))

/-- Statements for control flow serve their sink if the arms do. -/
theorem flowStatements_emits {flow : FlowKind} {arms : Sink → EmitM (List Arm)}
    (hb : b.Opened blocks) (harranged : flow.Arranged (alternatives.map Alternative.head))
    (harms : ∀ m sink, n ≤ m → Emits m (arms sink) fun as =>
      List.Forall₂ (ArmServes host m blocks sink) as alternatives) (sink : Sink) :
    Emits n (flowStatements b sink flow subject arms) (Serves host n blocks sink
      (host.flowValue flow subject alternatives) (host.flowItems flow subject alternatives)) := by
  have hloop : ∀ flow : FlowKind, (∃ head, alternatives.map Alternative.head = [some head]) →
      Emits n (match sink with
        | .appendTo _ => do return [loopOver flow (← arms sink)]
        | .breakTo _ => do
          let list ← freshList
          let arms ← arms (.appendTo list)
          return [.declare list b, loopOver flow arms, .deliver sink (.collected b list)])
        (Serves host n blocks sink
          (do return .fragment (← host.looped flow.keyword alternatives))
          (host.looped flow.keyword alternatives)) := by
    intro flow hone
    have hne : alternatives ≠ [] := by
      rintro rfl
      simp at hone
    cases sink with
    | breakTo label =>
      refine Emits.freshList fun id hid => ?_
      refine (harms (id + 1) (.appendTo (.fresh id)) (by omega)).bind fun as has => .pure ?_
      exact loop_leaves hb hid hne has
    | appendTo list =>
      refine (harms n (.appendTo list) (Nat.le_refl n)).bind fun as has => .pure ?_
      exact (loopOver_adds flow hne has).only
  have hown := harms n sink (Nat.le_refl n)
  cases flow with
  | ifElse =>
    cases sink with
    | breakTo label => exact hown.bind fun as has => .pure (ifChain_leaves hb harranged has)
    | appendTo list => exact hown.bind fun as has => .pure (ifChain_adds harranged has).only
  | switch =>
    have hne : alternatives ≠ [] := by
      rintro rfl
      exact harranged rfl
    cases sink with
    | breakTo label => exact hown.bind fun as has => .pure ((switch_leaves hne has).andThen _)
    | appendTo list => exact hown.bind fun as has => .pure (switch_adds hne has).only
  | forLoop =>
    have h := hloop .forLoop harranged
    cases sink <;> exact h
  | whileLoop =>
    have h := hloop .whileLoop harranged
    cases sink <;> exact h

end Flow

end ZigMarkup.Code
