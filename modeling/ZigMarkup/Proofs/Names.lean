import ZigMarkup.Proofs.Emission
import ZigMarkup.Proofs.HostText
import ZigMarkup.Proofs.Lifting

/-!
The names in the code for a sequence of templates. Blocks and lists take the numbers from zero
on in the order in which they are written, so no name stands for two things, and code uses a
name only where the block or the list that it stands for is in scope.
-/
namespace ZigMarkup

open Code

/-- A resolved template of some file. -/
def Template.Accepted (template : Template) : Prop :=
  ∃ source templates read allocator, templatesOf source (parse source) = .ok templates ∧
    read ∈ templates ∧ template = read.resolve allocator

theorem Template.Accepted.lowered {template : Template} (h : template.Accepted) :
    template.node.Everywhere Node.Lowered := by
  obtain ⟨source, templates, read, allocator, htemplates, hread, rfl⟩ := h
  exact resolve_lowered_of_templatesOf htemplates hread allocator

theorem Node.Under.everywhere {P : Node → Prop} {tags : List Tag} {node root : Node}
    (h : node.Under tags root) : root.Everywhere P → node.Everywhere P := by
  induction h with
  | refl => exact id
  | part hpart _ ih => exact fun hroot => ih (hroot.part hpart)

namespace Code

/-- What code calls a block and its builder, or a list. -/
def Opened.names : Opened → List String
  | .block id _ => [(BlockLabel.block id).text, (Builder.ofBlock id).text]
  | .list id => [(ListVar.fresh id).text]

/-- A number written behind a letter can be read back. -/
theorem digits_of_append_repr (stem : String) (h : stem.toList.reverse.takeWhile Char.isDigit = [])
    (n : Nat) : (stem ++ n.repr).toList.reverse.takeWhile Char.isDigit = n.repr.toList.reverse := by
  have hdigits : ∀ c ∈ n.repr.toList.reverse, c.isDigit = true := by
    intro c hc
    rw [List.mem_reverse, Nat.repr_eq_ofList_toDigits, String.toList_ofList] at hc
    exact Nat.isDigit_of_mem_toDigits (by decide) (by decide) hc
  rw [String.toList_append, List.reverse_append, List.takeWhile_append_of_pos hdigits, h,
    List.append_nil]

/-- No two things share a name: a name tells the number of what it stands for. -/
theorem Opened.id_eq_of_names {o o' : Opened} {name : String} (h : name ∈ o.names)
    (h' : name ∈ o'.names) : o.id = o'.id := by
  have hread : ∀ {o : Opened}, name ∈ o.names →
      name.toList.reverse.takeWhile Char.isDigit = o.id.repr.toList.reverse := by
    intro o ho
    cases o with
    | block id allocator =>
      rcases List.mem_cons.mp ho with rfl | ho
      · exact digits_of_append_repr "__zx_blk" (by decide) id
      · rw [List.mem_singleton.mp ho]
        exact digits_of_append_repr "__zx_b" (by decide) id
    | list id =>
      rw [List.mem_singleton.mp ho]
      exact digits_of_append_repr "__zx_list" (by decide) id
  have hsame := (hread h).symm.trans (hread h')
  exact Nat.repr_inj.mp (String.toList_inj.mp (List.reverse_inj.mp hsame))

/-- Things with different numbers have different names. -/
theorem names_nodup {opened : List Opened} (h : (opened.map Opened.id).Nodup) :
    (opened.flatMap Opened.names).Nodup := by
  refine List.pairwise_flatMap.mpr ⟨fun o _ => ?_, ?_⟩
  · cases o with
    | list id => exact List.nodup_singleton _
    | block id allocator =>
      refine List.nodup_cons.mpr ⟨fun hmem => ?_, List.nodup_singleton _⟩
      have hlength := congrArg String.length (List.mem_singleton.mp hmem)
      change ("__zx_blk" ++ id.repr).length = ("__zx_b" ++ id.repr).length at hlength
      simp only [String.length_append] at hlength
      exact absurd (Nat.add_right_cancel hlength) (by decide)
  · refine (List.pairwise_map.mp h).imp fun hne name hname name' hname' heq => hne ?_
    exact Opened.id_eq_of_names hname (heq ▸ hname')

/-- Emission from the start numbers everything from zero. -/
theorem Takes.from_start {α : Type} {x : EmitM α} {P : α → List Opened → Prop} (h : Takes x P) :
    ∃ taken, P (x.run {}).1 taken ∧ taken.map Opened.id = List.range (x.run {}).2.next ∧
      (x.run {}).2.blocks = (taken.filterMap Opened.allocator?).length := by
  obtain ⟨taken, hP, hids, hnext⟩ := h {}
  refine ⟨taken, hP, ?_, ?_⟩
  · change _ = List.range (x {}).2.next
    rw [hids, hnext, List.range_eq_range', Nat.zero_add]
  · change (x {}).2.blocks = _
    rw [hnext]
    exact Nat.zero_add _

/-- There is one block for each template and one for each lifted node. -/
theorem blocks_of_names {templates : List Template} {codes : List Expr}
    (h : codes.map (fun code => code.opened.filterMap Opened.allocator?) =
      templates.map (fun template =>
        template.allocator :: template.lifted.map (·.node.flowAllocator))) :
    ((codes.flatMap Expr.opened).filterMap Opened.allocator?).length =
      templates.length + (templates.flatMap Template.lifted).length := by
  have hlength : ∀ templates : List Template, (templates.flatMap fun template =>
      template.allocator :: template.lifted.map (·.node.flowAllocator)).length =
        templates.length + (templates.flatMap Template.lifted).length := by
    intro templates
    induction templates with
    | nil => rfl
    | cons template templates ih =>
      simp only [List.flatMap_cons, List.length_append, List.length_cons, List.length_map, ih]
      omega
  rw [List.filterMap_flatMap, List.flatMap_def, h, ← List.flatMap_def, hlength]

/-- What holds of the names in the code for templates that are emitted one after the other. -/
theorem ofTemplates_in_scope {templates : List Template}
    (h : ∀ template ∈ templates, template.node.Everywhere Node.Lowered) {codes : List Expr}
    {counter : Counter} (hrun : (templates.mapM ofTemplate).run {} = (codes, counter)) :
    (codes.flatMap Expr.opened).map Opened.id = List.range counter.next ∧
      (∀ code ∈ codes, code.Scoped none []) ∧
      counter.blocks = templates.length + (templates.flatMap Template.lifted).length := by
  obtain ⟨taken, ⟨rfl, hblocks, hscoped⟩, hids, hcount⟩ := (ofTemplates_names h).from_start
  rw [hrun] at hblocks hscoped hids hcount
  exact ⟨hids, hscoped, hcount.trans (blocks_of_names hblocks)⟩

end Code

end ZigMarkup
