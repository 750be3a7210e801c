import ZigMarkup.Proofs.HostText
import ZigMarkup.Proofs.Lifting

/-!
Allocators from the template to the generated code. Each block of the code is opened for a
template root or for lifted control flow, and its builder is made with the allocator that the
root or the control flow inherits.
-/
namespace ZigMarkup

open Code

/-- Lifted nodes have the allocator of the tag around them. -/
theorem Template.allocator_of_lifted (template : Template) (fallback : String) {lifted : Lifted}
    (h : lifted ∈ (template.resolve fallback).lifted) :
    lifted.node.Under lifted.tags (template.resolve fallback).node ∧
      lifted.node.flowAllocator = (lifted.tags.head?.map Tag.allocator).getD fallback := by
  obtain ⟨inner, span, kind, subject, allocator, branches, htags, hnode, hunder⟩ :=
    (Node.liftedIn_of_mem _ []).2 false lifted h
  rw [List.append_nil] at htags
  subst htags
  refine ⟨hunder, ?_⟩
  rw [hnode]
  exact (template.supplied_resolve fallback hunder).2 _ _ _ _ _ hnode

/-- A resolved template has the allocator of its root. -/
theorem Template.allocator_resolve (template : Template) (fallback : String) :
    (template.resolve fallback).allocator =
      ((template.resolve fallback).node.tag?.map Tag.allocator).getD fallback := by
  unfold Template.resolve
  cases template.node.resolve fallback .html <;> rfl

/-- Allocators are inherited: resolving gives every tag and every construct of control flow the
allocator of its place and changes nothing else but modes and content, and in a file that
compiles the builder of each block is made with the allocator of what the block is for. -/
theorem allocators_inherited :
    (∀ (template : Template) (fallback : String),
      (template.resolve fallback).bare = template.bare ∧
      (template.resolve fallback).allocator =
        ((template.resolve fallback).node.tag?.map Tag.allocator).getD fallback ∧
      ∀ (tags : List Tag) (node : Node), node.Under tags (template.resolve fallback).node →
        node.Supplied fallback tags) ∧
    ∀ (options : Options) (source : String) (compiled : Compiled),
      compile options source = .ok compiled →
      ∃ templates codes, templatesOf (utf8 source) (parse (utf8 source)) = .ok templates ∧
        (((templates.map (Template.resolve options.defaultAllocator)).mapM ofTemplate).run {}).1 =
          codes ∧
        (templates ≠ [] → compiled.code =
          addedImport options (utf8 source) (parse (utf8 source)) ++
            (FileParts.ofSource source).replaced
              (layoutAll options (FileParts.ofSource source).margins codes)) ∧
        codes.map (fun code => code.opened.filterMap Opened.allocator?) =
          (templates.map (Template.resolve options.defaultAllocator)).map (fun resolved =>
            resolved.allocator :: resolved.lifted.map (·.node.flowAllocator)) ∧
        (∀ code ∈ codes, ∀ o ∈ code.opened,
          o.Written options.runtime (code.pieces options.runtime)) ∧
        ∀ template ∈ templates, ∀ lifted ∈ (template.resolve options.defaultAllocator).lifted,
          lifted.node.Under lifted.tags (template.resolve options.defaultAllocator).node ∧
          lifted.node.flowAllocator =
            (lifted.tags.head?.map Tag.allocator).getD options.defaultAllocator := by
  refine ⟨fun template fallback => ⟨template.bare_resolve fallback,
    template.allocator_resolve fallback, fun _ _ => template.supplied_resolve fallback⟩,
    fun options source compiled h => ?_⟩
  obtain ⟨templates, codes, counter, htemplates, hrun, _, _, _, hcode⟩ := code_of_compile h
  have hcodes : (((templates.map (Template.resolve options.defaultAllocator)).mapM
      ofTemplate).run {}).1 = codes := congrArg Prod.fst hrun
  obtain ⟨_, ⟨_, hblocks, _⟩, _⟩ := ofTemplates_names (lowered_of_mem_resolved htemplates _) {}
  exact ⟨templates, codes, htemplates, hcodes, hcode, hcodes ▸ hblocks,
    fun code _ => Expr.opened_written code,
    fun template _ _ hlifted => template.allocator_of_lifted _ hlifted⟩

/-- Two tags that declare allocators, each with control flow inside. -/
def inheritingSource : String :=
  "(<Card @allocator=\x7ba\x7d>\x7bfor (xs) |x| (<p @allocator=\x7bb\x7d>\x7bif (x) (<i/>)\x7d</p>)\x7d</Card>)"

theorem compile_inheriting : ∃ compiled, compile {} inheritingSource = .ok compiled :=
  Checked.exists_of_toBool (by decide +kernel)

theorem allocators_inherited_inner : ∃ compiled codes,
    compile {} inheritingSource = .ok compiled ∧
    compiled.code = importLine {} ++ (FileParts.ofSource inheritingSource).replaced
      (layoutAll {} [""] codes) ∧
    codes.map (fun code => code.opened.filterMap Opened.allocator?) = [["a", "a", "b"]] := by
  obtain ⟨compiled, hcompiled⟩ := compile_inheriting
  obtain ⟨templates, codes, htemplates, _, hcode, hblocks, _⟩ :=
    allocators_inherited.2 {} inheritingSource compiled hcompiled
  have hlifted : (templatesOf (utf8 inheritingSource) (parse (utf8 inheritingSource))).toOption.map
      (fun templates => (templates.map (Template.resolve "std.heap.page_allocator")).map
        fun resolved => resolved.allocator :: resolved.lifted.map (·.node.flowAllocator)) =
      some [["a", "a", "b"]] := by decide +kernel
  have himport : addedImport {} (utf8 inheritingSource) (parse (utf8 inheritingSource)) =
      importLine {} := by decide +kernel
  have hmargins : (FileParts.ofSource inheritingSource).margins = [""] := by decide +kernel
  rw [htemplates] at hlifted
  have hallocators := Option.some.inj hlifted
  rw [himport, hmargins] at hcode
  refine ⟨compiled, codes, hcompiled, hcode ?_, hblocks.trans hallocators⟩
  rintro rfl
  cases hallocators

end ZigMarkup
