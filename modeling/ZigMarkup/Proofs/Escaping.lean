import ZigMarkup.Compile
import ZigMarkup.Proofs.EscapingChange
import ZigMarkup.Proofs.Written

/-!
Escaping from the source to the generated code. In a file that compiles, each text run and
expression block has the mode of the tag that it stands under, the code calls the method of that
mode for it, and another mode on one tag changes the methods of no other tag.
-/
namespace ZigMarkup

open Code

theorem templatesOf_of_compile {options : Options} {source : String} {compiled : Compiled}
    (h : compile options source = .ok compiled) :
    ∃ templates, templatesOf (utf8 source) (parse (utf8 source)) = .ok templates := by
  unfold compile at h
  dsimp only at h
  split at h
  · next hgenerate =>
    obtain ⟨templates, htemplates, _⟩ := Checked.ok_of_bind hgenerate
    exact ⟨templates, htemplates⟩
  · cases h

/-- The code of a template makes the calls of its leaves. -/
theorem ofTemplate_calls {template : Template} (h : template.node.Everywhere Node.Lowered)
    (hroot : template.node.isText = false) (c : Counter) :
    (ofTemplate template c).1.calls =
      (template.node.leaves [] none).filterMap (·.node.call?) := by
  have hdrop : template.node.isDropped = false := by
    cases hnode : template.node <;> first | rfl | (rw [hnode] at hroot; cases hroot)
  have hcalls := makesCalls template.node h hdrop
  have hblock : Makes (ofTemplate template) fun e => e.calls = template.node.calls :=
    Makes.inBlock fun id => hcalls.stmts (.ofBlock id) (.breakTo (.block id))
  exact hblock c

/-- In a file that compiles, escaping is decided by the tag that text and expressions stand
under: their mode is the one it declares, the code calls the method of that mode, and another
mode on the tag at one place changes nothing that stands under no tag or under another one. -/
theorem escaping_kept {options : Options} {source : String} {compiled : Compiled}
    (h : compile options source = .ok compiled) :
    ∃ templates, templatesOf (utf8 source) (parse (utf8 source)) = .ok templates ∧
      ∀ template ∈ templates, ∀ resolved, resolved = template.resolve options.defaultAllocator →
        (∀ node mode, node.Within resolved.node → node.escaping? = some mode →
          ∃ leaf ∈ resolved.node.leaves [] none, leaf.node = node) ∧
        (∀ leaf ∈ resolved.node.leaves [] none, ∀ mode, leaf.node.escaping? = some mode →
          (mode = .none ↔ ∃ place tag, leaf.owner = some (place, tag) ∧ tag.EscapingIs .none) ∧
          (mode = .html ↔ ∀ place tag, leaf.owner = some (place, tag) →
            (∀ span value, .builtin span .escaping value ∉ tag.attributes) ∨
              tag.EscapingIs .html)) ∧
        (∀ c, (ofTemplate resolved c).1.calls =
            (resolved.node.leaves [] none).filterMap (·.node.call?) ∧
          ∀ call ∈ (ofTemplate resolved c).1.calls,
            ∃ (b : Builder) (argument : String) (rest : List Piece),
            .text (b.call call.method ++ "(" ++ argument) :: rest <:+:
              (ofTemplate resolved c).1.pieces options.runtime) ∧
        (∀ place value other, (Escaping.ofText? value).isSome →
          other = (Template.mk template.span (template.node.rescape value place)
            template.allocator).resolve options.defaultAllocator →
          (∀ c, (ofTemplate other c).1.calls =
            (other.node.leaves [] none).filterMap (·.node.call?)) ∧
          other.node.marksApart place [] none = resolved.node.marksApart place [] none) := by
  obtain ⟨templates, htemplates⟩ := templatesOf_of_compile h
  refine ⟨templates, htemplates, fun template ht resolved hresolved => ?_⟩
  subst hresolved
  have hlowered := lowered_of_templatesOf htemplates ht
  have hroot := isText_of_templatesOf htemplates ht
  have hkept : ∀ node : Node, node.Everywhere Node.Lowered →
      (node.resolve options.defaultAllocator .html).Everywhere Node.Lowered :=
    fun node hnode => Node.resolve_lowered node options.defaultAllocator .html hnode
  refine ⟨fun node mode hwithin hmode => ?_, fun leaf hleaf mode hmode => ?_, fun c => ⟨?_, ?_⟩,
    fun place value other hvalue hother => ?_⟩
  · exact Node.exists_leaf_of_within hwithin (by rw [hmode]; rfl) [] none
  · exact Node.mode_of_mem_leaves_resolve hlowered hleaf hmode
  · exact ofTemplate_calls (hkept _ hlowered) (by simpa [Template.resolve] using hroot) c
  · intro call hcall
    obtain ⟨b, hwritten⟩ := Expr.written _ call hcall
    obtain ⟨argument, rest, hpieces⟩ := pieces_call options.runtime b call
    exact ⟨b, argument, rest, hpieces ▸ hwritten⟩
  · subst hother
    refine ⟨ofTemplate_calls (hkept _ (Node.rescape_lowered hvalue place _ hlowered)) ?_, ?_⟩
    · simpa [Template.resolve, Node.isText_rescape] using hroot
    · change Node.marksApart ([] ++ place) [] none (Node.resolve options.defaultAllocator .html
        (template.node.rescape value place)) = Node.marksApart ([] ++ place) [] none
          (Node.resolve options.defaultAllocator .html template.node)
      exact Node.marksApart_rescape value place template.node

def rawSource : String := "(<p @escaping=.none>a\x7bx\x7d<b>\x7by\x7d</b></p>)"

theorem compile_raw : ∃ compiled, compile {} rawSource = .ok compiled := by
  have h : (compile {} rawSource).toBool = true := by decide +kernel
  cases hcompile : compile {} rawSource with
  | ok compiled => exact ⟨compiled, rfl⟩
  | error => rw [hcompile] at h; cases h

theorem calls_raw : (templatesOf (utf8 rawSource) (parse (utf8 rawSource))).toOption.map
    (List.map fun template => (template.resolve "std.heap.page_allocator").node.calls) =
      some [[.text true "a", .value true "x", .value false "y"]] := by
  decide +kernel

theorem escaping_kept_raw : ∃ template,
    templatesOf (utf8 rawSource) (parse (utf8 rawSource)) = .ok [template] ∧
      (ofTemplate (template.resolve "std.heap.page_allocator") {}).1.calls =
        [.text true "a", .value true "x", .value false "y"] := by
  obtain ⟨compiled, hcompiled⟩ := compile_raw
  obtain ⟨templates, htemplates, h⟩ := escaping_kept hcompiled
  have hcalls := calls_raw
  rw [htemplates] at hcalls ⊢
  obtain ⟨template, rfl, hcall⟩ := List.map_eq_singleton_iff.mp (Option.some.inj hcalls)
  obtain ⟨_, _, hmade, _⟩ := h template (List.mem_singleton.mpr rfl) _ rfl
  exact ⟨template, rfl, (hmade {}).1.trans hcall⟩

end ZigMarkup
