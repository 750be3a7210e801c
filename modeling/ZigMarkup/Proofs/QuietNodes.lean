import ZigMarkup.Proofs.Calls
import ZigMarkup.Proofs.Inheritance
import ZigMarkup.Proofs.QuietCode
import ZigMarkup.Proofs.ReadTexts

/-!
Templates whose host code is quiet. Names, string literals and template strings are read in such
a way that they bring no root; host code is copied as it stands, so it has to be quiet itself.
Resolving adds nothing but allocators, and emission makes tidy code of all this.
-/
namespace ZigMarkup

/-- The host code of an attribute that is copied into the code. -/
def Attribute.hostCode : Attribute → List String
  | .static _ _ (.expr code) => [code]
  | .static _ _ (.literal _) | .static _ _ (.node _) | .static _ _ .flag => []
  | .builtin _ b value => if b = .escaping then [] else [value]
  | .shorthand _ _ | .builtinShorthand _ _ => []
  | .spread _ code => [code]
  | .formatted _ _ _ args => args.map trim

def Branch.hostCode (branch : Branch) : List String := branch.head.toList ++ branch.capture.toList

/-- The host code of a node itself, without that of its parts. -/
def Node.ownCode : Node → List String
  | .element tag _ | .selfClosing tag => tag.attributes.flatMap Attribute.hostCode
  | .fragment _ _ | .text _ _ _ _ => []
  | .expr _ code _ => [code]
  | .flow _ _ subject _ branches => subject.toList ++ branches.flatMap Branch.hostCode

namespace Node

mutual
/-- The host code of a node and of its parts, in the order in which it is written. -/
def hostCode : Node → List String
  | element ⟨_, _, _, attributes, _, _⟩ children => attributeCode attributes ++ childCode children
  | selfClosing ⟨_, _, _, attributes, _, _⟩ => attributeCode attributes
  | fragment _ children => childCode children
  | expr _ code _ => [code]
  | text _ _ _ _ => []
  | flow _ _ subject _ branches => subject.toList ++ branchCode branches

def childCode : List Node → List String
  | [] => []
  | node :: nodes => hostCode node ++ childCode nodes

def attributeCode : List Attribute → List String
  | [] => []
  | .static _ _ (.node node) :: rest => hostCode node ++ attributeCode rest
  | a :: rest => a.hostCode ++ attributeCode rest

def branchCode : List Branch → List String
  | [] => []
  | ⟨_, head, capture, .node node⟩ :: rest =>
    head.toList ++ capture.toList ++ hostCode node ++ branchCode rest
  | ⟨_, head, capture, .list nodes⟩ :: rest =>
    head.toList ++ capture.toList ++ childCode nodes ++ branchCode rest
end

theorem childCode_eq (nodes : List Node) : childCode nodes = nodes.flatMap hostCode := by
  induction nodes with
  | nil => rfl
  | cons node nodes ih => rw [childCode, ih, List.flatMap_cons]

theorem attributeCode_eq (attributes : List Attribute) : attributeCode attributes =
    attributes.flatMap fun a => a.hostCode ++ a.node?.toList.flatMap hostCode := by
  induction attributes with
  | nil => rfl
  | cons a rest ih =>
    rw [List.flatMap_cons, ← ih]
    match a with
    | .static _ _ (.node node) =>
      rw [attributeCode]
      simp [Attribute.hostCode, Attribute.node?]
    | .static _ _ (.literal _) | .static _ _ (.expr _) | .static _ _ .flag => rfl
    | .builtin _ _ _ => simp [attributeCode, Attribute.node?]
    | .shorthand _ _ | .builtinShorthand _ _ | .spread _ _ => rfl
    | .formatted _ _ _ _ => simp [attributeCode, Attribute.node?]

theorem branchCode_eq (branches : List Branch) : branchCode branches =
    branches.flatMap fun b => b.hostCode ++ b.body.all.flatMap hostCode := by
  induction branches with
  | nil => rfl
  | cons branch rest ih =>
    obtain ⟨span, head, capture, body⟩ := branch
    rw [List.flatMap_cons, ← ih]
    cases body with
    | node node => simp [branchCode, Branch.hostCode, Body.all]
    | list nodes => simp [branchCode, Branch.hostCode, Body.all, childCode_eq]

theorem mem_attributeCode {attributes : List Attribute} {code : String} :
    code ∈ attributeCode attributes ↔ code ∈ attributes.flatMap Attribute.hostCode ∨
      ∃ part ∈ attributes.filterMap Attribute.node?, code ∈ part.hostCode := by
  simp only [attributeCode_eq, List.mem_flatMap, List.mem_append, List.mem_filterMap,
    Option.mem_toList]
  grind

/-- The host code of a node is its own and that of its parts. -/
theorem mem_hostCode {node : Node} {code : String} : code ∈ node.hostCode ↔
    code ∈ node.ownCode ∨ ∃ part ∈ node.parts, code ∈ part.hostCode := by
  cases node with
  | element tag children =>
    obtain ⟨span, name, kind, attributes, mode, allocator⟩ := tag
    simp only [hostCode, ownCode, parts, List.mem_append, mem_attributeCode, childCode_eq,
      List.mem_flatMap]
    grind
  | selfClosing tag =>
    obtain ⟨span, name, kind, attributes, mode, allocator⟩ := tag
    exact mem_attributeCode
  | fragment span children => simp [hostCode, ownCode, parts, childCode_eq]
  | expr => simp [hostCode, ownCode, parts]
  | text => simp [hostCode, ownCode, parts]
  | flow span kind subject allocator branches =>
    simp only [hostCode, ownCode, parts, branchCode_eq, List.mem_append, List.mem_flatMap]
    grind

theorem everywhere_ownCode {P : String → Prop} (node : Node) : (∀ code ∈ node.hostCode, P code) →
    node.Everywhere fun n => ∀ code ∈ n.ownCode, P code := by
  induction node using induction_on_parts with
  | h node ih =>
    intro h
    refine everywhere_iff.mpr ⟨fun code hcode => h code (mem_hostCode.mpr (.inl hcode)), ?_⟩
    exact fun part hpart => ih part hpart fun code hcode =>
      h code (mem_hostCode.mpr (.inr ⟨part, hpart, hcode⟩))

end Node

/-- The host code that compiling copies out of the templates of a file. -/
def copiedCode (source : String) : List String :=
  match templatesOf (utf8 source) (parse (utf8 source)) with
  | .ok templates => templates.flatMap (·.node.hostCode)
  | .error _ => []

/-! ## Tidy nodes -/

/-- A literal only begins where code begins, so it may be any string literal. -/
def Attribute.Tidy : Attribute → Prop
  | .static _ _ (.literal text) => Leads .code .line (utf8 text)
  | .static _ _ (.expr code) => Quiet code
  | .static _ _ (.node _) | .static _ _ .flag => True
  | .builtin _ b value => b ≠ .escaping → Quiet value
  | .shorthand _ ident => Quiet ident
  | .builtinShorthand _ _ => True
  | .spread _ code => Quiet code
  | .formatted _ _ format args => Code.FormatTidy format args

structure Tag.Tidy (tag : Tag) : Prop where
  name : Steady tag.name
  attributes : ∀ a ∈ tag.attributes, a.Tidy

structure Branch.Tidy (branch : Branch) : Prop where
  head : ∀ code ∈ branch.head, Quiet code
  capture : ∀ code ∈ branch.capture, Quiet code

/-- A node whose own names and host code bring no root. -/
def Node.Tidy : Node → Prop
  | .element tag _ | .selfClosing tag => tag.Tidy
  | .fragment _ _ | .text _ _ _ _ => True
  | .expr _ code _ => Quiet code
  | .flow _ _ subject allocator branches =>
    (∀ code ∈ subject, Quiet code) ∧ Quiet allocator ∧ ∀ branch ∈ branches, branch.Tidy

theorem Builtin.steady_name (b : Builtin) : Steady b.name := .of_glue (by cases b <;> decide)

theorem Tag.Tidy.quiet_builtin {tag : Tag} (h : tag.Tidy) {b : Builtin} (hb : b ≠ .escaping)
    {value : String} (hvalue : tag.builtin? b = some value) : Quiet value := by
  obtain ⟨a, ha, hfound⟩ := List.exists_of_findSome?_eq_some hvalue
  have htidy := h.attributes a ha
  cases a with
  | builtin span other text =>
    rw [Attribute.builtinValue?] at hfound
    split at hfound
    · next heq =>
      cases hfound
      exact htidy (heq ▸ hb)
    · cases hfound
  | builtinShorthand span other =>
    rw [Attribute.builtinValue?] at hfound
    split at hfound
    · cases hfound
      exact b.steady_name.quiet
    · cases hfound
  | _ => cases hfound

/-! ## Reading -/

theorem steady_of_name {s : String} (h : (utf8 s).all isNameByte = true) : Steady s :=
  .of_glue (List.all_eq_true.mpr fun b hb => isGlue_of_isNameByte (List.all_eq_true.mp h b hb))

theorem Attribute.Lexed.tidy {a : Attribute} (h : a.Lexed)
    (hcode : ∀ code ∈ a.hostCode, Quiet code) : a.Tidy := by
  cases a with
  | static span name value =>
    cases value with
    | literal text =>
      rcases h with hstring | rfl
      · exact (leads_string hstring).to_line
      · exact Leads.nil.to_line
    | expr code => exact hcode code (List.mem_singleton.mpr rfl)
    | node | flag => trivial
  | builtin span b value => exact fun hb => hcode value (by simp [Attribute.hostCode, hb])
  | shorthand span ident => exact (steady_of_name h).quiet
  | builtinShorthand => trivial
  | spread span code => exact hcode code (List.mem_singleton.mpr rfl)
  | formatted span name format args => exact ⟨h, fun arg harg => hcode _ (List.mem_map_of_mem harg)⟩

theorem Tag.Lexed.tidy {tag : Tag} (h : tag.Lexed)
    (hcode : ∀ code ∈ tag.attributes.flatMap Attribute.hostCode, Quiet code) : tag.Tidy :=
  ⟨steady_of_name h.name, fun a ha =>
    (h.attributes a ha).tidy fun code hc => hcode code (List.mem_flatMap.mpr ⟨a, ha, hc⟩)⟩

/-- A node that was read is tidy if its host code is quiet. -/
theorem Node.Lexed.tidy {node : Node} (h : node.Lexed) (hcode : ∀ code ∈ node.ownCode, Quiet code) :
    node.Tidy := by
  cases node with
  | element tag children => exact Tag.Lexed.tidy h hcode
  | selfClosing tag => exact Tag.Lexed.tidy h hcode
  | fragment | text => trivial
  | expr span code mode => exact hcode code (List.mem_singleton.mpr rfl)
  | flow span kind subject allocator branches =>
    obtain rfl : allocator = "" := h
    rw [Node.ownCode, List.forall_mem_append] at hcode
    refine ⟨by simpa using hcode.1, Leads.nil, fun branch hbranch => ?_⟩
    have hown : ∀ code ∈ branch.hostCode, Quiet code :=
      fun code hc => hcode.2 code (List.mem_flatMap.mpr ⟨branch, hbranch, hc⟩)
    rw [Branch.hostCode, List.forall_mem_append] at hown
    exact ⟨by simpa using hown.1, by simpa using hown.2⟩

/-- The templates of a file are tidy if the code that is copied out of them is quiet. -/
theorem tidy_of_copiedCode {source : String} (hcode : ∀ code ∈ copiedCode source, Quiet code)
    {templates : List Template}
    (h : templatesOf (utf8 source) (parse (utf8 source)) = .ok templates) {template : Template}
    (ht : template ∈ templates) : template.node.Everywhere Node.Tidy := by
  have hown : template.node.Everywhere fun node => ∀ code ∈ node.ownCode, Quiet code := by
    refine Node.everywhere_ownCode _ fun code hmem => hcode code ?_
    rw [copiedCode, h]
    exact List.mem_flatMap.mpr ⟨template, ht, hmem⟩
  exact fun node hwithin => (lexed_of_templatesOf h ht node hwithin).tidy (hown node hwithin)

/-! ## Resolving -/

theorem Attribute.Tidy.resolve {a : Attribute} (h : a.Tidy) (allocator : String) :
    (a.resolve allocator).Tidy := by
  rcases a.static_or_resolve_eq with ⟨span, name, node, rfl⟩ | ⟨_, heq⟩
  · trivial
  · rwa [heq]

namespace Node

theorem tidy_resolveTag {tag : Tag} (h : tag.Tidy) (allocator : String) :
    (resolveTag allocator tag).Tidy := by
  refine ⟨Tag.name_resolve allocator tag ▸ h.name, fun a ha => ?_⟩
  rw [Tag.attributes_resolve] at ha
  obtain ⟨original, horiginal, rfl⟩ := List.mem_map.mp ha
  exact (h.attributes original horiginal).resolve _

theorem quiet_rootAllocator {node : Node} (h : node.Tidy) {allocator : String}
    (hallocator : Quiet allocator) (mode : Escaping) :
    Quiet ((node.resolve allocator mode).rootAllocator allocator) := by
  have htag : ∀ tag : Tag, tag.Tidy → Quiet (resolveTag allocator tag).allocator := by
    intro tag htidy
    rw [Tag.allocator_resolve]
    cases hown : tag.builtin? .allocator with
    | none => exact hallocator
    | some own => exact htidy.quiet_builtin (by simp) hown
  cases node with
  | element tag children => exact htag tag h
  | selfClosing tag => exact htag tag h
  | fragment | expr | text | flow => exact hallocator

theorem Tidy.resolve {node : Node} (h : node.Tidy) {allocator : String}
    (hallocator : Quiet allocator) (mode : Escaping) : (node.resolve allocator mode).Tidy := by
  cases node with
  | element tag children => exact tidy_resolveTag h allocator
  | selfClosing tag => exact tidy_resolveTag h allocator
  | fragment => trivial
  | expr => exact h
  | text => trivial
  | flow span kind subject own branches =>
    rw [Node.resolve, resolveBranches_eq_map]
    refine ⟨h.1, hallocator, fun branch hbranch => ?_⟩
    obtain ⟨original, horiginal, rfl⟩ := List.mem_map.mp hbranch
    exact ⟨(h.2.2 original horiginal).head, (h.2.2 original horiginal).capture⟩

theorem Everywhere.dropPadding_tidy {node : Node} (h : node.Everywhere Tidy) :
    node.dropPadding.Everywhere Tidy := by
  cases node with
  | text => exact everywhere_iff.mpr ⟨trivial, by simp [dropPadding, parts]⟩
  | element | selfClosing | fragment | expr | flow => exact h

/-- Allocators that are handed down are quiet like all other host code. -/
theorem tidy_resolve (node : Node) : ∀ {allocator : String} (mode : Escaping), Quiet allocator →
    node.Everywhere Tidy → (node.resolve allocator mode).Everywhere Tidy := by
  induction node using induction_on_parts with
  | h node ih =>
    intro allocator mode hallocator h
    refine everywhere_iff.mpr ⟨h.here.resolve hallocator mode, fun n hn => ?_⟩
    have hinside := quiet_rootAllocator h.here hallocator mode
    obtain ⟨part, hpart, mode', rfl | rfl⟩ := mem_parts_resolve_rootAllocator hn
    · exact ih part hpart mode' hinside (h.part hpart)
    · exact (ih part hpart mode' hinside (h.part hpart)).dropPadding_tidy

end Node

/-! ## Emission -/

namespace Code

variable {b : Builder}

theorem stmtsTidy_append {first second : List Stmt} (h : stmtsTidy first) (h' : stmtsTidy second) :
    stmtsTidy (first ++ second) := by
  induction first with
  | nil => exact h'
  | cons s first ih => exact ⟨h.1, ih h.2⟩

/-- Emission makes tidy code of a node, as an expression and as statements. -/
structure MakesTidy (node : Node) : Prop where
  expr : ∀ b, Makes (exprOf b node) Expr.Tidy
  stmts : ∀ b (sink : Sink), sink.Tidy → Makes (into b sink node) stmtsTidy

section Lists

variable {nodes : List Node} (h : ∀ n ∈ nodes, MakesTidy n)

include h

theorem exprsOf_tidy : Makes (exprsOf b nodes) exprsTidy := by
  induction nodes with
  | nil => exact .pure trivial
  | cons node nodes ih =>
    rw [List.forall_mem_cons] at h
    rw [exprsOf]
    split
    · exact ih h.2
    · exact (h.1.expr b).bind fun e he => (ih h.2).bind fun es hes => .pure ⟨he, hes⟩

theorem statementsOf_tidy {sink : Sink} (hsink : sink.Tidy) :
    Makes (statementsOf b sink nodes) stmtsTidy := by
  induction nodes with
  | nil => exact .pure trivial
  | cons node nodes ih =>
    rw [List.forall_mem_cons] at h
    rw [statementsOf_cons]
    split
    · exact ih h.2
    · exact (h.1.stmts b sink hsink).bind fun first hfirst =>
        (ih h.2).bind fun rest hrest => .pure (stmtsTidy_append hfirst hrest)

theorem bodyOf_list_tidy {sink : Sink} (hsink : sink.Tidy) :
    Makes (bodyOf b sink (.list nodes)) stmtsTidy := by
  unfold bodyOf
  split
  · exact .pure ⟨⟨hsink, trivial⟩, trivial⟩
  · exact (exprsOf_tidy h).bind fun es hes => .pure ⟨⟨hsink, hes⟩, trivial⟩
  · exact statementsOf_tidy h hsink

end Lists

theorem armsOf_tidy {sink : Sink} (hsink : sink.Tidy) (onlyFirst : Bool) {branches : List Branch}
    (htidy : ∀ branch ∈ branches, branch.Tidy)
    (h : ∀ n ∈ branches.flatMap (fun branch => branch.body.all), MakesTidy n) :
    Makes (armsOf b sink onlyFirst branches) armsTidy := by
  induction branches with
  | nil => exact .pure trivial
  | cons branch branches ih =>
    obtain ⟨span, head, capture, body⟩ := branch
    rw [List.forall_mem_cons] at htidy
    rw [List.flatMap_cons, List.forall_mem_append] at h
    have hbody : Makes (bodyOf b sink body) stmtsTidy := by
      cases body with
      | node n => exact (h.1 n (List.mem_singleton.mpr rfl)).stmts b sink hsink
      | list ns => exact bodyOf_list_tidy h.1 hsink
    rw [armsOf]
    refine hbody.bind fun stmts hstmts => ?_
    split
    · exact .pure ⟨htidy.1.head, htidy.1.capture, hstmts, trivial⟩
    · exact (ih htidy.2 h.2).bind fun arms harms =>
        .pure ⟨htidy.1.head, htidy.1.capture, hstmts, harms⟩

theorem quiet_getD {o : Option String} (h : ∀ code ∈ o, Quiet code) : Quiet (o.getD "") := by
  cases o with
  | none => exact Leads.nil
  | some code => exact h code rfl

theorem loopOver_tidy (flow : FlowKind) {arms : List Arm} (h : armsTidy arms) :
    (loopOver flow arms).Tidy := by
  cases arms with
  | nil => trivial
  | cons arm arms =>
    obtain ⟨head, capture, body⟩ := arm
    exact ⟨.of_glue (by cases flow <;> decide), quiet_getD h.1, h.2.2.1⟩

theorem flowStatements_tidy (flow : FlowKind) {subject : Option String}
    (hsubject : ∀ code ∈ subject, Quiet code) {arms : Sink → EmitM (List Arm)}
    (h : ∀ sink : Sink, sink.Tidy → Makes (arms sink) armsTidy) {sink : Sink} (hsink : sink.Tidy) :
    Makes (flowStatements b sink flow subject arms) stmtsTidy := by
  cases flow with
  | ifElse =>
    cases sink with
    | breakTo label =>
      refine (h _ hsink).bind fun as has => .pure ⟨has, ?_⟩
      split
      · trivial
      · exact ⟨⟨hsink, trivial⟩, trivial⟩
    | appendTo list => exact (h _ hsink).bind fun as has => .pure ⟨has, trivial⟩
  | switch => exact (h _ hsink).bind fun as has => .pure ⟨⟨quiet_getD hsubject, has⟩, trivial⟩
  | forLoop | whileLoop =>
    cases sink with
    | breakTo label =>
      refine .freshList fun id => ?_
      have hlist := ListVar.steady_text id
      exact (h (.appendTo (.fresh id)) hlist).bind fun as has =>
        .pure ⟨hlist, loopOver_tidy _ has, ⟨hsink, hlist⟩, trivial⟩
    | appendTo list =>
      exact (h _ hsink).bind fun as has => .pure ⟨loopOver_tidy _ has, trivial⟩

theorem valueOf_tidy {span : Span} {name : String} {value : AttrValue} {flag : String}
    (hflag : Leads .code .line (utf8 flag)) (htidy : (Attribute.static span name value).Tidy)
    (h : ∀ n ∈ (Attribute.static span name value).node?, MakesTidy n) :
    Makes (valueOf b flag value) Value.Tidy := by
  cases value with
  | literal text => exact .pure htidy
  | expr code =>
    have hcode : Quiet code := htidy
    exact .pure hcode.in_code
  | flag => exact .pure hflag
  | node n =>
    rw [valueOf]
    exact ((h n rfl).expr b).bind fun e he => .pure he

theorem attrsOf_tidy {attributes : List Attribute} (htidy : ∀ a ∈ attributes, a.Tidy)
    (h : ∀ n ∈ attributes.filterMap Attribute.node?, MakesTidy n) :
    Makes (attrsOf b attributes) attrsTidy := by
  induction attributes with
  | nil => exact .pure trivial
  | cons a rest ih =>
    rw [filterMap_node?_cons, List.forall_mem_append] at h
    rw [List.forall_mem_cons] at htidy
    have hrest := ih htidy.2 h.2
    have hown := htidy.1
    cases a with
    | static span name value =>
      have hflag : Steady "\"\"" := .quoted ""
      rw [attrsOf]
      exact (valueOf_tidy hflag.code.to_line hown fun n hn => h.1 n (by simpa using hn)).bind
        fun v hv => hrest.bind fun as has => .pure ⟨hv, has⟩
    | builtin => exact hrest
    | builtinShorthand => exact hrest
    | shorthand span ident =>
      have hident : Quiet ident := hown
      rw [attrsOf]
      exact hrest.bind fun as has => .pure ⟨hident.in_code, has⟩
    | formatted | spread =>
      rw [attrsOf]
      exact hrest.bind fun as has => .pure ⟨hown, has⟩

def PropItem.Tidy : PropItem → Prop
  | .entry prop => prop.Tidy
  | .spread code => Quiet code

theorem propsOf_tidy {attributes : List Attribute} (htidy : ∀ a ∈ attributes, a.Tidy)
    (h : ∀ n ∈ attributes.filterMap Attribute.node?, MakesTidy n) :
    Makes (propsOf b attributes) fun items => ∀ item ∈ items, item.Tidy := by
  induction attributes with
  | nil => exact .pure (by simp)
  | cons a rest ih =>
    rw [filterMap_node?_cons, List.forall_mem_append] at h
    rw [List.forall_mem_cons] at htidy
    have hrest := ih htidy.2 h.2
    have hown := htidy.1
    cases a with
    | static span name value =>
      have hflag : Steady "true" := .of_glue (by decide)
      rw [propsOf]
      exact (valueOf_tidy hflag.code.to_line hown fun n hn => h.1 n (by simpa using hn)).bind
        fun v hv => hrest.bind fun items hitems => .pure (List.forall_mem_cons.mpr ⟨hv, hitems⟩)
    | builtin => exact hrest
    | builtinShorthand => exact hrest
    | shorthand span ident =>
      have hident : Quiet ident := hown
      rw [propsOf]
      exact hrest.bind fun items hitems =>
        .pure (List.forall_mem_cons.mpr ⟨hident.in_code, hitems⟩)
    | formatted | spread =>
      rw [propsOf]
      exact hrest.bind fun items hitems => .pure (List.forall_mem_cons.mpr ⟨hown, hitems⟩)

theorem groupProps_tidy {items : List PropItem} (h : ∀ item ∈ items, item.Tidy) :
    groupsTidy (groupProps items) := by
  induction items with
  | nil => trivial
  | cons item items ih =>
    rw [List.forall_mem_cons] at h
    have hrest := ih h.2
    cases item with
    | spread code => exact ⟨h.1, hrest⟩
    | entry prop =>
      rw [groupProps]
      split
      · next props groups heq =>
        rw [heq] at hrest
        exact ⟨⟨h.1, hrest.1⟩, hrest.2⟩
      · exact ⟨⟨h.1, trivial⟩, hrest⟩

theorem componentOptions_tidy {tag : Tag} (h : tag.Tidy) :
    ∀ o ∈ componentOptions tag, Steady o.1 ∧ Quiet o.2 := by
  intro o ho
  obtain ⟨b, hb, hoption⟩ := List.mem_filterMap.mp ho
  obtain ⟨value, hvalue, rfl⟩ := Option.map_eq_some_iff.mp hoption
  refine ⟨b.steady_name, h.quiet_builtin ?_ hvalue⟩
  rintro rfl
  simp at hb

theorem headOf_tidy {tag : Tag} (h : tag.Tidy) : (headOf b tag).Tidy :=
  fun _ hallocator => h.quiet_builtin (by simp) hallocator

/-- What is not control flow is delivered as one expression. -/
theorem makesTidy_of_expr {node : Node}
    (hinto : ∀ b sink, into b sink node = (do return [.deliver sink (← exprOf b node)]))
    (h : ∀ b, Makes (exprOf b node) Expr.Tidy) : MakesTidy node := by
  refine ⟨h, fun b sink hsink => ?_⟩
  rw [hinto]
  exact (h b).bind fun e he => .pure ⟨⟨hsink, he⟩, trivial⟩

/-- The code of a tidy node is tidy. -/
theorem makesTidy (node : Node) : node.Everywhere Node.Tidy → MakesTidy node := by
  induction node using Node.induction_on_parts with
  | h node ih =>
    intro hnode
    have hparts : ∀ n ∈ node.parts, MakesTidy n := fun n hn => ih n hn (hnode.part hn)
    have hown := hnode.here
    cases node with
    | element tag children =>
      rw [Node.parts, List.forall_mem_append] at hparts
      refine makesTidy_of_expr (fun _ _ => rfl) fun b => ?_
      obtain ⟨span, name, kind, attributes, mode, allocator⟩ := tag
      cases kind with
      | component =>
        rw [exprOf]
        refine (propsOf_tidy hown.attributes hparts.1).bind fun items hitems =>
          (exprsOf_tidy hparts.2).bind fun es hes => .pure ⟨hown.name, componentOptions_tidy hown, ?_⟩
        refine groupProps_tidy ?_
        split
        · exact hitems
        · exact List.forall_mem_append.mpr ⟨hitems, by simpa [PropItem.Tidy, PropEntry.Tidy] using hes⟩
      | element =>
        rw [exprOf]
        exact (attrsOf_tidy hown.attributes hparts.1).bind fun as has =>
          (exprsOf_tidy hparts.2).bind fun es hes => .pure ⟨headOf_tidy hown, has, hes⟩
    | selfClosing tag =>
      refine makesTidy_of_expr (fun _ _ => rfl) fun b => ?_
      obtain ⟨span, name, kind, attributes, mode, allocator⟩ := tag
      cases kind with
      | component =>
        rw [exprOf]
        exact (propsOf_tidy hown.attributes hparts).bind fun items hitems =>
          .pure ⟨hown.name, componentOptions_tidy hown, groupProps_tidy hitems⟩
      | element =>
        rw [exprOf]
        exact (attrsOf_tidy hown.attributes hparts).bind fun as has => .pure ⟨headOf_tidy hown, has⟩
    | fragment span children =>
      refine makesTidy_of_expr (fun _ _ => rfl) fun b => ?_
      rw [exprOf]
      exact (exprsOf_tidy hparts).bind fun es hes => .pure hes
    | expr span code mode => exact makesTidy_of_expr (fun _ _ => rfl) fun _ => .pure hown
    | text span raw mode content =>
      exact makesTidy_of_expr (fun _ _ => rfl) fun _ => .pure trivial
    | flow span kind subject allocator branches =>
      have hstmts : ∀ b (sink : Sink), sink.Tidy → Makes (flowStatements b sink kind subject
          fun sink => armsOf b sink (isLoop kind) branches) stmtsTidy := fun b sink hsink =>
        flowStatements_tidy kind hown.1
          (fun _ hsink => armsOf_tidy hsink (isLoop kind) hown.2.2 hparts) hsink
      refine ⟨fun b => ?_, hstmts⟩
      rw [exprOf]
      exact .inBlock fun id c =>
        ⟨hown.2.1, hstmts (.ofBlock id) (.breakTo (.block id)) (BlockLabel.steady_text id) c⟩

/-- The code of a template is one block with a quiet allocator and a tidy body. -/
theorem ofTemplate_tidy {template : Template} (h : template.node.Everywhere Node.Tidy) :
    Makes (ofTemplate template) fun e =>
      ∃ id body, e = .block id template.allocator body ∧ stmtsTidy body :=
  .inBlock fun id c => ⟨id, _, rfl, (makesTidy template.node h).stmts (.ofBlock id)
    (.breakTo (.block id)) (BlockLabel.steady_text id) c⟩

end Code

end ZigMarkup
