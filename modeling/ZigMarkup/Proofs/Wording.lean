import ZigMarkup.Proofs.QuietNodes

/-!
The texts that generated code takes over as they stand. Apart from punctuation and what is
quoted anew, code is made of names, string literals, numbered names and host code. A predicate
that admits words and string literals therefore holds of every such text as soon as it holds of
the host code of the template and of the allocator handed in. A predicate that admits only the
string literals of the template does as well.
-/
namespace ZigMarkup

/-- A predicate that holds of words, of escaped text in quotes and of the literals in `L`, which
are all string literals if nothing else is said. -/
structure Admits (P : String → Prop) (L : String → Prop := fun s => IsString (utf8 s)) : Prop where
  word : ∀ {s : String}, (utf8 s).all isNameByte = true → P s
  quoted : ∀ {s : String}, Escaped (utf8 s) → P ("\"" ++ s ++ "\"")
  literal : ∀ {s : String}, L s → P s

theorem Escaped.isString {s : String} (h : Escaped (utf8 s)) :
    IsString (utf8 ("\"" ++ s ++ "\"")) := by
  have hbytes : utf8 ("\"" ++ s ++ "\"") = ascii '"' :: (utf8 s ++ [ascii '"']) := by
    rw [utf8_append, utf8_append]
    rfl
  have hend : quotedTail (ascii '"') [ascii '"'] = ⟨1, true⟩ := by decide
  rw [hbytes]
  refine ⟨rfl, ?_⟩
  simp only [quotedToken, h.read, hend, List.length_cons, List.length_append, List.length_nil,
    QuotedToken.mk.injEq, and_true]
  omega

/-- A name with a number at its end. -/
theorem all_isNameByte_numbered {s : String} (h : (utf8 s).all isNameByte = true) (n : Nat) :
    (utf8 (s ++ n.repr)).all isNameByte = true := by
  rw [utf8_append, List.all_append, h, all_isNameByte_repr]
  rfl

namespace Code

/-! ## Code -/

variable (P : String → Prop)

def Head.Worded (head : Head) : Prop := ∀ allocator ∈ head.allocator, P allocator

def Sink.Worded : Sink → Prop
  | .breakTo label => P label.text
  | .appendTo list => P list.text

/-- A format string in its quotes, and its arguments. -/
def FormatWorded (format : String) (args : List String) : Prop :=
  P ("\"" ++ format ++ "\"") ∧ ∀ arg ∈ args, P (trim arg)

mutual
/-- Every text that code takes over as it stands satisfies `P`. -/
def Expr.Worded : Expr → Prop
  | .element head attributes children =>
    head.Worded P ∧ attrsWorded attributes ∧ exprsWorded children
  | .selfClosing head attributes => head.Worded P ∧ attrsWorded attributes
  | .component _ name options props =>
    P name ∧ (∀ o ∈ options, P o.1 ∧ P o.2) ∧ groupsWorded props
  | .fragment _ children => exprsWorded children
  | .collected _ list => P list.text
  | .empty _ => True
  | .value _ _ code => P code
  | .text _ _ _ => True
  | .block _ allocator body => P allocator ∧ stmtsWorded body

def exprsWorded : List Expr → Prop
  | [] => True
  | e :: es => Expr.Worded e ∧ exprsWorded es

def Value.Worded : Value → Prop
  | .code text => P text
  | .expr e => Expr.Worded e

def Attr.Worded : Attr → Prop
  | .pair _ _ value => Value.Worded value
  | .format _ _ format args => FormatWorded P format args
  | .spread _ code => P code

def attrsWorded : List Attr → Prop
  | [] => True
  | a :: as => Attr.Worded a ∧ attrsWorded as

def PropGroup.Worded : PropGroup → Prop
  | .record props => entriesWorded props
  | .spread code => P code

def groupsWorded : List PropGroup → Prop
  | [] => True
  | g :: gs => PropGroup.Worded g ∧ groupsWorded gs

def PropEntry.Worded : PropEntry → Prop
  | .field _ value => Value.Worded value
  | .format _ _ format args => FormatWorded P format args
  | .children nodes => exprsWorded nodes

def entriesWorded : List PropEntry → Prop
  | [] => True
  | p :: ps => PropEntry.Worded p ∧ entriesWorded ps

def Stmt.Worded : Stmt → Prop
  | .deliver sink value => sink.Worded P ∧ Expr.Worded value
  | .declare list _ => P list.text
  | .ifChain arms => armsWorded arms
  | .loop keyword head body => P keyword ∧ P head ∧ stmtsWorded body
  | .switch subject arms => P subject ∧ armsWorded arms
  | .blank => True

def stmtsWorded : List Stmt → Prop
  | [] => True
  | s :: ss => Stmt.Worded s ∧ stmtsWorded ss

def armsWorded : List Arm → Prop
  | [] => True
  | ⟨head, capture, body⟩ :: arms =>
    (∀ h ∈ head, P h) ∧ (∀ c ∈ capture, P c) ∧ stmtsWorded body ∧ armsWorded arms
end

end Code

/-! ## Nodes -/

section Nodes

variable (P : String → Prop)

def Attribute.Worded : Attribute → Prop
  | .static _ _ (.literal text) => P text
  | .static _ _ (.expr code) => P code
  | .static _ _ (.node _) | .static _ _ .flag => True
  | .builtin _ b value => b ≠ .escaping → P value
  | .shorthand _ ident => P ident
  | .builtinShorthand _ _ => True
  | .spread _ code => P code
  | .formatted _ _ format args => Code.FormatWorded P format args

structure Tag.Worded (tag : Tag) : Prop where
  name : P tag.name
  attributes : ∀ a ∈ tag.attributes, a.Worded P

structure Branch.Worded (branch : Branch) : Prop where
  head : ∀ code ∈ branch.head, P code
  capture : ∀ code ∈ branch.capture, P code

/-- The texts of a node itself that its code takes over satisfy `P`. -/
def Node.Worded : Node → Prop
  | .element tag _ | .selfClosing tag => tag.Worded P
  | .fragment _ _ | .text _ _ _ _ => True
  | .expr _ code _ => P code
  | .flow _ _ subject allocator branches =>
    (∀ code ∈ subject, P code) ∧ P allocator ∧ ∀ branch ∈ branches, branch.Worded P

end Nodes

variable {P L : String → Prop}

theorem Builtin.all_isNameByte_name (b : Builtin) : (utf8 b.name).all isNameByte = true := by
  cases b <;> decide

theorem Tag.Worded.builtin {tag : Tag} (hP : Admits P L) (h : tag.Worded P) {b : Builtin}
    (hb : b ≠ .escaping) {value : String} (hvalue : tag.builtin? b = some value) : P value := by
  obtain ⟨a, ha, hfound⟩ := List.exists_of_findSome?_eq_some hvalue
  have hown := h.attributes a ha
  cases a with
  | builtin span other text =>
    rw [Attribute.builtinValue?] at hfound
    split at hfound
    · next heq =>
      cases hfound
      exact hown (heq ▸ hb)
    · cases hfound
  | builtinShorthand span other =>
    rw [Attribute.builtinValue?] at hfound
    split at hfound
    · cases hfound
      exact hP.word b.all_isNameByte_name
    · cases hfound
  | _ => cases hfound

/-! ## Reading -/

section Reading

variable (hP : Admits P L)

include hP

theorem Attribute.Lexed.worded {a : Attribute} (h : a.Lexed)
    (hliteral : ∀ text ∈ a.literals, IsString (utf8 text) → L text)
    (hcode : ∀ code ∈ a.hostCode, P code) : a.Worded P := by
  cases a with
  | static span name value =>
    cases value with
    | literal text =>
      rcases h with hstring | rfl
      · exact hP.literal (hliteral text (List.mem_singleton.mpr rfl) hstring)
      · exact hP.word rfl
    | expr code => exact hcode code (List.mem_singleton.mpr rfl)
    | node | flag => trivial
  | builtin span b value => exact fun hb => hcode value (by simp [Attribute.hostCode, hb])
  | shorthand span ident => exact hP.word h
  | builtinShorthand => trivial
  | spread span code => exact hcode code (List.mem_singleton.mpr rfl)
  | formatted span name format args =>
    exact ⟨hP.quoted h, fun arg harg => hcode _ (List.mem_map_of_mem harg)⟩

theorem Tag.Lexed.worded {tag : Tag} (h : tag.Lexed)
    (hliteral : ∀ text ∈ tag.attributes.flatMap Attribute.literals, IsString (utf8 text) → L text)
    (hcode : ∀ code ∈ tag.attributes.flatMap Attribute.hostCode, P code) : tag.Worded P := by
  refine ⟨hP.word h.name, fun a ha => (h.attributes a ha).worded hP ?_ ?_⟩
  · exact fun text htext => hliteral text (List.mem_flatMap.mpr ⟨a, ha, htext⟩)
  · exact fun code hc => hcode code (List.mem_flatMap.mpr ⟨a, ha, hc⟩)

/-- What a node takes over satisfies a predicate if its host code and its literals do. -/
theorem Node.Lexed.worded {node : Node} (h : node.Lexed)
    (hliteral : ∀ text ∈ node.ownLiterals, IsString (utf8 text) → L text)
    (hcode : ∀ code ∈ node.ownCode, P code) : node.Worded P := by
  cases node with
  | element tag children => exact Tag.Lexed.worded hP h hliteral hcode
  | selfClosing tag => exact Tag.Lexed.worded hP h hliteral hcode
  | fragment | text => trivial
  | expr span code mode => exact hcode code (List.mem_singleton.mpr rfl)
  | flow span kind subject allocator branches =>
    obtain rfl : allocator = "" := h
    rw [Node.ownCode, List.forall_mem_append] at hcode
    refine ⟨by simpa using hcode.1, hP.word rfl, fun branch hbranch => ?_⟩
    have hown : ∀ code ∈ branch.hostCode, P code :=
      fun code hc => hcode.2 code (List.mem_flatMap.mpr ⟨branch, hbranch, hc⟩)
    rw [Branch.hostCode, List.forall_mem_append] at hown
    exact ⟨by simpa using hown.1, by simpa using hown.2⟩

end Reading

theorem worded_of_hostCode (hP : Admits P) {source : Bytes} {templates : List Template}
    (h : templatesOf source (parse source) = .ok templates) {template : Template}
    (ht : template ∈ templates) (hcode : ∀ code ∈ template.node.hostCode, P code) :
    template.node.Everywhere (Node.Worded P) := by
  have hown := Node.everywhere_ownCode template.node hcode
  intro node hwithin
  exact (lexed_of_templatesOf h ht node hwithin).worded hP (fun _ _ hstring => hstring)
    (hown node hwithin)

/-! ## Resolving -/

namespace Node

theorem worded_resolveTag {tag : Tag} (h : tag.Worded P) (allocator : String) :
    (resolveTag allocator tag).Worded P := by
  refine ⟨Tag.name_resolve allocator tag ▸ h.name, fun a ha => ?_⟩
  rw [Tag.attributes_resolve] at ha
  obtain ⟨original, horiginal, rfl⟩ := List.mem_map.mp ha
  have hown := h.attributes original horiginal
  rcases original.static_or_resolve_eq with ⟨span, name, node, rfl⟩ | ⟨_, heq⟩
  · trivial
  · rwa [heq]

theorem worded_rootAllocator (hP : Admits P L) {node : Node} (h : node.Worded P) {allocator : String}
    (hallocator : P allocator) (mode : Escaping) :
    P ((node.resolve allocator mode).rootAllocator allocator) := by
  have htag : ∀ tag : Tag, tag.Worded P → P (resolveTag allocator tag).allocator := by
    intro tag hworded
    rw [Tag.allocator_resolve]
    cases hown : tag.builtin? .allocator with
    | none => exact hallocator
    | some own => exact hworded.builtin hP (by simp) hown
  cases node with
  | element tag children => exact htag tag h
  | selfClosing tag => exact htag tag h
  | fragment | expr | text | flow => exact hallocator

theorem Worded.resolve {node : Node} (h : node.Worded P) {allocator : String}
    (hallocator : P allocator) (mode : Escaping) : (node.resolve allocator mode).Worded P := by
  cases node with
  | element tag children => exact worded_resolveTag h allocator
  | selfClosing tag => exact worded_resolveTag h allocator
  | fragment => trivial
  | expr => exact h
  | text => trivial
  | flow span kind subject own branches =>
    rw [Node.resolve, resolveBranches_eq_map]
    refine ⟨h.1, hallocator, fun branch hbranch => ?_⟩
    obtain ⟨original, horiginal, rfl⟩ := List.mem_map.mp hbranch
    exact ⟨(h.2.2 original horiginal).head, (h.2.2 original horiginal).capture⟩

theorem Everywhere.dropPadding_worded {node : Node} (h : node.Everywhere (Worded P)) :
    node.dropPadding.Everywhere (Worded P) := by
  cases node with
  | text => exact everywhere_iff.mpr ⟨trivial, by simp [dropPadding, parts]⟩
  | element | selfClosing | fragment | expr | flow => exact h

/-- Resolving adds nothing but allocators, and these are handed down. -/
theorem worded_resolve (hP : Admits P L) (node : Node) : ∀ {allocator : String} (mode : Escaping),
    P allocator → node.Everywhere (Worded P) →
      (node.resolve allocator mode).Everywhere (Worded P) := by
  induction node using induction_on_parts with
  | h node ih =>
    intro allocator mode hallocator h
    refine everywhere_iff.mpr ⟨h.here.resolve hallocator mode, fun n hn => ?_⟩
    have hinside := worded_rootAllocator hP h.here hallocator mode
    obtain ⟨part, hpart, mode', rfl | rfl⟩ := mem_parts_resolve_rootAllocator hn
    · exact ih part hpart mode' hinside (h.part hpart)
    · exact (ih part hpart mode' hinside (h.part hpart)).dropPadding_worded

end Node

/-! ## Emission -/

namespace Code

variable {b : Builder}

theorem stmtsWorded_append {first second : List Stmt} (h : stmtsWorded P first)
    (h' : stmtsWorded P second) : stmtsWorded P (first ++ second) := by
  induction first with
  | nil => exact h'
  | cons s first ih => exact ⟨h.1, ih h.2⟩

/-- Emission takes over only texts that satisfy `P`, as an expression and as statements. -/
structure MakesWorded (P : String → Prop) (node : Node) : Prop where
  expr : ∀ b, Makes (exprOf b node) (Expr.Worded P)
  stmts : ∀ b (sink : Sink), sink.Worded P → Makes (into b sink node) (stmtsWorded P)

section Lists

variable {nodes : List Node} (h : ∀ n ∈ nodes, MakesWorded P n)

include h

theorem exprsOf_worded : Makes (exprsOf b nodes) (exprsWorded P) := by
  induction nodes with
  | nil => exact .pure trivial
  | cons node nodes ih =>
    rw [List.forall_mem_cons] at h
    rw [exprsOf]
    split
    · exact ih h.2
    · exact (h.1.expr b).bind fun e he => (ih h.2).bind fun es hes => .pure ⟨he, hes⟩

theorem statementsOf_worded {sink : Sink} (hsink : sink.Worded P) :
    Makes (statementsOf b sink nodes) (stmtsWorded P) := by
  induction nodes with
  | nil => exact .pure trivial
  | cons node nodes ih =>
    rw [List.forall_mem_cons] at h
    rw [statementsOf_cons]
    split
    · exact ih h.2
    · exact (h.1.stmts b sink hsink).bind fun first hfirst =>
        (ih h.2).bind fun rest hrest => .pure (stmtsWorded_append hfirst hrest)

theorem bodyOf_list_worded {sink : Sink} (hsink : sink.Worded P) :
    Makes (bodyOf b sink (.list nodes)) (stmtsWorded P) := by
  unfold bodyOf
  split
  · exact .pure ⟨⟨hsink, trivial⟩, trivial⟩
  · exact (exprsOf_worded h).bind fun es hes => .pure ⟨⟨hsink, hes⟩, trivial⟩
  · exact statementsOf_worded h hsink

end Lists

theorem armsOf_worded {sink : Sink} (hsink : sink.Worded P) (onlyFirst : Bool)
    {branches : List Branch} (hworded : ∀ branch ∈ branches, branch.Worded P)
    (h : ∀ n ∈ branches.flatMap (fun branch => branch.body.all), MakesWorded P n) :
    Makes (armsOf b sink onlyFirst branches) (armsWorded P) := by
  induction branches with
  | nil => exact .pure trivial
  | cons branch branches ih =>
    obtain ⟨span, head, capture, body⟩ := branch
    rw [List.forall_mem_cons] at hworded
    rw [List.flatMap_cons, List.forall_mem_append] at h
    have hbody : Makes (bodyOf b sink body) (stmtsWorded P) := by
      cases body with
      | node n => exact (h.1 n (List.mem_singleton.mpr rfl)).stmts b sink hsink
      | list ns => exact bodyOf_list_worded h.1 hsink
    rw [armsOf]
    refine hbody.bind fun stmts hstmts => ?_
    split
    · exact .pure ⟨hworded.1.head, hworded.1.capture, hstmts, trivial⟩
    · exact (ih hworded.2 h.2).bind fun arms harms =>
        .pure ⟨hworded.1.head, hworded.1.capture, hstmts, harms⟩

section Words

variable (hP : Admits P L)

include hP

theorem BlockLabel.worded (id : Nat) : P (BlockLabel.block id).text :=
  hP.word (all_isNameByte_numbered (by decide) id)

theorem ListVar.worded (id : Nat) : P (ListVar.fresh id).text :=
  hP.word (all_isNameByte_numbered (by decide) id)

theorem worded_getD {o : Option String} (h : ∀ code ∈ o, P code) : P (o.getD "") := by
  cases o with
  | none => exact hP.word rfl
  | some code => exact h code rfl

theorem loopOver_worded (flow : FlowKind) {arms : List Arm} (h : armsWorded P arms) :
    (loopOver flow arms).Worded P := by
  cases arms with
  | nil => trivial
  | cons arm arms =>
    obtain ⟨head, capture, body⟩ := arm
    exact ⟨hP.word (by cases flow <;> decide), worded_getD hP h.1, h.2.2.1⟩

theorem flowStatements_worded (flow : FlowKind) {subject : Option String}
    (hsubject : ∀ code ∈ subject, P code) {arms : Sink → EmitM (List Arm)}
    (h : ∀ sink : Sink, sink.Worded P → Makes (arms sink) (armsWorded P)) {sink : Sink}
    (hsink : sink.Worded P) :
    Makes (flowStatements b sink flow subject arms) (stmtsWorded P) := by
  cases flow with
  | ifElse =>
    cases sink with
    | breakTo label =>
      refine (h _ hsink).bind fun as has => .pure ⟨has, ?_⟩
      split
      · trivial
      · exact ⟨⟨hsink, trivial⟩, trivial⟩
    | appendTo list => exact (h _ hsink).bind fun as has => .pure ⟨has, trivial⟩
  | switch => exact (h _ hsink).bind fun as has => .pure ⟨⟨worded_getD hP hsubject, has⟩, trivial⟩
  | forLoop | whileLoop =>
    cases sink with
    | breakTo label =>
      refine .freshList fun id => ?_
      have hlist := ListVar.worded hP id
      exact (h (.appendTo (.fresh id)) hlist).bind fun as has =>
        .pure ⟨hlist, loopOver_worded hP _ has, ⟨hsink, hlist⟩, trivial⟩
    | appendTo list =>
      exact (h _ hsink).bind fun as has => .pure ⟨loopOver_worded hP _ has, trivial⟩

end Words

theorem valueOf_worded {span : Span} {name : String} {value : AttrValue} {flag : String}
    (hflag : P flag) (hworded : (Attribute.static span name value).Worded P)
    (h : ∀ n ∈ (Attribute.static span name value).node?, MakesWorded P n) :
    Makes (valueOf b flag value) (Value.Worded P) := by
  cases value with
  | literal text => exact .pure hworded
  | expr code => exact .pure hworded
  | flag => exact .pure hflag
  | node n =>
    rw [valueOf]
    exact ((h n rfl).expr b).bind fun e he => .pure he

def PropItem.Worded (P : String → Prop) : PropItem → Prop
  | .entry prop => prop.Worded P
  | .spread code => P code

section Attributes

variable (hP : Admits P L) {attributes : List Attribute} (hworded : ∀ a ∈ attributes, a.Worded P)
  (h : ∀ n ∈ attributes.filterMap Attribute.node?, MakesWorded P n)

include hP hworded h

theorem attrsOf_worded : Makes (attrsOf b attributes) (attrsWorded P) := by
  induction attributes with
  | nil => exact .pure trivial
  | cons a rest ih =>
    rw [filterMap_node?_cons, List.forall_mem_append] at h
    rw [List.forall_mem_cons] at hworded
    have hrest := ih hworded.2 h.2
    have hown := hworded.1
    cases a with
    | static span name value =>
      have hflag : P "\"\"" := hP.quoted (s := "") .nil
      rw [attrsOf]
      exact (valueOf_worded hflag hown fun n hn => h.1 n (by simpa using hn)).bind
        fun v hv => hrest.bind fun as has => .pure ⟨hv, has⟩
    | builtin => exact hrest
    | builtinShorthand => exact hrest
    | shorthand | formatted | spread =>
      rw [attrsOf]
      exact hrest.bind fun as has => .pure ⟨hown, has⟩

theorem propsOf_worded : Makes (propsOf b attributes) fun items => ∀ item ∈ items, item.Worded P := by
  induction attributes with
  | nil => exact .pure (by simp)
  | cons a rest ih =>
    rw [filterMap_node?_cons, List.forall_mem_append] at h
    rw [List.forall_mem_cons] at hworded
    have hrest := ih hworded.2 h.2
    have hown := hworded.1
    cases a with
    | static span name value =>
      have hflag : P "true" := hP.word (by decide)
      rw [propsOf]
      exact (valueOf_worded hflag hown fun n hn => h.1 n (by simpa using hn)).bind
        fun v hv => hrest.bind fun items hitems => .pure (List.forall_mem_cons.mpr ⟨hv, hitems⟩)
    | builtin => exact hrest
    | builtinShorthand => exact hrest
    | shorthand | formatted | spread =>
      rw [propsOf]
      exact hrest.bind fun items hitems => .pure (List.forall_mem_cons.mpr ⟨hown, hitems⟩)

end Attributes

theorem groupProps_worded {items : List PropItem} (h : ∀ item ∈ items, item.Worded P) :
    groupsWorded P (groupProps items) := by
  induction items with
  | nil => trivial
  | cons item items ih =>
    rw [List.forall_mem_cons] at h
    have hrest := ih h.2
    cases item with
    | spread code => exact ⟨h.1, hrest⟩
    | entry prop =>
      rw [groupProps]
      split
      · next props groups heq =>
        rw [heq] at hrest
        exact ⟨⟨h.1, hrest.1⟩, hrest.2⟩
      · exact ⟨⟨h.1, trivial⟩, hrest⟩

theorem componentOptions_worded (hP : Admits P L) {tag : Tag} (h : tag.Worded P) :
    ∀ o ∈ componentOptions tag, P o.1 ∧ P o.2 := by
  intro o ho
  obtain ⟨b, hb, hoption⟩ := List.mem_filterMap.mp ho
  obtain ⟨value, hvalue, rfl⟩ := Option.map_eq_some_iff.mp hoption
  refine ⟨hP.word b.all_isNameByte_name, h.builtin hP ?_ hvalue⟩
  rintro rfl
  simp at hb

theorem headOf_worded (hP : Admits P L) {tag : Tag} (h : tag.Worded P) : (headOf b tag).Worded P :=
  fun _ hallocator => h.builtin hP (by simp) hallocator

/-- What is not control flow is delivered as one expression. -/
theorem makesWorded_of_expr {node : Node}
    (hinto : ∀ b sink, into b sink node = (do return [.deliver sink (← exprOf b node)]))
    (h : ∀ b, Makes (exprOf b node) (Expr.Worded P)) : MakesWorded P node := by
  refine ⟨h, fun b sink hsink => ?_⟩
  rw [hinto]
  exact (h b).bind fun e he => .pure ⟨⟨hsink, he⟩, trivial⟩

/-- The code of a node takes over only what the node has. -/
theorem makesWorded (hP : Admits P L) (node : Node) :
    node.Everywhere (Node.Worded P) → MakesWorded P node := by
  induction node using Node.induction_on_parts with
  | h node ih =>
    intro hnode
    have hparts : ∀ n ∈ node.parts, MakesWorded P n := fun n hn => ih n hn (hnode.part hn)
    have hown := hnode.here
    cases node with
    | element tag children =>
      rw [Node.parts, List.forall_mem_append] at hparts
      refine makesWorded_of_expr (fun _ _ => rfl) fun b => ?_
      obtain ⟨span, name, kind, attributes, mode, allocator⟩ := tag
      cases kind with
      | component =>
        rw [exprOf]
        refine (propsOf_worded hP hown.attributes hparts.1).bind fun items hitems =>
          (exprsOf_worded hparts.2).bind fun es hes =>
            .pure ⟨hown.name, componentOptions_worded hP hown, ?_⟩
        refine groupProps_worded ?_
        split
        · exact hitems
        · exact List.forall_mem_append.mpr
            ⟨hitems, by simpa [PropItem.Worded, PropEntry.Worded] using hes⟩
      | element =>
        rw [exprOf]
        exact (attrsOf_worded hP hown.attributes hparts.1).bind fun as has =>
          (exprsOf_worded hparts.2).bind fun es hes => .pure ⟨headOf_worded hP hown, has, hes⟩
    | selfClosing tag =>
      refine makesWorded_of_expr (fun _ _ => rfl) fun b => ?_
      obtain ⟨span, name, kind, attributes, mode, allocator⟩ := tag
      cases kind with
      | component =>
        rw [exprOf]
        exact (propsOf_worded hP hown.attributes hparts).bind fun items hitems =>
          .pure ⟨hown.name, componentOptions_worded hP hown, groupProps_worded hitems⟩
      | element =>
        rw [exprOf]
        exact (attrsOf_worded hP hown.attributes hparts).bind fun as has =>
          .pure ⟨headOf_worded hP hown, has⟩
    | fragment span children =>
      refine makesWorded_of_expr (fun _ _ => rfl) fun b => ?_
      rw [exprOf]
      exact (exprsOf_worded hparts).bind fun es hes => .pure hes
    | expr span code mode => exact makesWorded_of_expr (fun _ _ => rfl) fun _ => .pure hown
    | text span raw mode content =>
      exact makesWorded_of_expr (fun _ _ => rfl) fun _ => .pure trivial
    | flow span kind subject allocator branches =>
      have hstmts : ∀ b (sink : Sink), sink.Worded P → Makes (flowStatements b sink kind subject
          fun sink => armsOf b sink (isLoop kind) branches) (stmtsWorded P) := fun b sink hsink =>
        flowStatements_worded hP kind hown.1
          (fun _ hsink => armsOf_worded hsink (isLoop kind) hown.2.2 hparts) hsink
      refine ⟨fun b => ?_, hstmts⟩
      rw [exprOf]
      exact .inBlock fun id c =>
        ⟨hown.2.1, hstmts (.ofBlock id) (.breakTo (.block id)) (BlockLabel.worded hP id) c⟩

/-- The code of a template is one block with its allocator. -/
theorem ofTemplate_worded (hP : Admits P L) {template : Template}
    (h : template.node.Everywhere (Node.Worded P)) :
    Makes (ofTemplate template) fun e =>
      ∃ id body, e = .block id template.allocator body ∧ stmtsWorded P body :=
  .inBlock fun id c => ⟨id, _, rfl, (makesWorded hP template.node h).stmts (.ofBlock id)
    (.breakTo (.block id)) (BlockLabel.worded hP id) c⟩

end Code

end ZigMarkup
