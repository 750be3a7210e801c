import ZigMarkup.Proofs.PropRecords

/-!
The props of a component as a record. Props are written as records and spreads inside nested
calls that merge two records, the second over the first. Main statement: read so, the props of a
component whose names are distinct are what its attributes make of an empty record one after the
other, with its content as `children` in the end. The calls are all opened before the first
record and closed one by one, so the text is read here as nested calls; it can be in one way only.
-/
namespace ZigMarkup.Code

/-! ## Records -/

/-- Fields by name. -/
def PropRecord (V : Type) : Type := String → Option V

namespace PropRecord

variable {V : Type}

def empty : PropRecord V := fun _ => none

def set (r : PropRecord V) (name : String) (value : V) : PropRecord V :=
  fun other => if other = name then some value else r other

/-- The fields of both; where they share one, that of the second. -/
def merge (r s : PropRecord V) : PropRecord V := fun name => (s name).or (r name)

theorem empty_merge (r : PropRecord V) : empty.merge r = r := by
  funext name
  exact Option.or_none

theorem merge_assoc (r s t : PropRecord V) : (r.merge s).merge t = r.merge (s.merge t) := by
  funext name
  exact Option.or_assoc.symm

theorem merge_set (r s : PropRecord V) (name : String) (value : V) :
    r.merge (s.set name value) = (r.merge s).set name value := by
  funext other
  unfold merge set
  split <;> rfl

theorem merge_empty (r : PropRecord V) : r.merge empty = r := rfl

end PropRecord

/-! ## What is written and what it is read as -/

/-- What values, formats and lists of nodes stand for, and which fields a spread has. -/
structure PropValues (V : Type) where
  value : Value → V
  format : Builder → String → List String → V
  nodes : List Expr → V
  spread : String → PropRecord V

variable {V : Type} (I : PropValues V)

namespace PropValues

def entry : PropEntry → V
  | .field _ value => I.value value
  | .format b _ format args => I.format b format args
  | .children nodes => I.nodes nodes

def addEntry (r : PropRecord V) (p : PropEntry) : PropRecord V := r.set p.name (I.entry p)

def addItem (r : PropRecord V) : PropItem → PropRecord V
  | .entry p => I.addEntry r p
  | .spread code => r.merge (I.spread code)

end PropValues

/-- The parts that the props of a component are written in. -/
inductive PropToken where
  | call
  | comma
  | close
  | empty
  | group (g : PropGroup)

def PropToken.pieces (runtime : String) (b : Builder) : PropToken → List Piece
  | .call => [.text (b.call "mergeProps" ++ "(")]
  | .comma => [.text ", "]
  | .close => [.text ")"]
  | .empty => [.text ".\x7b\x7d"]
  | .group g => g.pieces runtime

/-- The record that a part stands for on its own. No name may stand twice in it. -/
inductive PropToken.Yields : PropToken → PropRecord V → Prop
  | empty : Yields .empty .empty
  | record {props : List PropEntry} (hnames : (props.map PropEntry.name).Nodup) :
      Yields (.group (.record props)) (props.foldl I.addEntry .empty)
  | spread (code : String) : Yields (.group (.spread code)) (I.spread code)

/-- What an expression for props evaluates to. -/
inductive Evaluates : List PropToken → PropRecord V → Prop
  | part {t : PropToken} {r : PropRecord V} (h : t.Yields I r) : Evaluates [t] r
  | merge {first second : List PropToken} {r s : PropRecord V} (hfirst : Evaluates first r)
      (hsecond : Evaluates second s) :
      Evaluates (.call :: first ++ .comma :: second ++ [.close]) (r.merge s)

variable {I}

theorem PropToken.Yields.unique {t : PropToken} {r s : PropRecord V} (hr : t.Yields I r)
    (hs : t.Yields I s) : r = s := by
  cases hr <;> cases hs <;> rfl

/-- Nested calls are read in one way. -/
theorem Evaluates.unique {xs ys rest rest' : List PropToken} {r s : PropRecord V}
    (hr : Evaluates I xs r) (hs : Evaluates I ys s) (h : xs ++ rest = ys ++ rest') :
    r = s ∧ rest = rest' := by
  induction hr generalizing ys s rest rest' with
  | part ht =>
    cases hs with
    | part ht' =>
      obtain ⟨rfl, hrest⟩ := List.cons.inj h
      exact ⟨ht.unique ht', hrest⟩
    | merge _ _ =>
      obtain ⟨rfl, _⟩ := List.cons.inj h
      cases ht
  | merge hfirst hsecond ihfirst ihsecond =>
    cases hs with
    | part ht =>
      obtain ⟨rfl, _⟩ := List.cons.inj h
      cases ht
    | merge hfirst' hsecond' =>
      simp only [List.cons_append, List.append_assoc, List.cons.injEq, true_and] at h
      obtain ⟨rfl, h⟩ := ihfirst hfirst' h
      obtain ⟨rfl, h⟩ := ihsecond hsecond' (List.cons.inj h).2
      exact ⟨rfl, (List.cons.inj h).2⟩

theorem Evaluates.eq {xs : List PropToken} {r s : PropRecord V} (hr : Evaluates I xs r)
    (hs : Evaluates I xs s) : r = s :=
  (hr.unique hs (congrArg (· ++ []) rfl)).1

/-- The parts of the props, as they are written. -/
def propTokens : List PropGroup → List PropToken
  | [] => [.empty]
  | first :: rest => rest.map (fun _ => .call) ++ .group first ::
      rest.flatMap fun g => [.comma, .group g, .close]

theorem groupsPieces_eq (runtime : String) (groups : List PropGroup) :
    groupsPieces runtime groups = groups.map (PropGroup.pieces runtime) := by
  induction groups with
  | nil => rfl
  | cons g groups ih => rw [groupsPieces, ih, List.map_cons]

theorem mergedPieces_eq (runtime : String) (b : Builder) (groups : List PropGroup) :
    mergedPieces b (groupsPieces runtime groups) =
      (propTokens groups).flatMap (PropToken.pieces runtime b) := by
  rw [groupsPieces_eq]
  cases groups with
  | nil => rfl
  | cons first rest =>
    simp [mergedPieces, propTokens, PropToken.pieces, List.map_eq_flatMap, List.flatMap_assoc]

variable (I) in
/-- The record of a group, whatever its names. -/
def PropGroup.fields : PropGroup → PropRecord V
  | .record props => props.foldl I.addEntry .empty
  | .spread code => I.spread code

theorem PropGroup.yields {g : PropGroup} (h : g.names.Nodup) :
    (PropToken.group g).Yields I (g.fields I) := by
  cases g with
  | record props => exact .record h
  | spread code => exact .spread code

/-- Calls opened in front of an expression and closed behind it merge from left to right. -/
theorem Evaluates.merges {xs : List PropToken} {r : PropRecord V} (h : Evaluates I xs r)
    {groups : List PropGroup} (hgroups : ∀ g ∈ groups, g.names.Nodup) :
    Evaluates I (groups.map (fun _ => .call) ++ xs ++
        groups.flatMap fun g => [.comma, .group g, .close])
      (groups.foldl (fun r g => r.merge (g.fields I)) r) := by
  induction groups generalizing xs r with
  | nil => simpa using h
  | cons g groups ih =>
    rw [List.forall_mem_cons] at hgroups
    have hfirst : Evaluates I (.call :: xs ++ .comma :: [.group g] ++ [.close])
        (r.merge (g.fields I)) := .merge h (.part (PropGroup.yields hgroups.1))
    have hrest := ih hfirst hgroups.2
    have hcalls : (PropToken.call :: groups.map fun _ => .call) =
        (groups.map fun _ => .call) ++ [.call] := by
      simp [List.map_const', ← List.replicate_succ', List.replicate_succ]
    rw [List.map_cons, hcalls]
    simpa using hrest

theorem evaluates_propTokens {groups : List PropGroup} (h : ∀ g ∈ groups, g.names.Nodup) :
    Evaluates I (propTokens groups) (groups.foldl (fun r g => r.merge (g.fields I)) .empty) := by
  cases groups with
  | nil => exact .part .empty
  | cons first rest =>
    rw [List.forall_mem_cons] at h
    have hmerged := (Evaluates.part (PropGroup.yields (I := I) h.1)).merges h.2
    rw [List.foldl_cons, PropRecord.empty_merge]
    simpa [propTokens] using hmerged

/-! ## Grouping keeps what props add up to -/

theorem foldl_addEntry (r : PropRecord V) (props : List PropEntry) :
    props.foldl I.addEntry r = r.merge (props.foldl I.addEntry .empty) := by
  induction props generalizing r with
  | nil => exact r.merge_empty.symm
  | cons p props ih =>
    have hone : r.merge (I.addEntry .empty p) = I.addEntry r p := r.merge_set _ _ _
    rw [List.foldl_cons, List.foldl_cons, ih (I.addEntry r p), ih (I.addEntry .empty p),
      ← PropRecord.merge_assoc, hone]

theorem foldl_groupProps (items : List PropItem) (r : PropRecord V) :
    (groupProps items).foldl (fun r g => r.merge (g.fields I)) r = items.foldl I.addItem r := by
  induction items generalizing r with
  | nil => rfl
  | cons item items ih =>
    cases item with
    | spread code => exact ih _
    | entry p =>
      have hone : ∀ props, r.merge (PropGroup.fields I (.record (p :: props))) =
          (I.addEntry r p).merge (PropGroup.fields I (.record props)) := by
        intro props
        simp only [PropGroup.fields]
        rw [← foldl_addEntry, ← foldl_addEntry, List.foldl_cons]
      rw [List.foldl_cons, PropValues.addItem, ← ih, groupProps]
      split
      · next props groups heq => rw [heq, List.foldl_cons, List.foldl_cons, hone]
      · next hother =>
        rw [List.foldl_cons, hone]
        rfl

/-! ## From attributes to props -/

variable (I) in
/-- What an attribute makes of a record; its value may hold markup, for which code is written. -/
def applyAttribute (b : Builder) (r : PropRecord V) : Attribute → EmitM (PropRecord V)
  | .static _ name (.literal text) => return r.set name (I.value (.code text))
  | .static _ name (.expr code) => return r.set name (I.value (.code code))
  | .static _ name (.node node) => do return r.set name (I.value (.expr (← exprOf b node)))
  | .static _ name .flag => return r.set name (I.value (.code "true"))
  | .shorthand _ ident => return r.set ident (I.value (.code ident))
  | .formatted _ name format args => return r.set name (I.format b format args)
  | .spread _ code => return r.merge (I.spread code)
  | .builtin _ _ _ => return r
  | .builtinShorthand _ _ => return r

variable (I) in
/-- The attributes applied one after the other, and the nodes that produce something last. -/
def recordOf (b : Builder) (attributes : List Attribute) (children : List Node) :
    EmitM (PropRecord V) := do
  let r ← attributes.foldlM (applyAttribute I b) .empty
  let content ← (children.filter (!·.isDropped)).mapM (exprOf b)
  return if content.isEmpty then r else r.set "children" (I.nodes content)

theorem foldlM_applyAttribute (b : Builder) (attributes : List Attribute) (r : PropRecord V) :
    attributes.foldlM (applyAttribute I b) r = do
      let items ← propsOf b attributes
      return items.foldl I.addItem r := by
  induction attributes generalizing r with
  | nil => rfl
  | cons a rest ih =>
    rw [List.foldlM_cons]
    cases a with
    | static span name value =>
      cases value <;> simp [applyAttribute, propsOf, valueOf, ih] <;> rfl
    | builtin | builtinShorthand => simp [applyAttribute, propsOf, ih]
    | shorthand | formatted | spread =>
      simp [applyAttribute, propsOf, ih]
      rfl

theorem exprsOf_eq_mapM (b : Builder) (nodes : List Node) :
    exprsOf b nodes = (nodes.filter (!·.isDropped)).mapM (exprOf b) := by
  induction nodes with
  | nil => rfl
  | cons node nodes ih =>
    rw [exprsOf]
    cases hdrop : node.isDropped <;> simp [hdrop, ih]

theorem recordOf_eq (b : Builder) (attributes : List Attribute) (children : List Node) :
    recordOf I b attributes children = do
      let items ← itemsOf b attributes children
      return items.foldl I.addItem .empty := by
  unfold recordOf itemsOf
  rw [foldlM_applyAttribute, ← exprsOf_eq_mapM]
  simp only [bind_assoc, pure_bind]
  congr 1
  funext items
  congr 1
  funext content
  cases content with
  | nil => rfl
  | cons e content =>
    simp only [List.isEmpty_cons, Bool.false_eq_true, if_false, List.foldl_append]
    rfl

theorem nodup_groups_of_names (b : Builder) {attributes : List Attribute} {children : List Node}
    (hnames : (attributes.filterMap Attribute.name?).Nodup)
    (hchildren : (∃ n ∈ children, n.isDropped = false) →
      "children" ∉ attributes.filterMap Attribute.name?) :
    Makes (itemsOf b attributes children) fun items => ∀ g ∈ groupProps items, g.names.Nodup := by
  intro c
  rw [nodup_groupProps_iff, itemsOf_named b attributes children c]
  obtain ⟨halone, hcontent⟩ := spaced_attributes hnames
  split
  · rw [List.append_nil]
    exact halone
  · next hkept =>
    refine hcontent.mpr ?_
    rintro ⟨before, a, after, rfl, hname, _⟩
    refine hchildren (by simpa using hkept) ?_
    exact List.mem_filterMap.mpr ⟨a, by simp, hname⟩

/-- Whether an attribute is a builtin, which is no prop. -/
def isBuiltin : Attribute → Bool
  | .builtin _ _ _ => true
  | .builtinShorthand _ _ => true
  | _ => false

theorem propsOf_filter (b : Builder) (attributes : List Attribute) :
    propsOf b attributes = propsOf b (attributes.filter (!isBuiltin ·)) := by
  induction attributes with
  | nil => rfl
  | cons a rest ih =>
    cases a <;> simp [isBuiltin, propsOf, ih]

/-- Where nothing has content, a component is given the props of its attributes alone. -/
theorem itemsOf_of_dropped (b : Builder) (attributes : List Attribute) {children : List Node}
    (h : ∀ n ∈ children, n.isDropped = true) :
    itemsOf b attributes children = propsOf b (attributes.filter (!isBuiltin ·)) := by
  have hnone : children.filter (!·.isDropped) = [] := by simpa using h
  unfold itemsOf
  rw [exprsOf_eq_mapM, hnone, ← propsOf_filter]
  simp

/-- Two spreads, each after a field that it shares. -/
def sharedFields : Tag :=
  ⟨⟨0, 0⟩, "Card", .component, [.static ⟨0, 0⟩ "title" (.literal "\"x\""), .spread ⟨0, 0⟩ "base",
    .builtin ⟨0, 0⟩ .allocator "a", .static ⟨0, 0⟩ "open" .flag, .spread ⟨0, 0⟩ "more"], .html, ""⟩

/-- Every value is its own text. The one spread has the fields `title` and `open`, the other
`title` alone. -/
def spelledValues : PropValues String where
  value
    | .code text => text
    | .expr _ => ""
  format _ format _ := format
  nodes nodes := toString nodes.length
  spread code name :=
    if name = "title" || name = "open" && code = "base" then some (code ++ "." ++ name) else none

end ZigMarkup.Code
