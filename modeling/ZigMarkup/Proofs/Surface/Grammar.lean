import ZigMarkup.Proofs.Surface.Nesting
import ZigMarkup.Proofs.Surface.Nodes

/-!
The grammar is accepted in full. The text of every file of surface templates is read without
errors, as the tree that the file stands for, and lowered to its templates exactly if all tags
keep their rules.
-/
namespace ZigMarkup.Surface

open OfTree

/-! ## No errors -/

/-- A tree in which nothing is unreadable. -/
def Clean (t : Tree) : Prop := t.Everywhere fun u => u.kind ≠ .error

def CleanAll (ts : List Tree) : Prop := ∀ t ∈ ts, Clean t

@[simp]
theorem clean_nodeAt {kind : Kind} {pos : Nat} {s : String} {children : List Tree} :
    Clean (nodeAt kind pos s children) ↔ kind ≠ .error ∧ CleanAll children :=
  Tree.everywhere_iff

@[simp]
theorem cleanAll_nil : CleanAll [] := List.forall_mem_nil _

@[simp]
theorem clean_leafAt {kind : Kind} {pos : Nat} {s : String} :
    Clean (leafAt kind pos s) ↔ kind ≠ .error :=
  Tree.everywhere_iff.trans (and_iff_left cleanAll_nil)

@[simp]
theorem cleanAll_cons {t : Tree} {ts : List Tree} :
    CleanAll (t :: ts) ↔ Clean t ∧ CleanAll ts :=
  List.forall_mem_cons

@[simp]
theorem cleanAll_append {ts us : List Tree} :
    CleanAll (ts ++ us) ↔ CleanAll ts ∧ CleanAll us :=
  List.forall_mem_append

@[simp]
theorem captureTrees_clean (pos : Nat) (capture? : Option (Capture × Gap)) :
    CleanAll (captureTrees pos capture?) := by
  cases capture? <;> simp [captureTrees]

@[simp]
theorem literalTrees_clean (pos : Nat) (l? : Option Literal) : CleanAll (literalTrees pos l?) := by
  cases l? <;> simp [literalTrees]

@[simp]
theorem interpolationTrees_clean (pos : Nat) (rest : List Interpolation) :
    CleanAll (interpolationTrees pos rest) := by
  induction rest generalizing pos with
  | nil => exact cleanAll_nil
  | cons i rest ih => simp [interpolationTrees, ih]

@[simp]
theorem Plain.tree_clean (value : Plain) (pos : Nat) : Clean (value.tree pos) := by
  cases value <;> simp [Plain.tree]

@[simp]
theorem runTrees_clean (pos : Nat) (run? : Option Run) : CleanAll (runTrees pos run?) := by
  cases run? <;> simp [runTrees]

@[simp]
theorem hostTrees_clean (pos : Nat) (host : Host) : CleanAll (hostTrees pos host) := by
  unfold hostTrees
  split <;> simp

mutual
theorem Markup.tree_clean (markup : Markup) (pos : Nat) : Clean (markup.tree pos) := by
  cases markup with
  | element name proper attributes gap children before after =>
    simp [Markup.tree, attributes.trees_clean, children.trees_clean]
  | selfClosing name attributes gap => simp [Markup.tree, attributes.trees_clean]
  | fragment children gap => simp [Markup.tree, children.trees_clean]

theorem Children.trees_clean (children : Children) (pos : Nat) :
    CleanAll (children.trees pos) := by
  cases children with
  | mk run? items => simp [Children.trees, items.trees_clean]

theorem Items.trees_clean (items : Items) (pos : Nat) : CleanAll (items.trees pos) := by
  cases items with
  | done => exact cleanAll_nil
  | markup markup rest => simp [Items.trees, markup.tree_clean, rest.trees_clean]
  | braces braces rest => simp [Items.trees, braces.tree_clean, rest.trees_clean]

theorem Braces.tree_clean (braces : Braces) {kind : Kind} (hkind : kind ≠ .error) (pos : Nat) :
    Clean (braces.tree kind pos) := by
  cases braces with
  | code before code after => simp [Braces.tree, hkind]
  | root before root after => simp [Braces.tree, hkind, root.tree_clean]
  | flow before flow after => simp [Braces.tree, hkind, flow.tree_clean]

theorem Root.tree_clean (root : Root) (pos : Nat) : Clean (root.tree pos) := by
  cases root with
  | mk before markup after => simp [Root.tree, markup.tree_clean]

theorem Body.tree_clean (body : Body) (pos : Nat) : Clean (body.tree pos) := by
  cases body with
  | root root => simp [Body.tree, root.tree_clean]
  | list children => simp [Body.tree, children.trees_clean]

theorem Flow.tree_clean (flow : Flow) (pos : Nat) : Clean (flow.tree pos) := by
  cases flow with
  | ifElse before header after body chain => simp [Flow.tree, body.tree_clean, chain.trees_clean]
  | forLoop before header after body => simp [Flow.tree, body.tree_clean]
  | whileLoop before header continue? after body => simp [Flow.tree, body.tree_clean]
  | switch before subject between first prongs => simp [Flow.tree, prongs.trees_clean]

theorem Chain.trees_clean (chain : Chain) (pos : Nat) : CleanAll (chain.trees pos) := by
  cases chain with
  | done => exact cleanAll_nil
  | elseIf before space gap header after body rest =>
    simp [Chain.trees, body.tree_clean, rest.trees_clean]
  | otherwise before gap capture? body => simp [Chain.trees, body.tree_clean]

theorem Prongs.trees_clean (prongs : Prongs) (pos : Nat) : CleanAll (prongs.trees pos) := by
  cases prongs with
  | last pattern before after capture? body gap comma? => simp [Prongs.trees, body.tree_clean]
  | more pattern before after capture? body gap next rest =>
    simp [Prongs.trees, body.tree_clean, rest.trees_clean]

theorem Attrs.trees_clean (attributes : Attrs) (pos : Nat) :
    CleanAll (attributes.trees pos) := by
  cases attributes with
  | done => exact cleanAll_nil
  | more space attr rest => simp [Attrs.trees, attr.tree_clean, rest.trees_clean]

theorem Attr.tree_clean (attr : Attr) (pos : Nat) : Clean (attr.tree pos) := by
  cases attr with
  | static name before after value => simp [Attr.tree, value.tree_clean]
  | _ => simp [Attr.tree]

theorem Value.tree_clean (value : Value) (pos : Nat) : Clean (value.tree pos) := by
  cases value with
  | braces braces => exact braces.tree_clean (by decide) pos
  | _ => simp [Value.tree]
end

theorem File.trees_clean (file : File) (pos : Nat) : CleanAll (file.trees pos) := by
  induction file generalizing pos with
  | last host => exact hostTrees_clean pos host
  | more host root rest ih => simp [File.trees, root.tree_clean, ih]

theorem Clean.hasErrors {t : Tree} (h : Clean t) : t.hasErrors = false := by
  refine List.any_eq_false.mpr fun u hu => ?_
  simpa [Tree.isError] using h u hu

/-! ## Files -/

theorem File.lowered {source : Bytes} (file : File) {pos : Nat}
    (h : Located source pos file.text) :
    Yields (((file.trees pos).filter (·.kind == .templateRoot)).mapM fun root => do
        return (⟨root.span, ← rootOf source root.span root.children, ""⟩ : Template))
      file.Valid (file.templates pos) := by
  have hhost : ∀ host p, (hostTrees p host).filter (·.kind == .templateRoot) = [] := by
    intro host p
    unfold hostTrees
    split <;> rfl
  induction file generalizing pos with
  | last host =>
    rw [File.trees, hhost]
    exact Yields.ok []
  | more host root rest ih =>
    simp only [File.text, located_append] at h
    obtain ⟨⟨_, hroot⟩, hrest⟩ := h
    have hkind : ((root.tree (pos + width host.text)).kind == .templateRoot) = true := by
      cases root
      rfl
    have hspan : (root.tree (pos + width host.text)).span =
        spanAt (pos + width host.text) root.text := by
      cases root
      rfl
    rw [File.trees, List.filter_append, hhost, List.nil_append, List.filter_cons, if_pos hkind,
      List.mapM_cons, hspan]
    exact ((root.lowered _ hroot).map _).bind ((ih hrest).map _)

/-- Every file of surface templates is read without errors, as the tree that it stands for, and
lowered to its templates exactly if its tags keep their rules. -/
theorem File.read_and_lowered (file : File) :
    parse (utf8 file.text) = file.tree ∧ (parse (utf8 file.text)).hasErrors = false ∧
      ∀ templates, templatesOf (utf8 file.text) (parse (utf8 file.text)) = .ok templates ↔
        file.Valid ∧ templates = file.templates 0 := by
  have hread := parse_append file
  have hclean : file.tree.hasErrors = false :=
    Clean.hasErrors (clean_nodeAt.mpr ⟨by decide, file.trees_clean 0⟩)
  refine ⟨hread, hread ▸ hclean, fun templates => ?_⟩
  have hplace : Located (utf8 file.text) 0 file.text := List.prefix_refl _
  rw [hread]
  unfold templatesOf
  rw [Tree.errors_eq_nil hclean]
  exact file.lowered hplace templates

def oneSpace : Space := ⟨⟨" ", by simp⟩, by decide⟩

def itemExpr : Expr where
  text := "item"
  nonempty := by decide
  trimmed := by decide +kernel
  balanced := by intro finish closer outer offset after; rfl
  noTemplate := by intro after; rfl
  noFlow := by intro pos gap after; rfl

def eachItem : Header :=
  ⟨⟨"(items)", by decide, fun _ => rfl⟩, some (oneSpace.toGap, ⟨"item", by decide⟩)⟩

def itemBody : Body :=
  .root (.mk .none (.element ⟨"li", by decide, by decide⟩ (by decide) .done .none
    (.mk none (.braces (.code .none itemExpr .none) (.mk none .done))) .none .none) .none)

def quotedLetter : Quoted where
  inner := "a"
  closed := by
    intro after
    change quotedTail (ascii '"') (ascii 'a' :: ascii '"' :: after) = ⟨2, true⟩
    rw [quotedTail.eq_def]
    dsimp only
    rw [if_neg (by decide), if_neg (by decide), if_neg (by decide), quotedTail.eq_def]
    dsimp only
    rw [if_neg (by decide), if_pos rfl]

def listFile : File :=
  .more ⟨"return ", fun _ _ _ => rfl⟩
    (.mk .none (.element ⟨"ul", by decide, by decide⟩ (by decide)
      (.more oneSpace (.static ⟨"id", by decide, by decide⟩ .none .none (.string quotedLetter))
        (.more oneSpace (.shorthand .none ⟨"on", by decide, by decide⟩ .none) .done)) .none
      (.mk none (.braces (.flow .none
        (.forLoop oneSpace.toGap eachItem oneSpace.toGap itemBody) .none) (.mk none .done)))
      .none .none) .none)
    (.last ⟨";", fun _ _ _ => rfl⟩)

theorem listFile_valid : listFile.Valid := by
  have hinner : itemBody.Valid := by
    refine ⟨⟨trivial, ?_, ?_, ?_⟩, ⟨trivial, trivial⟩, ?_⟩
    all_goals decide
  refine ⟨⟨⟨⟨trivial, trivial, trivial⟩, ?_, ?_, ?_⟩, ⟨hinner, trivial⟩, ?_⟩, trivial⟩
  all_goals decide

theorem File.read_and_lowered_list : listFile.text = "return (<ul id=\"a\" \x7bon\x7d>" ++
    "\x7bfor (items) |item| (<li>\x7bitem\x7d</li>)\x7d</ul>);" ∧
      templatesOf (utf8 listFile.text) (parse (utf8 listFile.text)) =
        .ok (listFile.templates 0) := by
  refine ⟨by decide +kernel, ((File.read_and_lowered listFile).2.2 _).mpr ⟨listFile_valid, rfl⟩⟩

end ZigMarkup.Surface
