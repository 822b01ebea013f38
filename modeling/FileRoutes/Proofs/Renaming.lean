import FileRoutes.Proofs.Levels

/-!
# Files under other names

Neither the order of siblings nor the conversion looks at the references of files. Renaming the
files of a route tree therefore commutes with both: the siblings come in the same order, the
children of a directory have the same roles, and the configuration is the same with its files
renamed (`convert_map_renamed`). A configuration is left as it is by a renaming that leaves the file
of each entry as it is, and by no other (`Entry.map_renamed_eq_self_iff`).
-/

namespace FileRoutes

variable {f : String → String}

/-! ### Renaming -/

namespace Node

mutual

/-- The tree with all files renamed. -/
def renamed (f : String → String) : Node → Node
  | ⟨kind, path, file, isDynamic, isIndex, children⟩ =>
    ⟨kind, path, f file, isDynamic, isIndex, renamedAll f children⟩

/-- The trees with all files renamed. -/
def renamedAll (f : String → String) : List Node → List Node
  | [] => []
  | n :: rest => renamed f n :: renamedAll f rest

end

theorem renamedAll_eq_map (nodes : List Node) : renamedAll f nodes = nodes.map (renamed f) := by
  induction nodes with
  | nil => rw [renamedAll, List.map_nil]
  | cons n rest ih => rw [renamedAll, List.map_cons, ih]

theorem renamed_eq (n : Node) : n.renamed f =
    { n with file := f n.file, children := n.children.map (renamed f) } := by
  cases n
  rw [renamed, renamedAll_eq_map]

@[simp] theorem kind_renamed (n : Node) : (n.renamed f).kind = n.kind := by
  rw [renamed_eq]

@[simp] theorem path_renamed (n : Node) : (n.renamed f).path = n.path := by
  rw [renamed_eq]

@[simp] theorem file_renamed (n : Node) : (n.renamed f).file = f n.file := by
  rw [renamed_eq]

@[simp] theorem isDynamic_renamed (n : Node) : (n.renamed f).isDynamic = n.isDynamic := by
  rw [renamed_eq]

@[simp] theorem isIndex_renamed (n : Node) : (n.renamed f).isIndex = n.isIndex := by
  rw [renamed_eq]

@[simp] theorem children_renamed (n : Node) :
    (n.renamed f).children = n.children.map (renamed f) := by
  rw [renamed_eq]

@[simp] theorem isRoute_renamed (n : Node) : (n.renamed f).isRoute = n.isRoute := by
  simp [isRoute]

@[simp] theorem isLayout_renamed (n : Node) : (n.renamed f).isLayout = n.isLayout := by
  simp [isLayout]

@[simp] theorem isIndexPage_renamed (n : Node) : (n.renamed f).isIndexPage = n.isIndexPage := by
  simp [isIndexPage]

theorem any_isLayout_map_renamed (nodes : List Node) :
    (nodes.map (renamed f)).any isLayout = nodes.any isLayout := by
  simp [List.any_map, Function.comp_def]

end Node

namespace Entry

mutual

/-- The entry with all files renamed. -/
def renamed (f : String → String) : Entry → Entry
  | ⟨path, file, isIndex, children⟩ => ⟨path, f file, isIndex, renamedAll f children⟩

/-- The entries with all files renamed. -/
def renamedAll (f : String → String) : List Entry → List Entry
  | [] => []
  | e :: rest => renamed f e :: renamedAll f rest

end

theorem renamedAll_eq_map (entries : List Entry) :
    renamedAll f entries = entries.map (renamed f) := by
  induction entries with
  | nil => rw [renamedAll, List.map_nil]
  | cons e rest ih => rw [renamedAll, List.map_cons, ih]

theorem renamed_eq (e : Entry) : e.renamed f =
    { e with file := f e.file, children := e.children.map (renamed f) } := by
  cases e
  rw [renamed, renamedAll_eq_map]

mutual

private theorem renamed_eq_self_iff : (e : Entry) →
    (e.renamed f = e ↔ ∀ q ∈ e.preorder, f q.file = q.file)
  | ⟨path, file, isIndex, children⟩ => by
    rw [renamed_eq, preorder_eq, List.forall_mem_cons, ← map_renamed_eq_self_iff children]
    simp

/-- A renaming leaves a configuration as it is if and only if it leaves the files of all entries as
they are. -/
theorem map_renamed_eq_self_iff : (entries : List Entry) →
    (entries.map (renamed f) = entries ↔ ∀ q ∈ preorderAll entries, f q.file = q.file)
  | [] => by simp
  | e :: rest => by
    rw [List.map_cons, List.cons.injEq, renamed_eq_self_iff e, map_renamed_eq_self_iff rest,
      preorderAll_cons, List.forall_mem_append]

end

end Entry

/-! ### Siblings -/

/-- Sorting commutes with a map that keeps the order. -/
theorem stableSort_map {α β : Type} {le : α → α → Bool} {le' : β → β → Bool} {g : α → β}
    (h : ∀ a b, le' (g a) (g b) = le a b) (l : List α) :
    stableSort le' (l.map g) = (stableSort le l).map g := by
  have hinsert : ∀ a l, insertSorted le' (g a) (l.map g) = (insertSorted le a l).map g := by
    intro a l
    induction l with
    | nil => rfl
    | cons b rest ih =>
      rw [List.map_cons, insertSorted, insertSorted, h, ih]
      split <;> rfl
  induction l with
  | nil => rfl
  | cons a rest ih => rw [List.map_cons, stableSort, stableSort, ih, hinsert]

/-- Siblings come in the same order under other names of files. -/
theorem Node.sortSiblings_map_renamed (nodes : List Node) :
    sortSiblings (nodes.map (renamed f)) = (sortSiblings nodes).map (renamed f) :=
  stableSort_map (fun a b => by simp [mayPrecede, precedence]) nodes

namespace Partition

/-- The children by role, with all files renamed. -/
def renamed (f : String → String) (p : Partition) : Partition where
  layout := p.layout.map (Node.renamed f)
  index := p.index.map (Node.renamed f)
  dynamic := p.dynamic.map (Node.renamed f)
  other := p.other.map (Node.renamed f)

theorem add_renamed (hasLayout hoist : Bool) (p : Partition) (child : Node) :
    (p.renamed f).add hasLayout hoist (child.renamed f) =
      (p.add hasLayout hoist child).renamed f := by
  unfold add
  simp only [Node.isLayout_renamed, Node.isIndexPage_renamed, Node.isRoute_renamed,
    Node.isDynamic_renamed, renamed, Option.isNone_map]
  split
  · rfl
  · split
    · rfl
    · split <;> simp

/-- The children of a directory have the same roles under other names of files. -/
theorem split_map_renamed (hoist : Bool) (children : List Node) :
    split hoist (children.map (Node.renamed f)) = (split hoist children).renamed f := by
  rw [split, split, List.foldl_map, Node.any_isLayout_map_renamed]
  change List.foldl _ (renamed f {}) children = _
  exact List.foldl_hom (renamed f) fun p child => add_renamed _ hoist p child

theorem sign?_renamed (p : Partition) : (p.renamed f).sign? = p.sign?.map (Node.renamed f) := by
  obtain ⟨layout?, index?, dynamic, other⟩ := p
  cases layout? <;> rfl

theorem inside_renamed (p : Partition) :
    (p.renamed f).inside = p.inside.map (Node.renamed f) := by
  obtain ⟨layout?, index?, dynamic, other⟩ := p
  cases layout? with
  | none => rfl
  | some layout => simp [inside, renamed]

end Partition

/-! ### Conversion -/

/-- A not-found page adds the same to the end of its level under another name of its file. -/
theorem notFoundRoute?_renamed (n : Node) :
    notFoundRoute? (n.renamed f) = (notFoundRoute? n).map (Entry.renamed f) := by
  unfold notFoundRoute?
  rw [Node.kind_renamed]
  split
  · simp [Entry.route, Entry.renamed_eq]
  · rfl

/-- **Renaming the files of a route tree renames those of its configuration** and changes nothing
else. -/
theorem convert_map_renamed (f : String → String) (nodes : List Node) :
    convert (nodes.map (Node.renamed f)) = (convert nodes).map (Entry.renamed f) := by
  -- the roles of children do not depend on their files
  have hroles : ∀ (hoist : Bool) (d : Node), Partition.split hoist (d.renamed f).children =
      (Partition.split hoist d.children).renamed f := fun hoist d => by
    rw [Node.children_renamed, Partition.split_map_renamed]
  refine convert_induction
    (fun nodes => convert (nodes.map (Node.renamed f)) = (convert nodes).map (Entry.renamed f))
    (fun n => convertNode (n.renamed f) = (convertNode n).map (Entry.renamed f))
    (fun hoist d => ∀ path, resolve path (.split hoist (d.renamed f).children) =
      (resolve path (.split hoist d.children)).map (Entry.renamed f))
    ?level ?layout ?page ?notFound ?route ?resolved nodes
  case level =>
    intro nodes ih
    rw [convert_eq, convert_eq, List.map_append, List.filterMap_map, List.map_filterMap,
      List.flatMap_map, List.map_flatMap]
    exact congrArg₂ _ (List.flatMap_congr ih)
      (List.filterMap_congr fun n _ => notFoundRoute?_renamed n)
  case layout =>
    intro n hkind ih
    rw [convertNode_of_layout (by rw [Node.kind_renamed, hkind]), convertNode_of_layout hkind]
    simp [ih, Entry.layout, Entry.renamed_eq]
  case page =>
    intro n hkind
    rw [convertNode_of_page (by rw [Node.kind_renamed, hkind]), convertNode_of_page hkind]
    cases hindex : n.isIndex <;> simp [hindex, Entry.index, Entry.renamed_eq]
  case notFound =>
    intro n hkind
    rw [convertNode_of_notFound (by rw [Node.kind_renamed, hkind]), convertNode_of_notFound hkind]
    rfl
  case route =>
    intro n hkind hresolved hhoisted
    have hdynamic : (Partition.split true (n.renamed f).children).dynamic =
        (Partition.split true n.children).dynamic.map (Node.renamed f) := by
      rw [hroles]
      rfl
    rw [convertNode_of_route (by rw [Node.kind_renamed, hkind]), convertNode_of_route hkind,
      Node.path_renamed, hresolved, hdynamic, List.map_append, List.flatMap_map, List.map_flatMap]
    refine congrArg _ (List.flatMap_congr fun d hd => ?_)
    rw [Node.path_renamed, hhoisted d hd]
  case resolved =>
    intro hoist d ih path
    rw [hroles]
    cases hsign : (Partition.split hoist d.children).sign? with
    | none =>
      rw [resolve_of_sign?_eq_none (by rw [Partition.sign?_renamed, hsign]; rfl),
        resolve_of_sign?_eq_none hsign, Partition.inside_renamed, ih]
    | some sign =>
      rw [resolve_of_sign?_eq_some (by rw [Partition.sign?_renamed, hsign]; rfl),
        resolve_of_sign?_eq_some hsign, Partition.inside_renamed, ih]
      simp [Entry.route, Entry.renamed_eq]

end FileRoutes
