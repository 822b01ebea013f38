import FileRoutes.Proofs.Precedence

/-!
# What sorting siblings gives

Precedence is a total preorder, so a stable sort by it has one result only. That result can be said
without comparing siblings of different sorts: the static directories sorted by segment, then the
dynamic ones sorted by segment, then everything else as it came (`Node.arranged`). The proof goes
along the insertions of the sort. One more sibling is put into its own part, since it may not stand
before what is in the parts in front of that one and may stand before what is in the parts behind
(`Node.sortSiblings_eq_arranged`).

In the tree of a scan every list of siblings is in order: the nodes of a directory, and those that a
layout is put around. Such a list is its own arrangement (`Node.InOrder.arranged_eq`).

Main result: `Job.Run.levels_arranged`, on every interleaved run of a build on any storage.
-/

namespace FileRoutes

namespace Node

variable {siblings : List Node} {n : Node}

/-! ### Precedence as a comparison -/

/-- Seen from the other sibling, precedence is turned round. -/
theorem precedence_swap (a b : Node) : precedence a b = (precedence b a).swap := by
  have hdynamic : compare a.isDynamic b.isDynamic = (compare b.isDynamic a.isDynamic).swap :=
    Std.OrientedOrd.eq_swap
  have hpath : compare a.path b.path = (compare b.path a.path).swap := Std.OrientedOrd.eq_swap
  unfold precedence
  cases a.isRoute <;> cases b.isRoute
  case true.true => rw [hdynamic, hpath, Ordering.swap_then]
  all_goals rfl

/-- **Precedence is a total preorder**: of two siblings one may precede the other, and precedence is
transitive. -/
instance : Std.TransCmp precedence where
  eq_swap := precedence_swap _ _
  isLE_trans := mayPrecede_trans _ _ _

/-! ### Arranged siblings -/

/-- The segment of the first sibling is at most that of the second. -/
def pathLE (a b : Node) : Bool :=
  a.path ≤ b.path

/-- The static or the dynamic directories among the siblings, in the given order. -/
def routesOf (isDynamic : Bool) (siblings : List Node) : List Node :=
  siblings.filter fun n => n.isRoute && n.isDynamic == isDynamic

/-- What is no directory among the siblings, in the given order. -/
def othersOf (siblings : List Node) : List Node :=
  siblings.filter fun n => !n.isRoute

/-- The static directories by segment, then the dynamic ones by segment, then everything else. Where
nothing else is said, siblings are in the given order. -/
def arranged (siblings : List Node) : List Node :=
  (routesOf false siblings).mergeSort pathLE ++
    ((routesOf true siblings).mergeSort pathLE ++ othersOf siblings)

theorem pathLE_trans (a b c : Node) (hab : pathLE a b = true) (hbc : pathLE b c = true) :
    pathLE a c = true := by
  simp only [pathLE, decide_eq_true_eq] at *
  exact String.le_trans hab hbc

theorem pathLE_total (a b : Node) : (pathLE a b || pathLE b a) = true := by
  simpa [pathLE] using String.le_total a.path b.path

/-- By segment, insertion sorts as merging does. -/
theorem stableSort_pathLE (siblings : List Node) :
    stableSort pathLE siblings = siblings.mergeSort pathLE :=
  stableSort_eq_mergeSort pathLE_trans pathLE_total siblings

/-- Sorting by segment leaves directories of one sort. -/
theorem mem_mergeSort_routesOf_iff {isDynamic : Bool} :
    n ∈ (routesOf isDynamic siblings).mergeSort pathLE ↔
      n ∈ siblings ∧ n.isRoute = true ∧ n.isDynamic = isDynamic := by
  simp [routesOf]

theorem isRoute_of_mem_othersOf (h : n ∈ othersOf siblings) : n.isRoute = false := by
  simpa using (List.mem_filter.1 h).2

/-- Only a directory is one more of its sort. -/
theorem routesOf_cons_of_ne {isDynamic : Bool} (h : n.isRoute = true → n.isDynamic ≠ isDynamic) :
    routesOf isDynamic (n :: siblings) = routesOf isDynamic siblings :=
  List.filter_cons_of_neg (by simpa using h)

theorem othersOf_cons_of_isRoute (h : n.isRoute = true) :
    othersOf (n :: siblings) = othersOf siblings :=
  List.filter_cons_of_neg (by simp [h])

theorem othersOf_cons_of_not_isRoute (h : n.isRoute = false) :
    othersOf (n :: siblings) = n :: othersOf siblings :=
  List.filter_cons_of_pos (by simp [h])

/-- A directory is put among those of its sort by its segment. -/
theorem insertSorted_routesOf (hn : n.isRoute = true) :
    insertSorted mayPrecede n ((routesOf n.isDynamic siblings).mergeSort pathLE) =
      (routesOf n.isDynamic (n :: siblings)).mergeSort pathLE := by
  have hbySegment : ∀ b ∈ (routesOf n.isDynamic siblings).mergeSort pathLE,
      mayPrecede n b = pathLE n b := by
    intro b hb
    obtain ⟨-, hroute, hdynamic⟩ := mem_mergeSort_routesOf_iff.1 hb
    rw [Bool.eq_iff_iff, mayPrecede_iff_of_isRoute hn hroute, hdynamic]
    simp [pathLE]
  rw [insertSorted_congr hbySegment, ← stableSort_pathLE, ← stableSort_pathLE]
  simp [routesOf, hn, stableSort]

/-- What is no directory is put in front of its like, behind all directories. -/
theorem insertSorted_arranged_of_not_isRoute (hn : n.isRoute = false) :
    insertSorted mayPrecede n (arranged siblings) = arranged (n :: siblings) := by
  have hbehind : ∀ isDynamic, ∀ b ∈ (routesOf isDynamic siblings).mergeSort pathLE,
      mayPrecede n b = false := by
    intro isDynamic b hb
    by_contra hprecedes
    have hroute := isRoute_of_mayPrecede (by simpa using hprecedes)
      (mem_mergeSort_routesOf_iff.1 hb).2.1
    simp [hn] at hroute
  have hfront : insertSorted mayPrecede n (othersOf siblings) = n :: othersOf siblings :=
    insertSorted_append_of_true
      (fun b hb => mayPrecede_of_not_isRoute (isRoute_of_mem_othersOf hb)) []
  rw [arranged, arranged, insertSorted_append_of_false (hbehind false),
    insertSorted_append_of_false (hbehind true), hfront, routesOf_cons_of_ne (by simp [hn]),
    routesOf_cons_of_ne (by simp [hn]), othersOf_cons_of_not_isRoute hn]

/-- A static directory is put among its like, before everything else. -/
theorem insertSorted_arranged_of_static (hn : n.isRoute = true) (hstatic : n.isDynamic = false) :
    insertSorted mayPrecede n (arranged siblings) = arranged (n :: siblings) := by
  have hbefore : ∀ b ∈ (routesOf true siblings).mergeSort pathLE ++ othersOf siblings,
      mayPrecede n b = true := by
    refine List.forall_mem_append.2 ⟨fun b hb => ?_, fun b hb =>
      mayPrecede_of_not_isRoute (isRoute_of_mem_othersOf hb)⟩
    obtain ⟨-, hroute, hdynamic⟩ := mem_mergeSort_routesOf_iff.1 hb
    exact (mayPrecede_iff_of_isRoute hn hroute).2 (.inl ⟨hstatic, hdynamic⟩)
  have hplace := @insertSorted_routesOf siblings n hn
  have hdynamic : routesOf true (n :: siblings) = routesOf true siblings :=
    routesOf_cons_of_ne (by simp [hstatic])
  rw [hstatic] at hplace
  rw [arranged, arranged, insertSorted_append_of_true hbefore, hplace, hdynamic,
    othersOf_cons_of_isRoute hn]

/-- A dynamic directory is put among its like, between the static ones and what is none. -/
theorem insertSorted_arranged_of_dynamic (hn : n.isRoute = true) (hdynamic : n.isDynamic = true) :
    insertSorted mayPrecede n (arranged siblings) = arranged (n :: siblings) := by
  have hbehind : ∀ b ∈ (routesOf false siblings).mergeSort pathLE, mayPrecede n b = false := by
    intro b hb
    obtain ⟨-, hroute, hstatic⟩ := mem_mergeSort_routesOf_iff.1 hb
    rw [Bool.eq_false_iff, Ne, mayPrecede_iff_of_isRoute hn hroute]
    simp [hdynamic, hstatic]
  have hplace := @insertSorted_routesOf siblings n hn
  have hstatic : routesOf false (n :: siblings) = routesOf false siblings :=
    routesOf_cons_of_ne (by simp [hdynamic])
  rw [hdynamic] at hplace
  rw [arranged, arranged, insertSorted_append_of_false hbehind, insertSorted_append_of_true
    fun b hb => mayPrecede_of_not_isRoute (isRoute_of_mem_othersOf hb), hplace, hstatic,
    othersOf_cons_of_isRoute hn]

/-- **Sorting arranges siblings**: static directories come first, then dynamic ones, each by
segment, and then everything else in the given order. -/
theorem sortSiblings_eq_arranged (siblings : List Node) :
    sortSiblings siblings = arranged siblings := by
  induction siblings with
  | nil => simp [sortSiblings, stableSort, arranged, routesOf, othersOf]
  | cons n rest ih =>
    have hinsert : sortSiblings (n :: rest) = insertSorted mayPrecede n (arranged rest) := by
      rw [← ih]
      rfl
    rw [hinsert]
    cases hroute : n.isRoute with
    | false => exact insertSorted_arranged_of_not_isRoute hroute
    | true =>
      cases hdynamic : n.isDynamic with
      | false => exact insertSorted_arranged_of_static hroute hdynamic
      | true => exact insertSorted_arranged_of_dynamic hroute hdynamic

/-- Siblings in order are arranged. -/
theorem InOrder.arranged_eq (h : InOrder siblings) : arranged siblings = siblings := by
  rw [← sortSiblings_eq_arranged, sortSiblings,
    stableSort_eq_mergeSort mayPrecede_trans mayPrecede_total]
  exact List.mergeSort_of_pairwise h

/-- The lists of siblings of a route tree: the nodes at the top, and those directly inside each
node. -/
def levels (nodes : List Node) : List (List Node) :=
  nodes :: (preorderAll nodes).map (·.children)

/-- What holds of every list of siblings holds of those at the top, and inside of every node. -/
theorem forall_mem_levels_iff {P : List Node → Prop} {nodes : List Node} :
    (∀ level ∈ levels nodes, P level) ↔ P nodes ∧ All (P ·.children) nodes := by
  simp [levels, All]

end Node

/-! ### The levels of a scanned tree -/

namespace Folder

variable {ignored : IgnoreSet} {reference : String → String} {path : String} {F : Folder}

/-- What is inside a node is in order. -/
theorem Origin.inOrder_children {n : Node} (h : Origin ignored reference path F n) :
    Node.InOrder n.children := by
  cases h with
  | page _ _ =>
    rw [children_pageNode]
    exact .nil
  | layout _ _ => exact Node.inOrder_sortSiblings _
  | folder _ _ => exact inOrder_nodes

/-- Every list of siblings of the tree of a folder is in order. -/
theorem inOrder_levels :
    ∀ level ∈ Node.levels (F.nodes ignored reference path), Node.InOrder level :=
  Node.forall_mem_levels_iff.2 ⟨inOrder_nodes, fun n hn =>
    (all_origin_nodes F ignored reference path n hn).inOrder_children⟩

end Folder

/-- **Siblings are sorted as specified.** Precedence is a total preorder. Sorting puts the static
directories first and then the dynamic ones, both sorted by segment and stably, and leaves
everything else behind them in its order. In every run of a build that returns a tree, on any
storage, each list of siblings of the tree is arranged in this way. -/
theorem Job.Run.levels_arranged :
    Std.TransCmp Node.precedence ∧
    (∀ siblings, Node.sortSiblings siblings = Node.arranged siblings) ∧
    ∀ {σ : Type} {storage : Storage (StateM σ)} {o : Options} {depth : Nat} {s s' : σ}
      {events : List Event} {job : Job (List Node)} {tree : List Node},
      Job.Run storage (buildTree o depth) s events job s' → job.result? = some (.ok tree) →
      ∀ level ∈ Node.levels tree, Node.arranged level = level := by
  refine ⟨inferInstance, Node.sortSiblings_eq_arranged, ?_⟩
  intro σ storage o depth s s' events job tree hrun hresult level hlevel
  obtain ⟨ignored, F, -, -, rfl, -⟩ := hrun.exists_folder hresult
  exact (Folder.inOrder_levels level hlevel).arranged_eq

/-- The levels of the catalog are arranged. -/
theorem Job.Run.levels_arranged_catalog : ∃ events job m',
    Job.Run Memory.storage (buildTree {} (Memory.catalog.scanDepth {})) Memory.catalog events job
        m' ∧
      job.result? = some (.ok Memory.catalogTree) ∧
      ∀ level ∈ Node.levels Memory.catalogTree, Node.arranged level = level := by
  obtain ⟨events, job, hrun, hresult⟩ := Job.exists_run_sequential Memory.storage
    (buildTree {} (Memory.catalog.scanDepth {})) Memory.catalog
  have hbuilt := hresult.trans (congrArg some Memory.buildTree_catalog)
  exact ⟨events, job, _, hrun, hbuilt, Job.Run.levels_arranged.2.2 hrun hbuilt⟩

end FileRoutes
