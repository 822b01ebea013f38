import FileRoutes.Convert
import FileRoutes.Proofs.Roles
import Mathlib.Data.List.Perm.Basic

/-!
# What a tree and a configuration show

A route tree and a configuration both say which files are shown and where. On the side of the tree
each layout, index page and not-found page **shows** a file: below the segments of the directories
around it, and inside the layouts around it. The first layout directly in a directory stands for
the directory: it is shown where the directory is, and carries its segment. On the side of the
configuration each entry is **placed** inside the entries that enclose it, and its address is read
off the paths of these and its own.

Both views are given as lists over the whole tree or configuration.
-/

namespace FileRoutes

/-! ### Nodes of a tree -/

namespace Node

mutual

/-- The node and all nodes inside it, each before its children. -/
def preorder : Node → List Node
  | ⟨kind, path, file, isDynamic, isIndex, children⟩ =>
    ⟨kind, path, file, isDynamic, isIndex, children⟩ :: preorderAll children

/-- The nodes of a list of trees. -/
def preorderAll : List Node → List Node
  | [] => []
  | n :: rest => n.preorder ++ preorderAll rest

end

/-- The preorder opens with the node itself. -/
theorem preorder_eq (n : Node) : n.preorder = n :: preorderAll n.children := by
  cases n
  simp [preorder]

@[simp] theorem preorderAll_nil : preorderAll [] = [] := by simp [preorderAll]

@[simp] theorem preorderAll_cons (n : Node) (rest : List Node) :
    preorderAll (n :: rest) = n.preorder ++ preorderAll rest := by simp [preorderAll]

/-- The nodes of a list of trees are those of its trees. -/
theorem mem_preorderAll_iff {n : Node} {nodes : List Node} :
    n ∈ preorderAll nodes ↔ ∃ root ∈ nodes, n ∈ root.preorder := by
  induction nodes with
  | nil => simp
  | cons root rest ih => simp [ih]

/-- The nodes of two lists of trees follow each other. -/
@[simp] theorem preorderAll_append (ns ms : List Node) :
    preorderAll (ns ++ ms) = preorderAll ns ++ preorderAll ms := by
  induction ns with
  | nil => simp
  | cons n ns ih => simp [ih]

/-- The predicate holds of every node of the trees. -/
def All (P : Node → Prop) (nodes : List Node) : Prop :=
  ∀ n ∈ preorderAll nodes, P n

variable {P : Node → Prop} {n : Node} {ns ms : List Node}

@[simp] theorem all_nil : All P [] := by simp [All]

/-- Every node of a tree: its root and the nodes inside. -/
theorem all_iff_forall_mem : All P ns ↔ ∀ n ∈ ns, P n ∧ All P n.children := by
  simp only [All, mem_preorderAll_iff]
  constructor
  · intro h n hn
    have hself : n ∈ n.preorder := by simp [preorder_eq]
    refine ⟨h n ⟨n, hn, hself⟩, ?_⟩
    rintro m ⟨root, hroot, hm⟩
    have hbelow : m ∈ n.preorder := by
      rw [preorder_eq, List.mem_cons, mem_preorderAll_iff]
      exact .inr ⟨root, hroot, hm⟩
    exact h m ⟨n, hn, hbelow⟩
  · rintro h m ⟨root, hroot, hm⟩
    rw [preorder_eq, List.mem_cons, mem_preorderAll_iff] at hm
    rcases hm with rfl | hm
    · exact (h _ hroot).1
    · exact (h _ hroot).2 m hm

/-- The predicate holds of the trees of a list if it does of those of a list with all of them. -/
theorem All.of_subset (h : All P ns) (hsub : ∀ n ∈ ms, n ∈ ns) : All P ms :=
  all_iff_forall_mem.2 fun n hn => all_iff_forall_mem.1 h n (hsub n hn)

@[simp] theorem all_cons : All P (n :: ns) ↔ (P n ∧ All P n.children) ∧ All P ns := by
  rw [all_iff_forall_mem, List.forall_mem_cons, ← all_iff_forall_mem]

@[simp] theorem all_append : All P (ns ++ ms) ↔ All P ns ∧ All P ms := by
  rw [all_iff_forall_mem, List.forall_mem_append, ← all_iff_forall_mem, ← all_iff_forall_mem]

/-- Trees in another order are the same trees. -/
theorem all_perm_iff (h : ns.Perm ms) : All P ns ↔ All P ms :=
  ⟨fun hn => hn.of_subset fun _ hm => h.mem_iff.2 hm,
    fun hm => hm.of_subset fun _ hn => h.mem_iff.1 hn⟩

end Node

/-! ### Files shown by a tree -/

/-- A file shown by a tree. -/
structure Shown where
  /-- The segments of the directories around it, outermost first, and its own. -/
  segments : List String
  /-- The files of the layouts around it, outermost first. -/
  layouts : List String
  /-- The file. -/
  file : String
  /-- The file is an index page. -/
  isIndex : Bool
  /-- The segment that it carries, if it carries one. -/
  own : Option String
deriving DecidableEq, Repr

namespace Shown

/-- Shown in directories that add `segments`. -/
def below (segments : List String) (x : Shown) : Shown :=
  { x with segments := segments ++ x.segments }

/-- Shown inside the layout `file`. -/
def within (file : String) (x : Shown) : Shown :=
  { x with layouts := file :: x.layouts }

/-- Shown without regard to the segment that it carries. -/
def anonymous (x : Shown) : Shown :=
  { x with own := none }

end Shown

namespace Node

mutual

/-- The files that a node shows, a layout as carrying the segment `own`. -/
def shown (own : Option String) : Node → List Shown
  | ⟨.layout, _, file, _, _, children⟩ =>
    ⟨[], [], file, false, own⟩ :: (shownAll children).map (Shown.within file)
  | ⟨.page, _, file, _, isIndex, _⟩ => if isIndex then [⟨[], [], file, true, none⟩] else []
  | ⟨.notFound, path, file, _, _, _⟩ => [⟨[path], [], file, false, some path⟩]
  | ⟨.route, path, _, _, _, children⟩ => (shownInDirectory path children).map (Shown.below [path])

/-- The files that the nodes of a list show. -/
def shownAll : List Node → List Shown
  | [] => []
  | n :: rest => n.shown none ++ shownAll rest

/-- The files that the children of a directory show: the first layout carries the segment of the
directory. -/
def shownInDirectory (own : String) : List Node → List Shown
  | [] => []
  | n :: rest =>
    if n.isLayout then n.shown (some own) ++ shownAll rest
    else n.shown none ++ shownInDirectory own rest

end

variable {n : Node}

/-- A layout shows its file, and inside it what it wraps. -/
theorem shown_of_layout (h : n.isLayout = true) (own : Option String) :
    n.shown own = ⟨[], [], n.file, false, own⟩ ::
      (shownAll n.children).map (Shown.within n.file) := by
  obtain ⟨kind, path, file, isDynamic, isIndex, children⟩ := n
  obtain rfl : kind = .layout := isLayout_iff.1 h
  simp [shown]

/-- A page shows its file if it is an index. -/
theorem shown_of_page (h : n.kind = .page) (own : Option String) :
    n.shown own = if n.isIndex then [⟨[], [], n.file, true, none⟩] else [] := by
  obtain ⟨kind, path, file, isDynamic, isIndex, children⟩ := n
  obtain rfl : kind = .page := h
  simp [shown]

/-- A not-found page shows its file at its path. -/
theorem shown_of_notFound (h : n.kind = .notFound) (own : Option String) :
    n.shown own = [⟨[n.path], [], n.file, false, some n.path⟩] := by
  obtain ⟨kind, path, file, isDynamic, isIndex, children⟩ := n
  obtain rfl : kind = .notFound := h
  simp [shown]

/-- A directory shows below its segment what its children show. -/
theorem shown_of_route (h : n.isRoute = true) (own : Option String) :
    n.shown own = (shownInDirectory n.path n.children).map (Shown.below [n.path]) := by
  obtain ⟨kind, path, file, isDynamic, isIndex, children⟩ := n
  obtain rfl : kind = .route := isRoute_iff.1 h
  simp [shown]

@[simp] theorem shownAll_nil : shownAll [] = [] := by simp [shownAll]

@[simp] theorem shownAll_cons (n : Node) (rest : List Node) :
    shownAll (n :: rest) = n.shown none ++ shownAll rest := by simp [shownAll]

@[simp] theorem shownAll_append (ns ms : List Node) :
    shownAll (ns ++ ms) = shownAll ns ++ shownAll ms := by
  induction ns with
  | nil => simp
  | cons n ns ih => simp [ih]

theorem shownAll_eq_flatMap (nodes : List Node) : shownAll nodes = nodes.flatMap (shown none) := by
  induction nodes with
  | nil => rw [shownAll_nil, List.flatMap_nil]
  | cons n rest ih => rw [shownAll_cons, ih, List.flatMap_cons]

/-- Trees in another order show the same. -/
theorem shownAll_perm {ns ms : List Node} (h : ns.Perm ms) : (shownAll ns).Perm (shownAll ms) := by
  rw [shownAll_eq_flatMap, shownAll_eq_flatMap]
  exact h.flatMap_right _

@[simp] theorem shownInDirectory_nil (own : String) : shownInDirectory own [] = [] := by
  simp [shownInDirectory]

/-- The first layout carries the segment of the directory, all others none. -/
theorem shownInDirectory_perm {own : String} {children rest : List Node} {layout : Node}
    (hfirst : children.find? isLayout = some layout) (hrest : (layout :: rest).Perm children) :
    (shownInDirectory own children).Perm (layout.shown (some own) ++ shownAll rest) := by
  obtain ⟨hlayout, before, after, rfl, hbefore⟩ := List.find?_eq_some_iff_append.1 hfirst
  -- only the first layout makes a difference, and before it there is none
  have hshown : shownInDirectory own (before ++ layout :: after) =
      shownAll before ++ (layout.shown (some own) ++ shownAll after) := by
    clear hfirst hrest
    induction before with
    | nil => simp [shownInDirectory, hlayout]
    | cons b before ih =>
      have hb : b.isLayout = false := by simpa using hbefore b List.mem_cons_self
      simp only [List.cons_append, shownInDirectory, hb, Bool.false_eq_true, if_false,
        shownAll_cons, List.append_assoc]
      rw [ih fun c hc => hbefore c (List.mem_cons_of_mem b hc)]
  have hothers : rest.Perm (before ++ after) :=
    (hrest.trans List.perm_middle).cons_inv
  rw [hshown]
  calc shownAll before ++ (layout.shown (some own) ++ shownAll after)
    _ = shownAll before ++ layout.shown (some own) ++ shownAll after := by simp
    _ |>.Perm (layout.shown (some own) ++ shownAll before ++ shownAll after) :=
      List.perm_append_comm.append_right _
    _ = layout.shown (some own) ++ shownAll (before ++ after) := by simp
    _ |>.Perm (layout.shown (some own) ++ shownAll rest) :=
      (shownAll_perm hothers.symm).append_left _

end Node

end FileRoutes
