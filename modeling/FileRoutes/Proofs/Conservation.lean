import FileRoutes.Proofs.Content
import FileRoutes.Proofs.Conversion
import Mathlib.Algebra.Order.Group.Multiset

/-!
# The conversion conserves files

A node list of any shape is converted without losing, repeating or inventing a file: those of the
entries are the files of the layouts, index pages and not-found pages that are reached through
layouts and directories (`Node.files`). Whatever is inside a page is out of reach.

Along the conversion, what the children of a directory hold is shared out: each child has one role,
and whichever is the sign of the directory leaves its own file in the entry (`Proper.files_kept`).

Main result: `files_convert`.
-/

namespace FileRoutes

/-! ### The files of a configuration -/

namespace Entry

/-- The files of all entries that a walk through the configuration visits. -/
def files (entries : List Entry) : Multiset String :=
  (entries.flatMap walk).map (·.file)

variable {e : Entry} {es fs : List Entry}

theorem files_eq : files es = ((preorderAll es).map (·.file) : List String) := by
  rw [files, flatMap_walk]

@[simp] theorem files_nil : files [] = 0 := rfl

@[simp] theorem files_cons : files (e :: es) = e.file ::ₘ (files e.children + files es) := by
  simp [files_eq, preorder_eq]

@[simp] theorem files_append : files (es ++ fs) = files es + files fs := by
  simp [files_eq]

/-- Entries in another order have the same files. -/
theorem files_perm (h : es.Perm fs) : files es = files fs := by
  rw [files, files, Multiset.coe_eq_coe]
  exact (h.flatMap_right walk).map _

/-- Every entry has one file. -/
theorem card_files : (files es).card = count es := by
  simp [files, count]

end Entry

/-! ### The files of a tree -/

namespace Node

/-- What is inside the node is part of the routes: it is a layout or a directory. -/
def isOpen (n : Node) : Bool :=
  n.isLayout || n.isRoute

/-- The node brings a file of its own: it is a layout, an index page or a not-found page. -/
def bringsFile (n : Node) : Bool :=
  n.isLayout || n.isIndexPage || n.kind = .notFound

mutual

/-- The node and the nodes inside it that are reached through layouts and directories alone. -/
def reached : Node → List Node
  | ⟨kind, path, file, isDynamic, isIndex, children⟩ =>
    ⟨kind, path, file, isDynamic, isIndex, children⟩ ::
      if isOpen ⟨kind, path, file, isDynamic, isIndex, children⟩ then reachedAll children else []

/-- The nodes that are reached from a list of trees. -/
def reachedAll : List Node → List Node
  | [] => []
  | n :: rest => n.reached ++ reachedAll rest

end

/-- The files of the layouts, index pages and not-found pages that are reached from the nodes. -/
def files (nodes : List Node) : Multiset String :=
  ((reachedAll nodes).filter bringsFile).map (·.file)

variable {n : Node} {ns ms : List Node}

theorem reached_eq (n : Node) :
    n.reached = n :: if n.isOpen then reachedAll n.children else [] := by
  cases n
  rw [reached]

@[simp] theorem files_nil : files [] = 0 := by
  simp [files, reachedAll]

/-- The files of a node are its own, if it brings one, and those inside, if it is open. -/
theorem files_cons : files (n :: ns) =
    (if n.bringsFile then {n.file} else 0) + (if n.isOpen then files n.children else 0) +
      files ns := by
  simp only [files, reachedAll, reached_eq, List.cons_append, List.filter_cons, List.filter_append]
  split <;> split <;> simp

@[simp] theorem files_append : files (ns ++ ms) = files ns + files ms := by
  induction ns with
  | nil => simp
  | cons n ns ih => simp only [List.cons_append, files_cons, ih, add_assoc]

/-- Nodes in another order have the same files. -/
theorem files_perm (h : ns.Perm ms) : files ns = files ms := by
  induction h with
  | nil => rfl
  | cons n _ ih => rw [files_cons, files_cons, ih]
  | swap n m ns => simp only [files_cons, add_left_comm, add_comm, add_assoc]
  | trans _ _ ih ih' => exact ih.trans ih'

/-- A layout has its own file and those inside. -/
theorem files_cons_of_isLayout (h : n.isLayout = true) :
    files (n :: ns) = n.file ::ₘ (files n.children + files ns) := by
  simp [files_cons, bringsFile, isOpen, h]

/-- A directory has the files inside. -/
theorem files_cons_of_isRoute (h : n.isRoute = true) :
    files (n :: ns) = files n.children + files ns := by
  have hkind : n.kind = .route := isRoute_iff.1 h
  simp [files_cons, bringsFile, isOpen, isLayout, isIndexPage, isRoute, hkind]

/-- Of a page only its own file is part of the routes, and that only if it is an index page. -/
theorem files_cons_of_page (h : n.kind = .page) :
    files (n :: ns) = (if n.isIndex then {n.file} else 0) + files ns := by
  simp [files_cons, bringsFile, isOpen, isLayout, isIndexPage, isRoute, h]

/-- A not-found page has its own file. -/
theorem files_cons_of_notFound (h : n.kind = .notFound) :
    files (n :: ns) = n.file ::ₘ files ns := by
  simp [files_cons, bringsFile, isOpen, isLayout, isIndexPage, isRoute, h]

/-- An index page has its own file. -/
theorem files_cons_of_isIndexPage (h : n.isIndexPage = true) :
    files (n :: ns) = n.file ::ₘ files ns := by
  obtain ⟨hkind, hindex⟩ := isIndexPage_iff.1 h
  rw [files_cons_of_page hkind, if_pos hindex, Multiset.singleton_add]

end Node

/-! ### The files of a directory by role -/

namespace Partition

/-- The children have the roles that they can have, and only one of them the entry of the
directory. -/
structure Proper (p : Partition) : Prop where
  layout : ∀ layout, p.layout = some layout → layout.isLayout = true
  index : ∀ index, p.index = some index → index.isIndexPage = true
  alone : p.layout.isSome = true → p.index = none

/-- The children of a directory by role are so. -/
theorem proper_split (hoist : Bool) (children : List Node) : (split hoist children).Proper where
  layout layout h := by
    rw [layout_split] at h
    exact List.find?_some h
  index _ h := isIndexPage_of_index_split h
  alone h := by
    rw [layout_split, List.find?_isSome] at h
    exact index_split (by simpa using h)

/-- The children that stay in the entry of their directory or become it. -/
def kept (p : Partition) : List Node :=
  p.layout.toList ++ p.index.toList ++ p.other

/-- The files of a directory are those of the children that it keeps and of those taken out. -/
theorem files_split (hoist : Bool) (children : List Node) :
    Node.files (split hoist children).kept + Node.files (split hoist children).dynamic =
      Node.files children := by
  rw [← Node.files_perm (all_split_perm hoist children)]
  simp only [kept, all, Node.files_append]
  rw [add_right_comm]

/-- A directory without a sign keeps what is left inside. -/
theorem kept_of_sign?_eq_none {p : Partition} (h : p.sign? = none) : p.kept = p.inside := by
  obtain ⟨layout?, index?, dynamic, other⟩ := p
  obtain ⟨rfl, rfl⟩ : layout? = none ∧ index? = none := by simpa [sign?] using h
  rfl

/-- A directory with a sign keeps the file of that and what is left inside. -/
theorem Proper.files_kept {p : Partition} {sign : Node} (hp : p.Proper) (h : p.sign? = some sign) :
    Node.files p.kept = sign.file ::ₘ Node.files p.inside := by
  obtain ⟨layout?, index?, dynamic, other⟩ := p
  cases layout? with
  | some layout =>
    obtain rfl : layout = sign := by simpa [sign?] using h
    obtain rfl : index? = none := hp.alone rfl
    have hkept : kept ⟨some layout, none, dynamic, other⟩ = layout :: other := rfl
    rw [hkept, Node.files_cons_of_isLayout (hp.layout layout rfl), inside, Node.files_append]
  | none =>
    obtain rfl : index? = some sign := by simpa [sign?] using h
    have hkept : kept ⟨none, some sign, dynamic, other⟩ = sign :: other := rfl
    rw [hkept, Node.files_cons_of_isIndexPage (hp.index sign rfl), inside]

end Partition

/-! ### The conversion -/

/-- Nodes that are converted one by one without losing a file are so together. -/
theorem files_flatMap {nodes : List Node} {f : Node → List Entry}
    (h : ∀ n ∈ nodes, Entry.files (f n) = Node.files [n]) :
    Entry.files (nodes.flatMap f) = Node.files nodes := by
  induction nodes with
  | nil => rfl
  | cons n rest ih =>
    obtain ⟨hn, hrest⟩ := List.forall_mem_cons.1 h
    rw [List.flatMap_cons, Entry.files_append, hn, ih hrest, ← Node.files_append,
      List.singleton_append]

/-- A dynamic directory that is taken out has all its files in the part that is kept. -/
theorem files_kept_of_isRoute {d : Node} (h : d.isRoute = true) :
    Node.files (Partition.split false d.children).kept = Node.files [d] := by
  have hsplit := Partition.files_split false d.children
  have hdynamic : (Partition.split false d.children).dynamic = [] :=
    Partition.dynamic_hoisted d.children
  rw [hdynamic, Node.files_nil, add_zero] at hsplit
  rw [hsplit, Node.files_cons_of_isRoute h, Node.files_nil, add_zero]

open Node in
/-- **Converting conserves files**: the entries of a configuration have the files of the layouts,
index pages and not-found pages that are reached from the nodes, each as often as there. So there is
one entry for each of these nodes. -/
theorem files_convert (nodes : List Node) :
    Entry.files (convert nodes) = Node.files nodes ∧
      Entry.count (convert nodes) = ((reachedAll nodes).filter bringsFile).length := by
  suffices hfiles : Entry.files (convert nodes) = Node.files nodes by
    refine ⟨hfiles, ?_⟩
    rw [← Entry.card_files, hfiles, Node.files, Multiset.coe_card, List.length_map]
  refine convert_induction (fun nodes => Entry.files (convert nodes) = Node.files nodes)
    (fun n => Entry.files n.entries = Node.files [n])
    (fun hoist d => ∀ path, Entry.files (resolve path (.split hoist d.children)) =
      Node.files (Partition.split hoist d.children).kept)
    ?level ?layout ?page ?notFound ?route ?resolved nodes
  case level =>
    intro nodes ih
    rw [Entry.files_perm (convert_perm_flatMap nodes), files_flatMap ih]
  case layout =>
    intro n hkind ih
    have hlayout : n.isLayout = true := isLayout_iff.2 hkind
    rw [entries_of_ne (by simp [hkind]), convertNode_of_layout hkind,
      files_cons_of_isLayout hlayout]
    simp [Entry.layout, ih]
  case page =>
    intro n hkind
    rw [entries_of_ne (by simp [hkind]), convertNode_of_page hkind, files_cons_of_page hkind]
    split <;> simp [Entry.index]
  case notFound =>
    intro n hkind
    rw [entries_of_notFound hkind, files_cons_of_notFound hkind]
    simp [Entry.route]
  case route =>
    intro n hkind hn hdynamic
    have hroute : n.isRoute = true := isRoute_iff.2 hkind
    have htaken : ∀ d ∈ (Partition.split true n.children).dynamic,
        Entry.files (resolve (joinSegments n.path d.path) (.split false d.children)) =
          Node.files [d] := fun d hd => by
      rw [hdynamic d hd, files_kept_of_isRoute (Partition.isRoute_of_mem_dynamic_split hd).2.1]
    rw [entries_of_ne (by simp [hkind]), convertNode_of_route hkind, Entry.files_append, hn,
      files_flatMap htaken, Partition.files_split, files_cons_of_isRoute hroute, files_nil,
      add_zero]
  case resolved =>
    intro hoist d ih path
    cases hsign : (Partition.split hoist d.children).sign? with
    | none =>
      rw [resolve_of_sign?_eq_none hsign, ih, Partition.kept_of_sign?_eq_none hsign]
    | some sign =>
      rw [resolve_of_sign?_eq_some hsign,
        (Partition.proper_split hoist d.children).files_kept hsign, Entry.files_cons]
      simp [Entry.route, ih]

end FileRoutes
