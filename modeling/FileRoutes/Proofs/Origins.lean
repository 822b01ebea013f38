import FileRoutes.Proofs.Exhibits

/-!
# Where entries come from

Every entry of a configuration that has others inside stems from a layout or from a directory of the
tree that it is converted from, and its index pages from those inside (`stemFrom_convert`). Every
node of the tree of a scan stems from a directory that was seen: it is a page of the directory, or
what the directory added to the one that it stands in (`Folder.all_origin_nodes`). Both say where
something came from and leave open what becomes of it; that nothing is lost or shown twice is the
matter of `showExactly_convert` and `Folder.anonymous_nodes_perm`.
-/

namespace FileRoutes

/-! ### Entries stem from nodes -/

/-- The files of the index pages of a configuration. -/
def Entry.indexFiles (entries : List Entry) : List String :=
  ((preorderAll entries).filter (·.isIndex)).map (·.file)

namespace Node

/-- The files of the index pages of a list of trees. -/
def indexFiles (nodes : List Node) : List String :=
  ((preorderAll nodes).filter isIndexPage).map (·.file)

variable {n d : Node} {ns ms : List Node}

/-- The nodes of some of the trees are nodes of the trees. -/
theorem preorderAll_subset (h : ns ⊆ ms) : preorderAll ns ⊆ preorderAll ms := fun n hn => by
  rw [mem_preorderAll_iff] at hn ⊢
  obtain ⟨root, hroot, hn⟩ := hn
  exact ⟨root, h hroot, hn⟩

/-- The nodes inside one of the trees are nodes of the trees. -/
theorem preorderAll_children_subset (h : n ∈ ns) : preorderAll n.children ⊆ preorderAll ns :=
  fun m hm => mem_preorderAll_iff.2 ⟨n, h, by rw [preorder_eq]; exact List.mem_cons_of_mem _ hm⟩

theorem mem_preorderAll_of_mem (h : n ∈ ns) : n ∈ preorderAll ns :=
  mem_preorderAll_iff.2 ⟨n, h, by rw [preorder_eq]; exact List.mem_cons_self⟩

theorem indexFiles_subset (h : preorderAll ns ⊆ preorderAll ms) : indexFiles ns ⊆ indexFiles ms :=
  List.map_subset _ (List.filter_subset _ h)

/-- The index pages of a list of trees are those of its trees. -/
theorem mem_indexFiles_iff {file : String} :
    file ∈ indexFiles ns ↔ ∃ root ∈ ns, file ∈ indexFiles [root] := by
  simp only [indexFiles, List.mem_map, List.mem_filter, mem_preorderAll_iff, List.mem_singleton,
    exists_eq_left]
  grind

/-- A directory is no index page itself. -/
theorem indexFiles_folder (name : String) (children : List Node) :
    indexFiles [.folder name children] = indexFiles children := by
  simp [indexFiles, preorder_eq, folder, route, isIndexPage]

/-- The child stays inside the entry of the directory `d`, if that has one: a dynamic directory
stays only inside a dynamic one. -/
def keeps (d n : Node) : Bool :=
  d.isDynamic || !(n.isRoute && n.isDynamic)

end Node

/-- What an entry of a configuration stems from: it has nothing inside, or it stems from a layout
with the index pages inside that, or from a directory and one of its children that it has the file
of, with the index pages of children that stay inside. -/
inductive Entry.StemsFrom (nodes : List Node) (e : Entry) : Prop
  | leaf (h : e.children = [])
  | layout {n : Node} (hn : n ∈ Node.preorderAll nodes) (hlayout : n.isLayout = true)
    (hfile : e.file = n.file) (hpath : e.path = none)
    (hpages : indexFiles e.children ⊆ Node.indexFiles n.children)
  | directory {d n : Node} (hd : d ∈ Node.preorderAll nodes) (hroute : d.isRoute = true)
    (hn : n ∈ d.children) (hsign : n.isLayout = true ∨ n.isIndexPage = true)
    (hfile : e.file = n.file) (hpath : e.path.isSome = true)
    (hpages : indexFiles e.children ⊆ Node.indexFiles (d.children.filter d.keeps))

/-- The entries stem from the nodes, and so do their index pages. -/
structure Entry.StemFrom (nodes : List Node) (entries : List Entry) : Prop where
  pages : indexFiles entries ⊆ Node.indexFiles nodes
  each : ∀ e ∈ preorderAll entries, StemsFrom nodes e

namespace Entry.StemFrom

variable {ns ms : List Node} {es fs : List Entry} {n d : Node}

theorem nil (ns : List Node) : StemFrom ns [] :=
  ⟨by simp [indexFiles], by simp⟩

theorem append (h : StemFrom ns es) (k : StemFrom ns fs) : StemFrom ns (es ++ fs) := by
  refine ⟨?_, ?_⟩
  · rw [indexFiles, preorderAll_append, List.filter_append, List.map_append]
    exact List.append_subset.2 ⟨h.pages, k.pages⟩
  · rw [preorderAll_append, List.forall_mem_append]
    exact ⟨h.each, k.each⟩

theorem mono (h : StemFrom ns es) (hsub : Node.preorderAll ns ⊆ Node.preorderAll ms) :
    StemFrom ms es := by
  refine ⟨List.Subset.trans h.pages (Node.indexFiles_subset hsub), fun e he => ?_⟩
  cases h.each e he with
  | leaf h => exact .leaf h
  | layout hn hlayout hfile hpath hpages => exact .layout (hsub hn) hlayout hfile hpath hpages
  | directory hd hroute hn hsign hfile hpath hpages =>
    exact .directory (hsub hd) hroute hn hsign hfile hpath hpages

/-- What stems from the nodes one by one stems from all of them. -/
theorem flatMap {f : Node → List Entry} (h : ∀ n ∈ ns, StemFrom [n] (f n)) :
    StemFrom ns (ns.flatMap f) := by
  induction ns with
  | nil => exact nil []
  | cons n rest ih =>
    obtain ⟨hn, hrest⟩ := List.forall_mem_cons.1 h
    rw [List.flatMap_cons]
    exact (hn.mono (Node.preorderAll_subset (by simp))).append
      ((ih hrest).mono (Node.preorderAll_subset (by simp)))

/-- An entry around others that stem from the nodes. -/
theorem around {e : Entry} (h : StemFrom ns e.children) (hindex : e.isIndex = false)
    (he : StemsFrom ns e) : StemFrom ns [e] := by
  refine ⟨?_, ?_⟩
  · simpa [indexFiles, preorder_eq, hindex] using h.pages
  · simpa [preorder_eq] using ⟨he, h.each⟩

/-- The entry of an index page. -/
theorem index (h : n.isIndexPage = true) : StemFrom [n] [.index n.file] := by
  refine ⟨?_, ?_⟩
  · simp [indexFiles, preorder_eq, Entry.index, Node.indexFiles, Node.preorder_eq, h]
  · simpa [preorder_eq, Entry.index] using @StemsFrom.leaf [n] (.index n.file) rfl

/-- The entries of not-found pages. -/
theorem notFound (ns ms : List Node) : StemFrom ns (ms.filterMap notFoundRoute?) := by
  induction ms with
  | nil => exact .nil ns
  | cons m ms ih =>
    cases hentry : notFoundRoute? m with
    | none => rwa [List.filterMap_cons_none hentry]
    | some e =>
      obtain ⟨-, rfl⟩ := notFoundRoute?_eq_some_iff.1 hentry
      rw [List.filterMap_cons_some hentry, ← List.singleton_append]
      exact (around (.nil ns) rfl (.leaf rfl)).append ih

/-- The entry of a layout around entries that stem from what it wraps. -/
theorem layout (h : StemFrom n.children es) (hlayout : n.isLayout = true) :
    StemFrom [n] [.layout n.file es] := by
  have hmem := List.mem_singleton_self n
  have hinside := h.mono (Node.preorderAll_children_subset hmem)
  exact hinside.around rfl (.layout (Node.mem_preorderAll_of_mem hmem) hlayout rfl rfl h.pages)

/-- The entry of a directory around entries that stem from children that stay inside. -/
theorem directory (h : StemFrom (d.children.filter d.keeps) es) (hroute : d.isRoute = true)
    (hn : n ∈ d.children) (hsign : n.isLayout = true ∨ n.isIndexPage = true) (path : String) :
    StemFrom [d] [.route path n.file es] := by
  have hmem := List.mem_singleton_self d
  have hinside := h.mono (List.Subset.trans (Node.preorderAll_subset (List.filter_subset_self _))
    (Node.preorderAll_children_subset hmem))
  exact hinside.around rfl
    (.directory (Node.mem_preorderAll_of_mem hmem) hroute hn hsign rfl rfl h.pages)

end Entry.StemFrom

/-- The sign of a directory is one of its children, a layout or an index page. -/
theorem Partition.of_sign?_split {hoist : Bool} {children : List Node} {sign : Node}
    (h : (split hoist children).sign? = some sign) :
    sign ∈ children ∧ (sign.isLayout = true ∨ sign.isIndexPage = true) := by
  rw [← (all_split_perm hoist children).mem_iff]
  rcases Option.or_eq_some_iff.1 h with hlayout | ⟨-, hindex⟩
  · have hfirst := hlayout
    rw [layout_split] at hfirst
    exact ⟨by simp [all, hlayout], .inl (List.find?_some hfirst)⟩
  · exact ⟨by simp [all, hindex], .inr (isIndexPage_of_index_split hindex)⟩

/-- What is left inside a directory is left of children that stay there. -/
theorem Node.preorderAll_inside_split_subset {hoist : Bool} {d : Node}
    (hhoist : hoist = true ∨ d.isDynamic = true) :
    preorderAll (Partition.split hoist d.children).inside ⊆
      preorderAll (d.children.filter d.keeps) := by
  have hmem : ∀ n ∈ (Partition.split hoist d.children).all, n ∈ d.children :=
    fun n hn => (Partition.all_split_perm hoist d.children).mem_iff.1 hn
  have hother : (Partition.split hoist d.children).other ⊆ d.children.filter d.keeps := by
    refine fun n hn => List.mem_filter.2 ⟨hmem n (by simp [Partition.all, hn]), ?_⟩
    rcases hhoist with rfl | hdynamic
    · cases hroute : n.isRoute with
      | true => simp [keeps, Partition.not_isDynamic_of_mem_other_split hn hroute]
      | false => simp [keeps, hroute]
    · simp [keeps, hdynamic]
  rw [Partition.inside]
  split
  · next layout hlayout =>
    have hkind : layout.isLayout = true := by
      rw [Partition.layout_split] at hlayout
      exact List.find?_some hlayout
    have hnot : layout.isRoute = false := by
      simp only [isLayout, decide_eq_true_eq] at hkind
      simp [isRoute, hkind]
    have hkept : layout ∈ d.children.filter d.keeps :=
      List.mem_filter.2 ⟨hmem layout (by simp [Partition.all, hlayout]), by simp [keeps, hnot]⟩
    rw [preorderAll_append]
    exact List.append_subset.2 ⟨preorderAll_children_subset hkept, preorderAll_subset hother⟩
  · exact preorderAll_subset hother

open Entry in
/-- **The entries of a configuration stem from the nodes that it is converted from.** -/
theorem stemFrom_convert (nodes : List Node) : StemFrom nodes (convert nodes) := by
  refine convert_induction (fun nodes => StemFrom nodes (convert nodes))
    (fun n => StemFrom [n] (convertNode n))
    (fun hoist d => d.isRoute = true → (hoist = true ∨ d.isDynamic = true) →
      ∀ path, StemFrom [d] (resolve path (.split hoist d.children)))
    ?level ?layout ?page ?notFound ?route ?resolved nodes
  case level =>
    intro nodes ih
    rw [convert_eq]
    exact (StemFrom.flatMap ih).append (.notFound nodes nodes)
  case layout =>
    intro n hkind ih
    rw [convertNode_of_layout hkind]
    exact ih.layout (Node.isLayout_iff.2 hkind)
  case page =>
    intro n hkind
    rw [convertNode_of_page hkind]
    split
    · next hindex => exact .index (Node.isIndexPage_iff.2 ⟨hkind, hindex⟩)
    · exact .nil [n]
  case notFound =>
    intro n hkind
    rw [convertNode_of_notFound hkind]
    exact .nil [n]
  case route =>
    intro n hkind hresolved hhoisted
    have hdynamic : (Partition.split true n.children).dynamic ⊆ n.children := fun m hm =>
      (Partition.all_split_perm true n.children).mem_iff.1
        (List.mem_append_left _ (List.mem_append_right _ hm))
    have hsub := Node.preorderAll_children_subset (List.mem_singleton_self n)
    have htaken : StemFrom (Partition.split true n.children).dynamic
        ((Partition.split true n.children).dynamic.flatMap fun d =>
          resolve (joinSegments n.path d.path) (.split false d.children)) :=
      .flatMap fun d hd => by
        obtain ⟨-, hroute, hdynamic⟩ := Partition.isRoute_of_mem_dynamic_split hd
        exact hhoisted d hd hroute (.inr hdynamic) _
    rw [convertNode_of_route hkind]
    exact (hresolved (Node.isRoute_iff.2 hkind) (.inl rfl) _).append
      (htaken.mono (List.Subset.trans (Node.preorderAll_subset hdynamic) hsub))
  case resolved =>
    intro hoist d ih hroute hhoist path
    have hinside := ih.mono (Node.preorderAll_inside_split_subset hhoist)
    cases hsign : (Partition.split hoist d.children).sign? with
    | none =>
      rw [resolve_of_sign?_eq_none hsign]
      exact hinside.mono (List.Subset.trans (Node.preorderAll_subset (List.filter_subset_self _))
        (Node.preorderAll_children_subset (List.mem_singleton_self d)))
    | some sign =>
      obtain ⟨hmem, hkind⟩ := Partition.of_sign?_split hsign
      rw [resolve_of_sign?_eq_some hsign]
      exact hinside.directory hroute hmem hkind path

/-! ### Nodes of pages -/

section

variable (path : String) (page : Convention × String)

theorem children_pageNode : (pageNode path page).children = [] := by
  unfold pageNode
  split <;> rfl

theorem isLayout_pageNode : (pageNode path page).isLayout = false := by
  unfold pageNode
  split <;> rfl

theorem isRoute_pageNode : (pageNode path page).isRoute = false := by
  unfold pageNode
  split <;> rfl

variable {path page}

/-- Only the node of a page is an index page. -/
theorem of_isIndexPage_pageNode (h : (pageNode path page).isIndexPage = true) :
    page.1 = .page ∧ (pageNode path page).file = fileReference (entryPath path page.2) := by
  unfold pageNode at h ⊢
  split at h
  · next hrole => exact ⟨hrole, by simp [hrole, Node.indexPage]⟩
  · cases h

theorem mem_indexFiles_pageNode {file : String} (h : file ∈ Node.indexFiles [pageNode path page]) :
    page.1 = .page ∧ file = fileReference (entryPath path page.2) := by
  obtain ⟨n, hn, rfl⟩ := List.mem_map.1 h
  rw [Node.preorderAll_cons, Node.preorder_eq, children_pageNode] at hn
  obtain ⟨hmem, hindex⟩ := List.mem_filter.1 hn
  obtain rfl : n = pageNode path page := by simpa using hmem
  exact of_isIndexPage_pageNode hindex

end

/-! ### Directories in directories -/

namespace Folder

/-- The directories that stand in the directory, by their names, as the scan saw them. -/
def directories : Folder → List (String × Folder)
  | nil => []
  | entry _ rest => rest.directories
  | directory name inside rest => (name, inside) :: rest.directories

variable {F G H : Folder} {name : String} {names more : List String}

/-- Induction over the directories of a folder, from the inside out. -/
theorem directories_induction {P : String → Folder → Prop}
    (h : ∀ path F, (∀ d ∈ F.directories, P (entryPath path d.1) d.2) → P path F)
    (path : String) (F : Folder) : P path F := by
  refine h path F ?_
  induction F generalizing path with
  | nil => simp [directories]
  | entry e rest ih => exact ih path
  | directory name inside rest ihinside ihrest =>
    exact List.forall_mem_cons.2 ⟨h _ _ (ihinside _), ihrest path⟩

/-- What is seen in a directory is seen below the one that it stands in. -/
theorem mem_foldersBelow_of_mem_directories (hG : (name, G) ∈ F.directories)
    {d : List String × List Listed} (hd : d ∈ G.folders) : (name :: d.1, d.2) ∈ F.foldersBelow := by
  induction F with
  | nil => simp [directories] at hG
  | entry e rest ih => exact ih hG
  | directory other inside rest _ ihrest =>
    rcases List.mem_cons.1 hG with heq | hG
    · obtain ⟨rfl, rfl⟩ := Prod.mk.inj heq
      exact List.mem_append_left _ (List.mem_map.2 ⟨d, hd, rfl⟩)
    · exact List.mem_append_right _ (ihrest hG)

/-- The names lead from the one directory to the other. -/
inductive Leads : Folder → List String → Folder → Prop
  | here (F : Folder) : Leads F [] F
  | into {F G H : Folder} {name : String} {names : List String} (hG : (name, G) ∈ F.directories)
    (h : Leads G names H) : Leads F (name :: names) H

theorem Leads.trans (hG : F.Leads names G) (hH : G.Leads more H) :
    F.Leads (names ++ more) H := by
  induction hG with
  | here F => exact hH
  | into hG _ ih => exact .into hG (ih hH)

/-- The directory that the names lead to was seen. -/
theorem Leads.mem_folders (h : F.Leads names G) : (names, G.listing) ∈ F.folders := by
  induction h with
  | here F => exact List.mem_cons_self
  | into hG _ ih => exact List.mem_cons_of_mem _ (mem_foldersBelow_of_mem_directories hG ih)

variable {ignored : IgnoreSet} {reference : String → String} {path : String} {n : Node}

/-- What is found in a directory: its pages, and what the directories in it add. -/
theorem mem_found_iff :
    n ∈ F.found ignored reference path ↔
      (∃ page ∈ F.listing.filterMap (livePage? ignored path), n = pageNode path page) ∨
        ∃ d ∈ F.directories,
          n ∈ Scan.nodesOfDirectory d.1 (d.2.nodes ignored reference (entryPath path d.1)) := by
  induction F with
  | nil => simp [found, listing, directories]
  | entry e rest ih =>
    rw [found_entry, List.mem_append, ih, listing, directories]
    cases hpage : livePage? ignored path e with
    | none => simp [hpage]
    | some page => simp [hpage, or_assoc]
  | directory name inside rest _ ihrest =>
    rw [found, List.mem_append, ihrest, listing, directories,
      List.filterMap_cons_none (livePage?_directory name)]
    simp only [List.exists_mem_cons_iff, nodes]
    exact or_left_comm

/-! ### Nodes stem from directories -/

section

variable (ignored : IgnoreSet) (reference : String → String)

/-- The file around the nodes of the directory at `path`, if there is one. -/
def outer? (path : String) (F : Folder) : Option String :=
  F.wrapper? ignored reference path (Node.sortSiblings (F.found ignored reference path))

variable {ignored reference}

theorem nodes_of_outer?_eq_some {file : String}
    (h : F.outer? ignored reference path = some file) :
    F.nodes ignored reference path =
      [.layout file (Node.sortSiblings (F.found ignored reference path))] := by
  unfold outer? at h
  rw [nodes, close, h]
  rfl

theorem nodes_of_outer?_eq_none (h : F.outer? ignored reference path = none) :
    F.nodes ignored reference path = Node.sortSiblings (F.found ignored reference path) := by
  unfold outer? at h
  rw [nodes, close, h]
  rfl

variable (ignored reference)

/-- What a node of the directory at `path` stems from: a page of a directory, the file around what
was found in one, or a directory that is not private. -/
inductive Origin (path : String) (F : Folder) : Node → Prop
  | page {names : List String} {G : Folder} (h : F.Leads names G) {page : Convention × String}
    (hpage : page ∈ G.listing.filterMap (livePage? ignored (pathBelow path names))) :
    Origin path F (pageNode (pathBelow path names) page)
  | layout {names : List String} {G : Folder} (h : F.Leads names G) {file : String}
    (hfile : G.outer? ignored reference (pathBelow path names) = some file) :
    Origin path F (.layout file
      (Node.sortSiblings (G.found ignored reference (pathBelow path names))))
  | folder {names : List String} {name : String} {G : Folder} (h : F.Leads (names ++ [name]) G)
    (hname : isPrivate name = false) :
    Origin path F (.folder name (G.nodes ignored reference (pathBelow path (names ++ [name]))))

end

namespace Origin

/-- Seen from further up, the name of the directory stands in front of all names. -/
theorem inside (hG : (name, G) ∈ F.directories)
    (h : Origin ignored reference (entryPath path name) G n) :
    Origin ignored reference path F n := by
  cases h with
  | @page names _ h _ hpage => exact @page _ _ _ _ (name :: names) _ (.into hG h) _ hpage
  | @layout names _ h _ hfile => exact @layout _ _ _ _ (name :: names) _ (.into hG h) _ hfile
  | @folder names _ _ h hname => exact @folder _ _ _ _ (name :: names) _ _ (.into hG h) hname

/-- A layout among the nodes is the file around what was found in a directory. -/
theorem of_isLayout (h : Origin ignored reference path F n) (hn : n.isLayout = true) :
    ∃ names G, F.Leads names G ∧
      G.outer? ignored reference (pathBelow path names) = some n.file ∧
      n.children = Node.sortSiblings (G.found ignored reference (pathBelow path names)) := by
  cases h with
  | page _ _ => simp [isLayout_pageNode] at hn
  | layout h hfile => exact ⟨_, _, h, hfile, rfl⟩
  | folder _ _ => cases hn

/-- A directory among the nodes is one that is not private, with its nodes inside. -/
theorem of_isRoute (h : Origin ignored reference path F n) (hn : n.isRoute = true) :
    ∃ names name G, F.Leads (names ++ [name]) G ∧ isPrivate name = false ∧
      n = .folder name (G.nodes ignored reference (pathBelow path (names ++ [name]))) := by
  cases h with
  | page _ _ => simp [isRoute_pageNode] at hn
  | layout _ _ => cases hn
  | folder h hname => exact ⟨_, _, _, h, hname, rfl⟩

/-- An index page among the nodes is a page of a directory. -/
theorem of_isIndexPage (h : Origin ignored reference path F n) (hn : n.isIndexPage = true) :
    ∃ names G name, F.Leads names G ∧
      (Convention.page, name) ∈ liveFiles ignored (pathBelow path names) G.listing ∧
      n.file = fileReference (pathBelow path (names ++ [name])) := by
  cases h with
  | @page names G h page hpage =>
    obtain ⟨hrole, hfile⟩ := of_isIndexPage_pageNode hn
    rw [← hrole]
    exact ⟨names, G, page.2, h, List.mem_append_right _ hpage, by
      rw [hfile, pathBelow_concat]⟩
  | layout _ _ => cases hn
  | folder _ _ => cases hn

end Origin

/-- What was found in a directory stems from directories if what is in the directories in it
does. -/
private theorem all_origin_found_of (h : ∀ d ∈ F.directories, Node.All
      (Origin ignored reference (entryPath path d.1) d.2)
      (d.2.nodes ignored reference (entryPath path d.1))) :
    Node.All (Origin ignored reference path F) (F.found ignored reference path) := by
  refine Node.all_iff_forall_mem.2 fun n hn => ?_
  rcases mem_found_iff.1 hn with ⟨page, hpage, rfl⟩ | ⟨⟨name, G⟩, hG, hn⟩
  · rw [children_pageNode]
    exact ⟨.page (.here F) hpage, Node.all_nil⟩
  · have hinside : Node.All (Origin ignored reference path F)
        (G.nodes ignored reference (entryPath path name)) := fun m hm => (h _ hG m hm).inside hG
    unfold Scan.nodesOfDirectory at hn
    split at hn
    · exact Node.all_iff_forall_mem.1 hinside n hn
    · next hname =>
      obtain rfl := List.mem_singleton.1 hn
      have hfolder := @Origin.folder ignored reference path F [] name G (.into hG (.here G))
        (by simpa using hname)
      exact ⟨hfolder, hinside⟩

variable (ignored reference path F)

/-- **All nodes of a tree stem from directories.** -/
theorem all_origin_nodes :
    Node.All (Origin ignored reference path F) (F.nodes ignored reference path) := by
  induction path, F using directories_induction with | h path F ih =>
  have hsorted := (Node.all_perm_iff (Node.sortSiblings_perm _)).2 (all_origin_found_of ih)
  cases houter : F.outer? ignored reference path with
  | none => rwa [nodes_of_outer?_eq_none houter]
  | some file =>
    rw [nodes_of_outer?_eq_some houter]
    exact Node.all_cons.2 ⟨⟨.layout (.here F) houter, hsorted⟩, Node.all_nil⟩

/-- So do the nodes that were found before a file is put around them. -/
theorem all_origin_found :
    Node.All (Origin ignored reference path F) (F.found ignored reference path) :=
  all_origin_found_of fun _ _ => all_origin_nodes _ _ _ _

end Folder

end FileRoutes
