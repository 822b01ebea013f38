import FileRoutes.Proofs.Origins
import FileRoutes.Proofs.Segments

/-!
# The levels of a configuration

A **level** of a configuration is a list of siblings: the entries at the top, or those directly
inside one entry. Entries are made in few ways (`Entry.Made`), and all of them put inside an entry
what the conversion makes of one list of nodes, or nothing. So every level is empty or the
conversion of a list of nodes that is reached from the tree (`exists_converts_of_mem_levels`).

In the tree of a scan directories with contents have layouts. There the entries that a node makes in
place are known one by one (`Converts.mem_convertNode`): a directory makes one entry, with the file
of its first layout, for itself and one for each dynamic directory taken out of it.
-/

namespace FileRoutes

/-! ### Levels -/

/-- The lists of siblings of a configuration: the entries at the top, and those directly inside
each entry. -/
def Entry.levels (entries : List Entry) : List (List Entry) :=
  entries :: (preorderAll entries).map (·.children)

theorem Entry.mem_levels_iff {entries level : List Entry} :
    level ∈ levels entries ↔ level = entries ∨ ∃ e ∈ preorderAll entries, e.children = level := by
  simp [levels]

/-- A layout alone makes one entry, around what it wraps. -/
theorem convert_layout (file : String) (children : List Node) :
    convert [.layout file children] = [.layout file (convert children)] := by
  simp [convert_eq, convertNode, notFoundRoute?, Node.layout]

/-- The entries that nodes make are there, too, if more nodes are behind them. -/
theorem preorderAll_convert_subset_append (ns ms : List Node) :
    Entry.preorderAll (convert ns) ⊆ Entry.preorderAll (convert (ns ++ ms)) := by
  intro e he
  simp only [convert_eq, List.flatMap_append, List.filterMap_append, Entry.preorderAll_append,
    List.mem_append] at he ⊢
  tauto

/-- The nodes inside a node of the trees are nodes of the trees. -/
theorem Node.preorderAll_inside {n : Node} :
    (nodes : List Node) → n ∈ preorderAll nodes → preorderAll n.children ⊆ preorderAll nodes
  | [], h => by simp at h
  | ⟨kind, path, file, isDynamic, isIndex, children⟩ :: rest, h => by
    have hfirst := @preorderAll_children_subset ⟨kind, path, file, isDynamic, isIndex, children⟩
      (_ :: rest) List.mem_cons_self
    rw [preorderAll_cons, preorder_eq, List.mem_append, List.mem_cons] at h
    rcases h with (rfl | h) | h
    · exact hfirst
    · exact List.Subset.trans (preorderAll_inside children h) hfirst
    · exact List.Subset.trans (preorderAll_inside rest h) (preorderAll_subset (by simp))

/-! ### How entries are made -/

/-- While the trees of `top` are converted, the node is one of a level. -/
def Reached (top : List Node) (n : Node) : Prop :=
  ∃ nodes, Converts top nodes ∧ n ∈ nodes

/-- How an entry is made while the trees of `top` are converted: from a page, from a layout around
what it wraps, or from a directory that is resolved, around what is left inside. -/
inductive Entry.Made (top : List Node) : Entry → Prop
  | index {n : Node} (h : Reached top n) (hindex : n.isIndexPage = true) : Made top (.index n.file)
  | notFound {n : Node} (h : Reached top n) (hkind : n.kind = .notFound) :
    Made top (.route n.path n.file [])
  | layout {n : Node} (h : Reached top n) (hlayout : n.isLayout = true) :
    Made top (.layout n.file (convert n.children))
  | directory {path : String} {hoist : Bool} {d sign : Node} (h : Resolves top path hoist d)
    (hsign : (Partition.split hoist d.children).layout = some sign ∨
      (Partition.split hoist d.children).layout = none ∧
        (Partition.split hoist d.children).index = some sign) :
    Made top (.route path sign.file (convert (Partition.split hoist d.children).inside))

section

variable {top nodes : List Node} {path : String} {hoist : Bool} {n d : Node}

/-- What is left inside a directory that is resolved is converted as one level. -/
theorem Resolves.converts (h : Resolves top path hoist d) :
    Converts top (Partition.split hoist d.children).inside := by
  cases h with
  | directory h hn hkind => exact .directory h hn hkind
  | hoisted h hn hkind hd => exact .hoisted h hn hkind hd

/-- A directory of a level is resolved where it stands. -/
theorem Reached.resolves (h : Reached top n) (hkind : n.kind = .route) :
    Resolves top n.path true n := by
  obtain ⟨nodes, hnodes, hn⟩ := h
  exact .directory hnodes hn hkind

/-- A dynamic directory that is taken out of one of a level is resolved at the joined path. -/
theorem Reached.resolves_hoisted (h : Reached top n) (hkind : n.kind = .route)
    (hd : d ∈ (Partition.split true n.children).dynamic) :
    Resolves top (joinSegments n.path d.path) false d := by
  obtain ⟨nodes, hnodes, hn⟩ := h
  exact .hoisted hnodes hn hkind hd

/-- The entries that close a level have nothing inside. -/
theorem preorderAll_filterMap_notFoundRoute? (nodes : List Node) :
    Entry.preorderAll (nodes.filterMap notFoundRoute?) = nodes.filterMap notFoundRoute? := by
  induction nodes with
  | nil => simp
  | cons n rest ih =>
    cases hentry : notFoundRoute? n with
    | none => rwa [List.filterMap_cons_none hentry]
    | some e =>
      have hchildren : e.children = [] := by
        unfold notFoundRoute? at hentry
        grind [Entry.route]
      rw [List.filterMap_cons_some hentry, Entry.preorderAll_cons, Entry.preorder_eq, hchildren, ih]
      rfl

/-- The entries of one node after the other are made if those of each node are. -/
private theorem forall_made_flatMap {f : Node → List Entry}
    (h : ∀ n ∈ nodes, ∀ e ∈ Entry.preorderAll (f n), Entry.Made top e) :
    ∀ e ∈ Entry.preorderAll (nodes.flatMap f), Entry.Made top e := by
  induction nodes with
  | nil => exact List.forall_mem_nil _
  | cons n rest ih =>
    obtain ⟨hn, hrest⟩ := List.forall_mem_cons.1 h
    rw [List.flatMap_cons, Entry.preorderAll_append, List.forall_mem_append]
    exact ⟨hn, ih hrest⟩

/-- An entry is made with those inside it. -/
private theorem forall_made_singleton {e : Entry} (he : Entry.Made top e)
    (hinside : ∀ f ∈ Entry.preorderAll e.children, Entry.Made top f) :
    ∀ f ∈ Entry.preorderAll [e], Entry.Made top f := by
  rw [Entry.preorderAll_cons, Entry.preorder_eq, Entry.preorderAll_nil, List.append_nil,
    List.forall_mem_cons]
  exact ⟨he, hinside⟩

/-- **Every entry is made** in one of these ways. -/
theorem made_of_mem_preorderAll_convert (hnodes : Converts top nodes) :
    ∀ e ∈ Entry.preorderAll (convert nodes), Entry.Made top e := by
  refine convert_induction
    (fun nodes => Converts top nodes → ∀ e ∈ Entry.preorderAll (convert nodes), Entry.Made top e)
    (fun n => Reached top n → ∀ e ∈ Entry.preorderAll (convertNode n), Entry.Made top e)
    (fun hoist d => ∀ path, Resolves top path hoist d →
      ∀ e ∈ Entry.preorderAll (resolve path (.split hoist d.children)), Entry.Made top e)
    ?level ?layout ?page ?notFound ?route ?resolved nodes hnodes
  case level =>
    intro nodes ih hnodes
    rw [convert_eq, Entry.preorderAll_append, preorderAll_filterMap_notFoundRoute?,
      List.forall_mem_append]
    refine ⟨forall_made_flatMap fun n hn => ih n hn ⟨nodes, hnodes, hn⟩, fun e he => ?_⟩
    obtain ⟨n, hn, hentry⟩ := List.mem_filterMap.1 he
    obtain ⟨hkind, rfl⟩ := notFoundRoute?_eq_some_iff.1 hentry
    exact .notFound ⟨nodes, hnodes, hn⟩ hkind
  case layout =>
    intro n hkind ih hn
    obtain ⟨nodes, hnodes, hmem⟩ := hn
    rw [convertNode_of_layout hkind]
    exact forall_made_singleton (.layout ⟨nodes, hnodes, hmem⟩ (Node.isLayout_iff.2 hkind))
      (ih (.layout hnodes hmem hkind))
  case page =>
    intro n hkind hn
    rw [convertNode_of_page hkind]
    split
    · next hindex =>
      exact forall_made_singleton (.index hn (Node.isIndexPage_iff.2 ⟨hkind, hindex⟩))
        (List.forall_mem_nil _)
    · exact List.forall_mem_nil _
  case notFound =>
    intro n hkind _
    rw [convertNode_of_notFound hkind]
    exact List.forall_mem_nil _
  case route =>
    intro n hkind hresolved hhoisted hn
    rw [convertNode_of_route hkind, Entry.preorderAll_append, List.forall_mem_append]
    exact ⟨hresolved _ (hn.resolves hkind),
      forall_made_flatMap fun d hd => hhoisted d hd _ (hn.resolves_hoisted hkind hd)⟩
  case resolved =>
    intro hoist d ih path hd
    cases hsign : (Partition.split hoist d.children).sign? with
    | none =>
      rw [resolve_of_sign?_eq_none hsign]
      exact ih hd.converts
    | some sign =>
      rw [resolve_of_sign?_eq_some hsign]
      exact forall_made_singleton (.directory hd (Option.or_eq_some_iff.1 hsign)) (ih hd.converts)

/-- **Every level is empty or the conversion of a list of nodes** that is reached from the tree. -/
theorem exists_converts_of_mem_levels {level : List Entry}
    (h : level ∈ Entry.levels (convert top)) :
    level = [] ∨ ∃ nodes, Converts top nodes ∧ level = convert nodes := by
  rcases Entry.mem_levels_iff.1 h with rfl | ⟨e, he, rfl⟩
  · exact .inr ⟨top, .top, rfl⟩
  · cases made_of_mem_preorderAll_convert .top e he with
    | index _ _ => exact .inl rfl
    | notFound _ _ => exact .inl rfl
    | layout hn hlayout =>
      obtain ⟨nodes, hnodes, hn⟩ := hn
      exact .inr ⟨_, .layout hnodes hn (Node.isLayout_iff.1 hlayout), rfl⟩
    | directory hd _ => exact .inr ⟨_, hd.converts, rfl⟩

/-! ### Entries in place -/

/-- A directory with contents makes one entry, with the file of its first layout. -/
theorem Resolves.resolve_eq (h : Resolves top path hoist d) (htop : Node.All Node.Covered top) :
    d.children = [] ∧ resolve path (Partition.split hoist d.children) = [] ∨
      ∃ layout, d.children.find? Node.isLayout = some layout ∧
        resolve path (Partition.split hoist d.children) =
          [.route path layout.file (convert (Partition.split hoist d.children).inside)] := by
  cases hlayout : (Partition.split hoist d.children).layout with
  | none =>
    obtain ⟨hempty, -, hnothing⟩ := h.eq_nil_of_layout_none htop hlayout
    exact .inl ⟨hempty, hnothing⟩
  | some layout =>
    refine .inr ⟨layout, by rw [← Partition.layout_split hoist, hlayout], ?_⟩
    exact resolve_of_sign?_eq_some (by simp [Partition.sign?, hlayout]) path

/-- The nodes of a level are nodes of the trees, and so are those inside them. -/
theorem Converts.subset (h : Converts top nodes) : Node.preorderAll nodes ⊆ Node.preorderAll top :=
  h.all (P := (· ∈ Node.preorderAll top)) fun _ hn => hn

theorem Reached.mem (h : Reached top n) : n ∈ Node.preorderAll top := by
  obtain ⟨nodes, hnodes, hn⟩ := h
  exact hnodes.subset (Node.mem_preorderAll_of_mem hn)

/-- The entry of a directory has the file of its first layout, and its path is the one that the
directory is resolved at. -/
theorem Resolves.mem_resolve (h : Resolves top path hoist d) (htop : Node.All Node.Covered top)
    {e : Entry} (he : e ∈ resolve path (Partition.split hoist d.children)) :
    e.path = some path ∧ ∃ layout, d.children.find? Node.isLayout = some layout ∧
      e.file = layout.file := by
  rcases h.resolve_eq htop with ⟨-, hnothing⟩ | ⟨layout, hfirst, hentry⟩
  · simp [hnothing] at he
  · rw [hentry, List.mem_singleton] at he
    exact ⟨by rw [he]; rfl, layout, hfirst, by rw [he]; rfl⟩

/-- A directory that is resolved is a node of the trees. -/
theorem Resolves.mem (h : Resolves top path hoist d) : d ∈ Node.preorderAll top :=
  (h.holds (P := (· ∈ Node.preorderAll top)) fun _ hn => hn).2

/-- The entries that a node makes in place have the file of an index page or of a layout. -/
theorem Reached.exists_of_mem_convertNode (h : Reached top n) (htop : Node.All Node.Covered top)
    {e : Entry} (he : e ∈ convertNode n) :
    ∃ m ∈ Node.preorderAll top, (m.isLayout = true ∨ m.isIndexPage = true) ∧ e.file = m.file := by
  have hresolved : ∀ {path hoist d}, Resolves top path hoist d →
      e ∈ resolve path (Partition.split hoist d.children) →
      ∃ m ∈ Node.preorderAll top, (m.isLayout = true ∨ m.isIndexPage = true) ∧
        e.file = m.file := by
    intro path hoist d hd he
    obtain ⟨-, layout, hfirst, hfile⟩ := hd.mem_resolve htop he
    have hinside := Node.preorderAll_inside _ hd.mem
    exact ⟨layout, hinside (Node.mem_preorderAll_of_mem (List.mem_of_find?_eq_some hfirst)),
      .inl (List.find?_some hfirst), hfile⟩
  cases hkind : n.kind with
  | layout =>
    rw [convertNode_of_layout hkind, List.mem_singleton] at he
    exact ⟨n, h.mem, .inl (Node.isLayout_iff.2 hkind), by rw [he]; rfl⟩
  | page =>
    rw [convertNode_of_page hkind] at he
    cases hindex : n.isIndex with
    | true =>
      simp only [hindex, if_true, List.mem_singleton] at he
      exact ⟨n, h.mem, .inr (Node.isIndexPage_iff.2 ⟨hkind, hindex⟩), by rw [he]; rfl⟩
    | false => simp [hindex] at he
  | notFound => simp [convertNode_of_notFound hkind] at he
  | route =>
    rw [convertNode_of_route hkind, List.mem_append, List.mem_flatMap] at he
    rcases he with he | ⟨d, hd, he⟩
    · exact hresolved (h.resolves hkind) he
    · exact hresolved (h.resolves_hoisted hkind hd) he

end

/-- **Every directory of the tree of a scan is empty or has a layout.** -/
theorem Folder.covered_nodes (F : Folder) (ignored : IgnoreSet) (reference : String → String)
    (path : String) : Node.All Node.Covered (F.nodes ignored reference path) :=
  all_nodes (Q := fun _ => True) (fun _ => nofun) (fun _ => nofun) (fun _ _ => nofun)
    (fun _ _ _ hchildren _ => hchildren) (names_iff.2 fun _ _ _ _ => trivial)

end FileRoutes
