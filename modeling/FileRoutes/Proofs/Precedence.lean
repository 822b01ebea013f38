import FileRoutes.Proofs.NotFoundLast
import FileRoutes.Proofs.SharedFiles

/-!
# Precedence after the conversion

The scan puts the nodes of every directory in order of precedence, so that a router tries static
alternatives before dynamic ones. The conversion keeps that order, but it joins two lists where a
directory takes the layout of a private one in it for its own: what that layout wraps comes first,
then what else is in the directory. Each list is in order, the two together need not be.

An entry is **bare** if its path is a segment alone. The bare entries of a level stand for
directories of the tree, in the order of these (`forall₂_represents_bare`).

Main result: `Job.Run.precedence_kept`, on every interleaved run of a build on any storage that
lists entries once and by their names; two lists meet in a shop (`Memory.precedence_lost`).
-/

namespace FileRoutes

/-! ### The order of siblings -/

/-- Texts are compared in the order that they have. -/
private theorem isLE_compare_string (a b : String) : (compare a b).isLE = true ↔ a ≤ b := by
  change (compareOfLessAndEq a b).isLE = true ↔ a ≤ b
  unfold compareOfLessAndEq
  split
  · next hlt => simpa using String.not_lt.1 (String.lt_asymm hlt)
  · next hnot =>
    split
    · next heq => simp [heq]
    · next hne => simpa using fun hle => hne (String.le_antisymm hle (String.not_lt.1 hnot))

namespace Node

variable {a b c : Node}

/-- Before what is no directory everything may stand. -/
theorem mayPrecede_of_not_isRoute (hb : b.isRoute = false) : mayPrecede a b = true := by
  unfold mayPrecede precedence
  rw [hb]
  cases a.isRoute <;> rfl

/-- What is no directory stands before none. -/
theorem isRoute_of_mayPrecede (h : mayPrecede a b = true) (hb : b.isRoute = true) :
    a.isRoute = true := by
  cases ha : a.isRoute with
  | true => rfl
  | false => simp [mayPrecede, precedence, ha, hb, Ordering.isLE] at h

/-- Of two directories the static one comes first, and of two of one sort that with the smaller
segment. -/
theorem mayPrecede_iff_of_isRoute (ha : a.isRoute = true) (hb : b.isRoute = true) :
    mayPrecede a b = true ↔ (a.isDynamic = false ∧ b.isDynamic = true) ∨
      (a.isDynamic = b.isDynamic ∧ a.path ≤ b.path) := by
  unfold mayPrecede precedence
  rw [ha, hb]
  simp only [Ordering.isLE_then_iff_or, isLE_compare_string]
  cases a.isDynamic <;> cases b.isDynamic <;> simp [compare]

theorem mayPrecede_total (a b : Node) : (mayPrecede a b || mayPrecede b a) = true := by
  rw [Bool.or_eq_true]
  cases ha : a.isRoute with
  | false => exact .inr (mayPrecede_of_not_isRoute ha)
  | true =>
    cases hb : b.isRoute with
    | false => exact .inl (mayPrecede_of_not_isRoute hb)
    | true =>
      rw [mayPrecede_iff_of_isRoute ha hb, mayPrecede_iff_of_isRoute hb ha]
      have := String.le_total a.path b.path
      grind

theorem mayPrecede_trans (a b c : Node) (hab : mayPrecede a b = true)
    (hbc : mayPrecede b c = true) : mayPrecede a c = true := by
  cases hc : c.isRoute with
  | false => exact mayPrecede_of_not_isRoute hc
  | true =>
    have hb := isRoute_of_mayPrecede hbc hc
    have ha := isRoute_of_mayPrecede hab hb
    rw [mayPrecede_iff_of_isRoute ha hb] at hab
    rw [mayPrecede_iff_of_isRoute hb hc] at hbc
    rw [mayPrecede_iff_of_isRoute ha hc]
    have := @String.le_trans a.path b.path c.path
    grind

/-- Siblings in order of precedence. -/
def InOrder (siblings : List Node) : Prop :=
  siblings.Pairwise fun a b => mayPrecede a b = true

/-- Sorted siblings are in order. -/
theorem inOrder_sortSiblings (siblings : List Node) : InOrder (sortSiblings siblings) :=
  pairwise_stableSort mayPrecede_trans mayPrecede_total siblings

end Node

/-! ### Levels of a scanned tree -/

/-- The children that stay inside a directory keep their order. -/
theorem Partition.other_split_sublist (hoist : Bool) (children : List Node) :
    (split hoist children).other.Sublist children := by
  refine split_induction (P := fun cs p => p.other.Sublist cs) (List.Sublist.refl _)
    fun cs p c ih => ?_
  have hstays := ih.trans (List.sublist_append_left cs [c])
  obtain ⟨-, -, hadd⟩ | ⟨-, ⟨-, -, hadd⟩ | ⟨-, -, -, hadd⟩ | hadd⟩ :=
    add_cases (children.any Node.isLayout) hoist p c
  · rwa [hadd]
  · rwa [hadd]
  · rwa [hadd]
  · rw [hadd]
    exact ih.append (List.Sublist.refl [c])

namespace Folder

variable {ignored : IgnoreSet} {reference : String → String} {path : String} {F G : Folder}

/-- The nodes of a directory are in order. -/
theorem inOrder_nodes : Node.InOrder (G.nodes ignored reference path) := by
  cases houter : G.outer? ignored reference path with
  | some file =>
    rw [nodes_of_outer?_eq_some houter]
    exact List.pairwise_singleton _ _
  | none =>
    rw [nodes_of_outer?_eq_none houter]
    exact Node.inOrder_sortSiblings _

/-- **What is left inside a directory are two lists in order**, and the second is empty unless the
directory takes the layout of a private one for its own. -/
theorem exists_inOrder_inside (hoist : Bool) :
    ∃ first rest,
      (Partition.split hoist (G.nodes ignored reference path)).inside = first ++ rest ∧
      Node.InOrder first ∧ Node.InOrder rest ∧
      (rest = [] ∨ ∃ layout groups H,
        (G.nodes ignored reference path).find? Node.isLayout = some layout ∧
        Opens ignored reference path G groups H ∧ groups ≠ [] ∧
        H.outer? ignored reference (pathBelow path groups) = some layout.file) := by
  generalize hchildren : G.nodes ignored reference path = children
  have hordered : Node.InOrder children := hchildren ▸ inOrder_nodes
  cases hlayout : (Partition.split hoist children).layout with
  | none =>
    have hempty : children = [] := by
      refine (hchildren ▸ any_isLayout_nodes (F := G)).resolve_right fun hany => ?_
      rw [Partition.layout_split, List.find?_eq_none] at hlayout
      obtain ⟨layout, hmem, hlayout'⟩ := List.any_eq_true.1 hany
      exact hlayout layout hmem hlayout'
    exact ⟨[], [], by simp [hempty, Partition.inside], .nil, .nil, .inl rfl⟩
  | some layout =>
    have hfirst := hlayout
    rw [Partition.layout_split] at hfirst
    have hmem := List.mem_of_find?_eq_some hfirst
    have hsign : layout.isLayout = true := List.find?_some hfirst
    have hwrapped : Node.InOrder layout.children := by
      have horigin := all_origin_nodes G ignored reference path
      rw [hchildren] at horigin
      obtain ⟨names, H, -, -, hsorted⟩ :=
        (horigin layout (Node.mem_preorderAll_of_mem hmem)).of_isLayout hsign
      rw [hsorted]
      exact Node.inOrder_sortSiblings _
    refine ⟨layout.children, (Partition.split hoist children).other,
      by rw [Partition.inside, hlayout], hwrapped,
      hordered.sublist (Partition.other_split_sublist hoist children), ?_⟩
    obtain ⟨groups, H, hopens, houter⟩ := exists_opens_of_isLayout (hchildren ▸ hmem) hsign
    cases hopens with
    | into hK hprivate hnone hbelow =>
      exact .inr ⟨layout, _, H, hfirst, .into hK hprivate hnone hbelow, by simp, houter⟩
    | here =>
      -- the layout is that of the directory itself, and nothing stands beside it
      have hlength := (Partition.split_perm_of_layout hlayout).length_eq
      rw [pathBelow_nil] at houter
      rw [nodes_of_outer?_eq_some houter] at hchildren
      simp only [← hchildren, List.length_cons, List.length_append, List.length_nil] at hlength ⊢
      exact .inl (List.length_eq_zero_iff.1 (by omega))

end Folder

/-! ### Bare entries -/

/-- What stands between the brackets of a name is part of the name. -/
private theorem subset_of_bracketed? {name : String} {inner : List Char}
    (h : Segment.bracketed? name = some inner) : inner ⊆ name.toList := by
  obtain ⟨chars, hprefix, hsuffix⟩ := Option.bind_eq_some_iff.1 h
  have hopens := List.isPrefixOf?_eq_some_iff_append_eq.1 hprefix
  have hcloses := List.isSuffixOf?_eq_some_iff_append_eq.1 hsuffix
  rw [← hopens, ← hcloses]
  simp

/-- A segment has no slash if the name that it is read off has none. -/
private theorem slash_not_mem_path_ofStem {stem : String} (h : '/' ∉ stem.toList) :
    '/' ∉ (Segment.ofStem stem).path.toList := by
  unfold Segment.ofStem
  split
  · simp [Segment.path]
  · split
    · simp [Segment.path]
    · split
      · simpa [Segment.path] using h
      · next inner hinner =>
        have hslash : '/' ∉ inner := fun hmem => h (subset_of_bracketed? hinner hmem)
        split
        · next name hname =>
          rw [← List.isPrefixOf?_eq_some_iff_append_eq.1 hname] at hslash
          simpa [Segment.path] using hslash
        · simpa [Segment.path] using hslash

private theorem slash_not_mem_withoutExtension {name : String} (h : '/' ∉ name.toList) :
    '/' ∉ (withoutExtension name).toList := by
  unfold withoutExtension
  split
  · next stem extension hparts =>
    have hchars := toList_of_splitLastDot? (Option.filter_eq_some_iff.1 hparts).1
    rw [hchars] at h
    simp_all
  · exact h

/-- The segment of a folder is a name like that of the folder. -/
theorem isName_folderSegment {name : String} (h : IsName name) : IsName (folderSegment name).1 := by
  have hslash : '/' ∉ (Segment.ofName name).path.toList :=
    slash_not_mem_path_ofStem (slash_not_mem_withoutExtension h.2)
  unfold folderSegment
  by_cases hpath : (Segment.ofName name).path = ""
  · simpa [hpath] using h
  · simpa [hpath, IsName] using hslash

/-- What the conversion goes by when it makes entries of a node: a directory has a name for its
segment and is empty or has a layout, and only not-found pages have files with the meaning of
one. -/
structure Node.Labelled (n : Node) : Prop where
  isName : n.isRoute = true → IsName n.path
  covered : n.Covered
  layout : n.isLayout = true → referenceRole? n.file ≠ some .notFound
  notFound : n.kind = .notFound → referenceRole? n.file = some .notFound

/-- The node is a directory with contents, which has an entry of its own. -/
def Node.hasOwnEntry (n : Node) : Bool :=
  n.isRoute && !n.children.isEmpty

namespace Entry

/-- The path of the entry is a segment alone, and the file is not that of a not-found page. -/
def isBare (e : Entry) : Bool :=
  e.role? ≠ some .notFound && e.path.any fun path => '/' ∉ path.toList

/-- The entry is that of a directory of the tree: its path is the segment of the directory, and its
file that of the layout. -/
structure Represents (tree : List Node) (e : Entry) (n : Node) : Prop where
  mem : n ∈ Node.preorderAll tree
  isRoute : n.isRoute = true
  path : e.path = some n.path
  file : n.sign? = some e.file

end Entry

section

variable {top nodes : List Node} {n : Node}

/-- A directory with contents has one bare entry, which is its own. No other node has any. -/
theorem Reached.filter_isBare_convertNode (h : Reached top n) (htop : Node.All Node.Labelled top) :
    n.hasOwnEntry = false ∧ (convertNode n).filter Entry.isBare = [] ∨
      n.hasOwnEntry = true ∧ ∃ e, (convertNode n).filter Entry.isBare = [e] ∧
        e.Represents top n := by
  have hcovered : Node.All Node.Covered top := fun n hn => (htop n hn).covered
  cases hkind : n.kind with
  | layout =>
    simp [convertNode_of_layout hkind, hkind, Node.hasOwnEntry, Node.isRoute, Entry.isBare,
      Entry.layout]
  | page =>
    cases hindex : n.isIndex <;>
      simp [convertNode_of_page hkind, hkind, hindex, Node.hasOwnEntry, Node.isRoute, Entry.isBare,
        Entry.index]
  | notFound => simp [convertNode_of_notFound hkind, hkind, Node.hasOwnEntry, Node.isRoute]
  | route =>
    have hroute : n.isRoute = true := Node.isRoute_iff.2 hkind
    have hname := (htop n h.mem).isName hroute
    have hhoisted : ((Partition.split true n.children).dynamic.flatMap fun d =>
        resolve (joinSegments n.path d.path) (.split false d.children)).filter Entry.isBare =
        [] := by
      rw [List.filter_eq_nil_iff]
      intro e he
      obtain ⟨d, hd, he⟩ := List.mem_flatMap.1 he
      obtain ⟨hpath, -⟩ := (h.resolves_hoisted hkind hd).mem_resolve hcovered he
      simp [Entry.isBare, hpath, joinSegments, hname.1]
    rw [convertNode_of_route hkind, List.filter_append, hhoisted, List.append_nil]
    rcases (h.resolves hkind).resolve_eq hcovered with ⟨hempty, hnothing⟩ | ⟨layout, hfirst, hentry⟩
    · exact .inl ⟨by simp [Node.hasOwnEntry, hempty], by rw [hnothing, List.filter_nil]⟩
    · have hmem := List.mem_of_find?_eq_some hfirst
      have hrole := (htop layout (Node.preorderAll_inside _ h.mem
        (Node.mem_preorderAll_of_mem hmem))).layout (List.find?_some hfirst)
      have hbare : ∀ children, (Entry.route n.path layout.file children).isBare = true := by
        simp [Entry.isBare, Entry.route, Entry.role?, hrole, hname.2]
      refine .inr ⟨by simp [Node.hasOwnEntry, hroute, List.ne_nil_of_mem hmem], _,
        by rw [hentry, List.filter_cons_of_pos (hbare _), List.filter_nil],
        h.mem, hroute, rfl, ?_⟩
      simp [Node.sign?, hkind, hfirst, Entry.route]

/-- **The bare entries of a level stand for the directories with contents** among its nodes, in the
order of these. -/
theorem Converts.forall₂_represents (h : Converts top nodes) (htop : Node.All Node.Labelled top) :
    List.Forall₂ (Entry.Represents top) ((convert nodes).filter Entry.isBare)
      (nodes.filter Node.hasOwnEntry) := by
  have hclosing : (nodes.filterMap notFoundRoute?).filter Entry.isBare = [] := by
    rw [List.filter_eq_nil_iff]
    intro e he
    obtain ⟨n, hn, hentry⟩ := List.mem_filterMap.1 he
    obtain ⟨hkind, rfl⟩ := notFoundRoute?_eq_some_iff.1 hentry
    simp [Entry.isBare, Entry.route, Entry.role?,
      (htop n (Reached.mem ⟨nodes, h, hn⟩)).notFound hkind]
  rw [convert_eq, List.filter_append, hclosing, List.append_nil]
  have hreached : ∀ n ∈ nodes, Reached top n := fun n hn => ⟨nodes, h, hn⟩
  clear h hclosing
  induction nodes with
  | nil => exact .nil
  | cons n rest ih =>
    obtain ⟨hn, hrest⟩ := List.forall_mem_cons.1 hreached
    rw [List.flatMap_cons, List.filter_append]
    rcases hn.filter_isBare_convertNode htop with ⟨hnone, hbare⟩ | ⟨hown, e, hbare, he⟩
    · rw [hbare, List.filter_cons_of_neg (by simp [hnone])]
      exact ih hrest
    · rw [hbare, List.filter_cons_of_pos hown]
      exact .cons he (ih hrest)

end

/-! ### The levels of a configuration -/

/-- The bare entries of a level stand for directories of the tree, which make two lists in order. -/
structure Entry.InRuns (tree : List Node) (level : List Entry) (first rest : List Node) :
    Prop where
  represents : List.Forall₂ (Represents tree) (level.filter isBare) (first ++ rest)
  first : Node.InOrder first
  rest : Node.InOrder rest

/-- The entry stands for a directory that takes the layout of a private one for its own: that layout
is authored or a placeholder. -/
def Entry.StandsForTaker (o : Options) (ignored : IgnoreSet) (events : List Event) (e : Entry) :
    Prop :=
  e.path.isSome = true ∧ ∃ D A, TakesLayout (o.LacksLayout ignored events) D A ∧
    (e.file = o.cache.reference ("/".intercalate A) ∨
      ∃ layout, o.ListsLive ignored events A .layout layout ∧ e.file = o.referenceOf A layout)

namespace Folder

variable {o : Options} {ignored : IgnoreSet} {events : List Event} {F : Folder}

/-- The nodes of the tree of a lawful folder are labelled. -/
theorem Lawful.labelled_nodes (h : F.Lawful) (cache : LayoutCache) (start path : String) :
    Node.All Node.Labelled (F.nodes ignored (cache.referenceFor start) path) := by
  have hnames : Node.All (fun n => n.isRoute = true → IsName n.path)
      (F.nodes ignored (cache.referenceFor start) path) :=
    all_nodes (fun _ => nofun) (fun _ => nofun) (fun _ _ => nofun)
      (fun _ _ hname _ _ => isName_folderSegment hname) h.names
  have horigin := all_origin_nodes F ignored (cache.referenceFor start) path
  intro n hn
  refine ⟨hnames n hn, covered_nodes _ _ _ _ n hn, fun hlayout => ?_,
    fun hkind => (horigin n hn).role_of_notFound hkind⟩
  rcases (horigin n hn).role_of_isLayout hlayout with hrole | hrole <;> simp [hrole]

/-- A directory that was seen without an effective layout was listed without one. -/
theorem Lawful.lacksLayout_of_bare (h : F.Lawful) (hlistings : F.ListedIn o events)
    {B : List String} (hB : F.Bare ignored (startDirectory o.routes) B) :
    o.LacksLayout ignored events B := by
  obtain ⟨listing, hd, hnone⟩ := hB
  exact ⟨listing, hlistings.listingOf?_eq h hd, hnone⟩

/-- The file around a directory is a placeholder, or the layout that it was listed with. -/
theorem Lawful.file_of_outer?_eq_some (h : F.Lawful) (hlistings : F.ListedIn o events)
    {A : List String} {G : Folder} {file : String} (hG : F.Leads A G)
    (hfile : G.outer? ignored (o.cache.referenceFor (startDirectory o.routes))
      (pathBelow (startDirectory o.routes) A) = some file) :
    file = o.cache.reference ("/".intercalate A) ∨
      ∃ layout, o.ListsLive ignored events A .layout layout ∧ file = o.referenceOf A layout := by
  have hnames := h.names.of_mem_folders hG.mem_folders
  rcases of_outer?_eq_some hfile with hplaceholder | ⟨layout, hlayout, rfl⟩
  · rw [o.cache.referenceFor_pathBelow _ hnames] at hplaceholder
    exact .inl hplaceholder
  · refine .inr ⟨layout, ⟨G.listing, hlistings.listingOf?_eq h hG.mem_folders,
      mem_liveFiles_layout_iff.2 hlayout⟩, ?_⟩
    rw [Options.referenceOf, pathBelow_append]
    rfl

/-- The nodes of a level are two lists in order. They are one, unless the level is that inside a
directory which takes the layout of a private one for its own. -/
theorem Lawful.inRuns_of_mem_levels (h : F.Lawful) (hlistings : F.ListedIn o events)
    {tree : List Node}
    (htree : tree = F.nodes ignored (o.cache.referenceFor (startDirectory o.routes))
      (startDirectory o.routes)) {level : List Entry}
    (hlevel : level ∈ Entry.levels (convert tree)) :
    ∃ first rest, Entry.InRuns tree level first rest ∧
      (rest = [] ∨ ∃ e ∈ Entry.preorderAll (convert tree), e.children = level ∧
        e.StandsForTaker o ignored events) := by
  have hlabelled : Node.All Node.Labelled tree := htree ▸ h.labelled_nodes _ _ _
  have horigin := all_origin_nodes F ignored (o.cache.referenceFor (startDirectory o.routes))
    (startDirectory o.routes)
  rw [← htree] at horigin
  -- a level whose nodes are in order, or none at all
  have hone : ∀ {nodes}, Converts tree nodes → Node.InOrder nodes →
      Entry.InRuns tree (convert nodes) (nodes.filter Node.hasOwnEntry) [] := by
    intro nodes hnodes hordered
    refine ⟨?_, hordered.filter _, .nil⟩
    rw [List.append_nil]
    exact hnodes.forall₂_represents hlabelled
  rcases Entry.mem_levels_iff.1 hlevel with rfl | ⟨e, he, rfl⟩
  · exact ⟨_, [], hone .top (htree ▸ inOrder_nodes), .inl rfl⟩
  cases made_of_mem_preorderAll_convert .top e he with
  | index _ _ => exact ⟨[], [], ⟨.nil, .nil, .nil⟩, .inl rfl⟩
  | notFound _ _ => exact ⟨[], [], ⟨.nil, .nil, .nil⟩, .inl rfl⟩
  | @layout n hn hlayout =>
    obtain ⟨nodes, hnodes, hmem⟩ := hn
    obtain ⟨names, G, -, -, hsorted⟩ :=
      (horigin n (Reached.mem ⟨nodes, hnodes, hmem⟩)).of_isLayout hlayout
    exact ⟨_, [], hone (.layout hnodes hmem (Node.isLayout_iff.1 hlayout))
      (hsorted ▸ Node.inOrder_sortSiblings _), .inl rfl⟩
  | @directory path hoist d sign hd hsign =>
    obtain ⟨hroute, -⟩ := hd.holds (P := fun _ => True) fun _ _ => trivial
    obtain ⟨above, name, G, hG, hnotPrivate, hfolder⟩ := (horigin d hd.mem).of_isRoute hroute
    have hchildren : d.children = G.nodes ignored
        (o.cache.referenceFor (startDirectory o.routes))
        (pathBelow (startDirectory o.routes) (above ++ [name])) := by rw [hfolder]; rfl
    obtain ⟨first, rest, hinside, hfirst, hrest, htaken⟩ := @exists_inOrder_inside ignored
      (o.cache.referenceFor (startDirectory o.routes))
      (pathBelow (startDirectory o.routes) (above ++ [name])) G hoist
    rw [← hchildren] at hinside htaken
    have hbare := hd.converts.forall₂_represents hlabelled
    rw [hinside, List.filter_append, ← hinside] at hbare
    refine ⟨_, _, ⟨hbare, hfirst.filter _, hrest.filter _⟩, htaken.imp (by rintro rfl; rfl) ?_⟩
    rintro ⟨layout, groups, H, hlayout, hopens, hne, houter⟩
    obtain rfl : sign = layout := by
      rw [← Partition.layout_split hoist] at hlayout
      rcases hsign with hsign | ⟨hnone, -⟩
      · exact Option.some.inj (hsign.symm.trans hlayout)
      · simp [hnone] at hlayout
    have hH := hG.trans hopens.leads
    rw [← pathBelow_append] at houter
    exact ⟨_, he, rfl, rfl, above ++ [name], above ++ [name] ++ groups,
      (hopens.takesLayout hG hnotPrivate hne).imp fun B => h.lacksLayout_of_bare hlistings,
      h.file_of_outer?_eq_some hlistings hH houter⟩

end Folder

/-- **Precedence is kept** in every run of a build that returns a tree, on a storage that lists
every entry once and by its name. The bare entries of each level stand for directories in order:
static before dynamic ones, and by segment among those of one sort. Only inside the entry of a
directory that takes the layout of a private one for its own, there may be two such lists after each
other. -/
theorem Job.Run.precedence_kept {σ : Type} {storage : Storage (StateM σ)} {o : Options}
    {depth : Nat} {s s' : σ} {events : List Event} {job : Job (List Node)} {tree : List Node}
    (hrun : Job.Run storage (buildTree o depth) s events job s')
    (hresult : job.result? = some (.ok tree))
    (hlawful : ∀ path listing, Event.listed path listing ∈ events → LawfulListing listing) :
    ∃ ignored, IgnoreSet.ofTexts o.ignored = .ok ignored ∧
      ∀ level ∈ Entry.levels (convert tree), ∃ first rest, Entry.InRuns tree level first rest ∧
        (rest = [] ∨ ∃ e ∈ Entry.preorderAll (convert tree), e.children = level ∧
          e.StandsForTaker o ignored events) := by
  obtain ⟨ignored, F, hignored, hF, htree, hlistings⟩ := hrun.exists_lawful_folder hresult hlawful
  exact ⟨ignored, hignored, fun level hlevel => hF.inRuns_of_mem_levels hlistings htree hlevel⟩

/-! ### An example -/

namespace Memory

/-- A shop without a layout of its own: in it are a private directory for its items, which has a
layout, and the cart. -/
def catalog : Memory :=
  .ofFiles [(⟨"app/routes/shop/_items/layout.tsx"⟩, ""),
    (⟨"app/routes/shop/_items/[id]/page.tsx"⟩, ""), (⟨"app/routes/shop/cart/page.tsx"⟩, "")]

/-- The node of the cart. -/
def cartNode : Node :=
  .route "cart" false [.layout ".react-router/layouts/shop.cart.layout.tsx"
    [.indexPage "./routes/shop/cart/page.tsx"]]

/-- The node of an item. -/
def itemNode : Node :=
  .route ":id" true [.layout ".react-router/layouts/shop._items.[id].layout.tsx"
    [.indexPage "./routes/shop/_items/[id]/page.tsx"]]

/-- The route tree of these files. -/
def catalogTree : List Node :=
  [.layout ".react-router/layouts/root.layout.tsx" [.route "shop" false
    [cartNode, .layout "./routes/shop/_items/layout.tsx" [itemNode]]]]

/-- What is inside the entry of the shop. -/
def catalogLevel : List Entry :=
  [.route ":id" ".react-router/layouts/shop._items.[id].layout.tsx"
      [.index "./routes/shop/_items/[id]/page.tsx"],
    .route "cart" ".react-router/layouts/shop.cart.layout.tsx"
      [.index "./routes/shop/cart/page.tsx"]]

theorem buildTree_catalog : (buildTree catalog {}).1 = .ok catalogTree := by
  decide +kernel

theorem convert_catalogTree : convert catalogTree =
    [.layout ".react-router/layouts/root.layout.tsx"
      [.route "shop" "./routes/shop/_items/layout.tsx" catalogLevel]] := by
  simp [catalogTree, catalogLevel, cartNode, itemNode, Node.layout, Node.route, Node.indexPage,
    Node.isLayout, Node.isRoute, Node.isIndexPage, Partition.directory, Partition.split,
    Partition.add, convert, convertEach, convertNode, resolve, hoist, notFoundRoute?]

end Memory

/-- Precedence is kept in the levels of the catalog. -/
theorem Job.Run.precedence_kept_catalog : ∃ events job m',
    Job.Run Memory.storage (buildTree {} (Memory.catalog.scanDepth {})) Memory.catalog events job
        m' ∧
      job.result? = some (.ok Memory.catalogTree) ∧
      ∃ ignored, IgnoreSet.ofTexts [] = .ok ignored ∧
        ∀ level ∈ Entry.levels (convert Memory.catalogTree),
          ∃ first rest, Entry.InRuns Memory.catalogTree level first rest ∧
            (rest = [] ∨ ∃ e ∈ Entry.preorderAll (convert Memory.catalogTree), e.children = level ∧
              e.StandsForTaker {} ignored events) := by
  obtain ⟨events, job, hrun, hresult⟩ := Job.exists_run_sequential Memory.storage
    (buildTree {} (Memory.catalog.scanDepth {})) Memory.catalog
  have hbuilt := hresult.trans (congrArg some Memory.buildTree_catalog)
  exact ⟨events, job, _, hrun, hbuilt, Job.Run.precedence_kept hrun hbuilt fun _ _ hlisted =>
    hrun.lawful_listed (Memory.reachable_ofFiles _) hlisted⟩

/-- In the shop the items, whose segment is dynamic, stand before the cart. -/
theorem Memory.precedence_lost : ∃ tree, (Memory.buildTree Memory.catalog {}).1 = .ok tree ∧
    (Memory.compile Memory.catalog {}).1 = .ok (convert tree) ∧
    ¬ ∀ level ∈ Entry.levels (convert tree), ∃ nodes,
      List.Forall₂ (Entry.Represents tree) (level.filter Entry.isBare) nodes ∧
        Node.InOrder nodes := by
  refine ⟨catalogTree, buildTree_catalog, ?_, fun h => ?_⟩
  · rw [compile_eq, buildTree_catalog]
    rfl
  have hlevel : catalogLevel ∈ Entry.levels (convert catalogTree) := by
    simp [convert_catalogTree, Entry.mem_levels_iff, Entry.preorder_eq, Entry.layout, Entry.route]
  have hbare : catalogLevel.filter Entry.isBare = catalogLevel := by decide +kernel
  obtain ⟨nodes, hrepresents, hordered⟩ := h catalogLevel hlevel
  rw [hbare] at hrepresents
  obtain ⟨item, _, hitem, hrest, rfl⟩ := List.forall₂_cons_left_iff.1 hrepresents
  obtain ⟨cart, _, hcart, -, rfl⟩ := List.forall₂_cons_left_iff.1 hrest
  have hdynamic : ∀ n ∈ Node.preorderAll catalogTree,
      (n.path = ":id" → n.isDynamic = true) ∧ (n.path = "cart" → n.isDynamic = false) := by
    decide +kernel
  have hfirst := (List.pairwise_cons.1 hordered).1 cart List.mem_cons_self
  rw [Node.mayPrecede_iff_of_isRoute hitem.isRoute hcart.isRoute,
    (hdynamic item hitem.mem).1 (Option.some.inj hitem.path).symm,
    (hdynamic cart hcart.mem).2 (Option.some.inj hcart.path).symm] at hfirst
  simp at hfirst

end FileRoutes
