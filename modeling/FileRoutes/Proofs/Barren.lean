import FileRoutes.Proofs.NotFoundLast
import FileRoutes.Proofs.SharedFiles

/-!
# Directories with nothing to show

A directory is **barren** if no directory at or below it has a live file. A scan does not pass over
it: unless it is private, it adds a node to the directory that it stands in, an empty one at first.
The conversion drops empty directories, but the scan takes their nodes for contents and puts a
placeholder around them. So a barren directory that holds another one is given a placeholder, and
with it an entry that nothing authored is in; and this is the only way in which that happens.

Main result: `Job.Run.placeholders_around`, on every interleaved run of a build on any storage that
lists entries once and by their names; a barren directory has an entry in `Memory.barren_entry`.
-/

namespace FileRoutes

namespace Folder

variable {F G H : Folder} {names more : List String} {name : String}

/-! ### Directories below a directory -/

/-- Every directory that was seen is one that names lead to. -/
theorem exists_leads_of_mem_folders {listing : List Listed} (h : (names, listing) ∈ F.folders) :
    ∃ G, F.Leads names G ∧ G.listing = listing := by
  have hbelow : ∀ {names}, (names, listing) ∈ F.foldersBelow →
      ∃ name more, names = name :: more ∧ ∃ d ∈ F.directories, d.1 = name ∧
        ∃ G, d.2.Leads more G ∧ G.listing = listing := by
    clear h
    induction F with
    | nil => simp [foldersBelow]
    | entry e rest ih => exact ih
    | directory other inside rest ihinside ihrest =>
      intro names h
      rcases List.mem_append.1 h with h | h
      · obtain ⟨⟨below, entries⟩, hd, heq⟩ := List.mem_map.1 h
        obtain ⟨rfl, rfl⟩ := Prod.mk.inj heq
        refine ⟨other, below, rfl, (other, inside), List.mem_cons_self, rfl, ?_⟩
        rcases List.mem_cons.1 hd with heq | hd
        · obtain ⟨rfl, rfl⟩ := Prod.mk.inj heq
          exact ⟨inside, .here inside, rfl⟩
        · obtain ⟨first, more, rfl, ⟨_, K⟩, hK, rfl, G, hG, hlisting⟩ := ihinside hd
          exact ⟨G, .into hK hG, hlisting⟩
      · obtain ⟨first, more, rfl, d, hd, hfound⟩ := ihrest h
        exact ⟨first, more, rfl, d, List.mem_cons_of_mem _ hd, hfound⟩
  rcases List.mem_cons.1 h with heq | h
  · obtain ⟨rfl, rfl⟩ := Prod.mk.inj heq
    exact ⟨F, .here F, rfl⟩
  · obtain ⟨_, more, rfl, ⟨_, K⟩, hK, rfl, G, hG, hlisting⟩ := hbelow h
    exact ⟨G, .into hK hG, hlisting⟩

/-- The way to a directory leads through those before it. -/
theorem Leads.split (h : F.Leads (names ++ more) H) : ∃ G, F.Leads names G ∧ G.Leads more H := by
  induction names generalizing F with
  | nil => exact ⟨F, .here F, h⟩
  | cons name names ih =>
    cases h with
    | into hG h =>
      obtain ⟨K, hK, hH⟩ := ih h
      exact ⟨K, .into hG hK, hH⟩

/-- What is seen from a directory further down is seen from here. -/
theorem Leads.append_mem_folders {listing : List Listed} (h : F.Leads names G)
    (hmore : (more, listing) ∈ G.folders) : (names ++ more, listing) ∈ F.folders := by
  obtain ⟨H, hH, rfl⟩ := exists_leads_of_mem_folders hmore
  exact (h.trans hH).mem_folders

/-- The directories in a directory are among its entries. -/
theorem directories_sublist_listing (F : Folder) :
    (F.directories.map fun d => (⟨d.1, true⟩ : Listed)).Sublist F.listing := by
  induction F with
  | nil => exact .slnil
  | entry e rest ih => exact ih.cons e
  | directory name inside rest _ ih => exact ih.cons_cons _

/-- Lawful listings are lawful further down. -/
theorem Lawful.of_leads (h : F.Lawful) (hG : F.Leads names G) : G.Lawful := fun d hd =>
  h (names ++ d.1, d.2) (hG.append_mem_folders hd)

/-- In lawful listings names lead to one directory. -/
theorem Lawful.leads_unique (h : F.Lawful) (hG : F.Leads names G) (hH : F.Leads names H) :
    G = H := by
  induction hG with
  | here F =>
    cases hH
    rfl
  | @into F G G' name names hdirectory hG ih =>
    cases hH with
    | into hother hH =>
      have hlisting : F.listing.Nodup := (h ([], F.listing) List.mem_cons_self).nodup
      have hnames := hlisting.sublist F.directories_sublist_listing
      have hsame := List.inj_on_of_nodup_map hnames hdirectory hother rfl
      obtain ⟨-, rfl⟩ := Prod.mk.inj hsame
      exact ih (h.of_leads (.into hdirectory (.here G))) hH

/-! ### Barren directories -/

section

variable {ignored : IgnoreSet} {reference : String → String} {cache : LayoutCache}
  {start path file : String}

/-- No directory at or below the one at `path` has a live file. -/
def IsBarren (ignored : IgnoreSet) (path : String) (F : Folder) : Prop :=
  ∀ d ∈ F.folders, liveFiles ignored (pathBelow path d.1) d.2 = []

/-- What is below a barren directory is barren. -/
theorem IsBarren.of_leads (h : F.IsBarren ignored path) (hG : F.Leads names G) :
    G.IsBarren ignored (pathBelow path names) := by
  intro d hd
  rw [← pathBelow_append]
  exact h (names ++ d.1, d.2) (hG.append_mem_folders hd)

/-- A barren directory has no effective layout. -/
theorem IsBarren.effectiveLayout? (h : F.IsBarren ignored path) :
    effectiveLayout? ignored path F.listing = none := by
  have hnone := h ([], F.listing) List.mem_cons_self
  cases hlayout : FileRoutes.effectiveLayout? ignored path F.listing with
  | none => rfl
  | some name => simp [liveFiles, hlayout] at hnone

/-- All that is found in a barren directory is what the directories in it add. -/
theorem IsBarren.mem_found_iff (h : F.IsBarren ignored path) {n : Node} :
    n ∈ F.found ignored reference path ↔ ∃ d ∈ F.directories,
      n ∈ Scan.nodesOfDirectory d.1 (d.2.nodes ignored reference (entryPath path d.1)) := by
  rw [Folder.mem_found_iff, or_iff_right]
  rintro ⟨page, hpage, -⟩
  have hlive : page ∈ liveFiles ignored path F.listing := List.mem_append_right _ hpage
  have hnone : liveFiles ignored path F.listing = [] := h ([], F.listing) List.mem_cons_self
  simp [hnone] at hlive

/-- The file around a directory without an effective layout is a placeholder, which it is given if
its nodes need one. -/
theorem outer?_of_effectiveLayout?_eq_none (h : effectiveLayout? ignored path F.listing = none) :
    F.outer? ignored reference path =
      if Scan.needsPlaceholder (Node.sortSiblings (F.found ignored reference path)) then
        some (reference path) else none := by
  unfold outer? wrapper? findings
  rw [layoutPath?_findings, h]
  rfl

/-- **A barren directory adds nodes only if it leads to one that is not private.** -/
theorem IsBarren.exists_leads_of_nodes_ne_nil (h : F.IsBarren ignored path)
    (hne : F.nodes ignored reference path ≠ []) :
    ∃ names name G, F.Leads (names ++ [name]) G ∧ isPrivate name = false := by
  induction path, F using directories_induction with | h path F ih =>
  have hfound : F.found ignored reference path ≠ [] := by
    intro hnone
    have houter := @outer?_of_effectiveLayout?_eq_none F ignored reference path h.effectiveLayout?
    rw [hnone] at houter
    have hnothing : Node.sortSiblings [] = [] := rfl
    have hneeds : Scan.needsPlaceholder [] = false := rfl
    simp only [hnothing, hneeds, Bool.false_eq_true, if_false] at houter
    rw [nodes_of_outer?_eq_none houter, hnone] at hne
    exact hne hnothing
  obtain ⟨n, hn⟩ := List.exists_mem_of_ne_nil _ hfound
  obtain ⟨⟨name, G⟩, hG, hn⟩ := h.mem_found_iff.1 hn
  cases hname : isPrivate name with
  | false => exact ⟨[], name, G, .into hG (.here G), hname⟩
  | true =>
    have hnodes : G.nodes ignored reference (entryPath path name) ≠ [] := by
      simp only [Scan.nodesOfDirectory, hname, if_true] at hn
      exact List.ne_nil_of_mem hn
    have hinside := h.of_leads (.into hG (.here G))
    rw [pathBelow_cons, pathBelow_nil] at hinside
    obtain ⟨names, other, H, hH, hother⟩ := ih _ hG hinside hnodes
    exact ⟨name :: names, other, H, .into hG hH, hother⟩

/-- **A barren directory in which one stands that is not private opens into one that is given a
placeholder.** -/
theorem IsBarren.exists_opens (h : F.IsBarren ignored path) (reference : String → String)
    (hG : (name, G) ∈ F.directories) (hname : isPrivate name = false) :
    ∃ groups H, Opens ignored reference path F groups H ∧
      (H.outer? ignored reference (pathBelow path groups)).isSome = true := by
  have hfound : Node.folder name (G.nodes ignored reference (entryPath path name)) ∈
      F.found ignored reference path :=
    h.mem_found_iff.2 ⟨_, hG, by simp [Scan.nodesOfDirectory, hname]⟩
  cases houter : F.outer? ignored reference path with
  | some file => exact ⟨[], F, .here path F, by simp [houter]⟩
  | none =>
    have hnodes := nodes_of_outer?_eq_none houter
    have hmem := (Node.sortSiblings_perm _).mem_iff.2 hfound
    rw [← hnodes] at hmem
    -- nothing is put around the nodes, so there is a layout among them
    have hany := (@any_isLayout_nodes ignored reference path F).resolve_left
      (List.ne_nil_of_mem hmem)
    obtain ⟨layout, hlayout, hsign⟩ := List.any_eq_true.1 hany
    obtain ⟨groups, H, hopens, hfile⟩ := exists_opens_of_isLayout hlayout hsign
    exact ⟨groups, H, hopens, by simp [hfile]⟩

/-! ### The directories that are given placeholders -/

/-- Closing a directory gives it a placeholder if it has no effective layout and its nodes need
one. -/
private theorem mem_placeholder?_close_iff {exhibited : List Exhibit} :
    names ∈ (F.closeExhibits ignored reference path exhibited).filterMap Exhibit.placeholder? ↔
      (names = [] ∧ FileRoutes.effectiveLayout? ignored path F.listing = none ∧
        (F.outer? ignored reference path).isSome = true) ∨
      names ∈ exhibited.filterMap Exhibit.placeholder? := by
  unfold closeExhibits
  cases hlayout : FileRoutes.effectiveLayout? ignored path F.listing with
  | some name =>
    simp only [List.filterMap_cons, Exhibit.placeholder?, placeholder?_within]
    simp
  | none =>
    rw [outer?_of_effectiveLayout?_eq_none hlayout]
    simp only
    split
    · rw [List.filterMap_cons, placeholder?_within]
      simp [Exhibit.placeholder?]
    · simp

/-- What is exhibited in a directory without its own layout has the placeholders of the directories
in it. -/
private theorem mem_placeholder?_found_iff :
    names ∈ (F.foundExhibits ignored reference path).filterMap Exhibit.placeholder? ↔
      ∃ d ∈ F.directories, ∃ more, names = d.1 :: more ∧
        more ∈ (d.2.exhibits ignored reference (entryPath path d.1)).filterMap
          Exhibit.placeholder? := by
  induction F with
  | nil => simp [foundExhibits, directories]
  | entry e rest ih =>
    have hnone : ((livePage? ignored path e).toList.map fun page =>
        (⟨[], page.1, some page.2, []⟩ : Exhibit)).filterMap Exhibit.placeholder? = [] := by
      cases livePage? ignored path e <;> rfl
    rw [foundExhibits, List.filterMap_append, hnone, List.nil_append, ih, directories]
  | directory name inside rest _ ihrest =>
    rw [foundExhibits, List.filterMap_append, List.mem_append, placeholder?_inFolder, ihrest,
      directories, List.exists_mem_cons_iff, List.mem_map]
    refine or_congr ?_ Iff.rfl
    constructor
    · rintro ⟨more, hmore, rfl⟩
      exact ⟨more, rfl, hmore⟩
    · rintro ⟨more, rfl, hmore⟩
      exact ⟨more, hmore, rfl⟩

/-- **A directory is given a placeholder** if it was seen without an effective layout and with nodes
that need one. -/
theorem mem_placeholders_iff :
    names ∈ (F.exhibits ignored reference path).filterMap Exhibit.placeholder? ↔
      ∃ G, F.Leads names G ∧
        FileRoutes.effectiveLayout? ignored (pathBelow path names) G.listing = none ∧
        (G.outer? ignored reference (pathBelow path names)).isSome = true := by
  induction path, F using directories_induction generalizing names with | h path F ih =>
  rw [exhibits, mem_placeholder?_close_iff, mem_placeholder?_found_iff]
  constructor
  · rintro (⟨rfl, hnone, hsome⟩ | ⟨⟨name, G⟩, hG, more, rfl, hmore⟩)
    · exact ⟨F, .here F, hnone, hsome⟩
    · obtain ⟨H, hH, hplaceholder⟩ := (ih _ hG).1 hmore
      exact ⟨H, .into hG hH, hplaceholder⟩
  · rintro ⟨H, hH, hnone, hsome⟩
    cases hH with
    | here => exact .inl ⟨rfl, hnone, hsome⟩
    | into hG hH => exact .inr ⟨_, hG, _, rfl, (ih _ hG).2 ⟨H, hH, hnone, hsome⟩⟩

/-! ### Entries with placeholders -/

/-- An entry with a placeholder has the file of a layout, and has inside what this wraps. -/
theorem exists_isLayout_of_role?_eq_none {e : Entry}
    (he : e ∈ Entry.preorderAll (convert (F.nodes ignored (cache.referenceFor start) path)))
    (hrole : e.role? = none) :
    ∃ n ∈ Node.preorderAll (F.nodes ignored (cache.referenceFor start) path),
      n.isLayout = true ∧ e.file = n.file ∧
      Entry.preorderAll (convert n.children) ⊆ Entry.preorderAll e.children := by
  have horigin := all_origin_nodes F ignored (cache.referenceFor start) path
  cases made_of_mem_preorderAll_convert .top e he with
  | index hn hindex =>
    have hpage := (horigin _ hn.mem).role_of_isIndexPage hindex
    exact absurd (hrole.symm.trans hpage) (by simp)
  | notFound hn hkind =>
    have hpage := (horigin _ hn.mem).role_of_notFound hkind
    exact absurd (hrole.symm.trans hpage) (by simp)
  | layout hn hlayout => exact ⟨_, hn.mem, hlayout, rfl, List.Subset.refl _⟩
  | @directory path hoist d sign hd hsign =>
    have hchildren := Node.preorderAll_inside _ hd.mem
    have hmem : sign ∈ Partition.all (Partition.split hoist d.children) := by
      rcases hsign with hsign | ⟨-, hsign⟩ <;> simp [Partition.all, hsign]
    have hchild := (Partition.all_split_perm hoist d.children).mem_iff.1 hmem
    have hsigned := hchildren (Node.mem_preorderAll_of_mem hchild)
    rcases hsign with hsign | ⟨-, hsign⟩
    · have hfirst := hsign
      rw [Partition.layout_split] at hfirst
      refine ⟨sign, hsigned, List.find?_some hfirst, rfl, ?_⟩
      rw [Partition.inside, hsign]
      exact preorderAll_convert_subset_append _ _
    · have hpage := (horigin _ hsigned).role_of_isIndexPage
        (Partition.isIndexPage_of_index_split hsign)
      exact absurd (hrole.symm.trans hpage) (by simp)

/-- A layout in the tree whose file means nothing is the placeholder of a directory, around what was
found in it. -/
theorem Origin.exists_placeholder {n : Node}
    (h : Origin ignored (cache.referenceFor start) path F n) (hn : n.isLayout = true)
    (hrole : referenceRole? n.file = none) :
    ∃ names G, F.Leads names G ∧
      names ∈ (F.exhibits ignored (cache.referenceFor start) path).filterMap
        Exhibit.placeholder? ∧
      n.file = cache.referenceFor start (pathBelow path names) ∧
      G.nodes ignored (cache.referenceFor start) (pathBelow path names) =
        [.layout n.file n.children] := by
  obtain ⟨names, G, hG, houter, hchildren⟩ := h.of_isLayout hn
  have hnone : FileRoutes.effectiveLayout? ignored (pathBelow path names) G.listing = none := by
    cases hlayout : FileRoutes.effectiveLayout? ignored (pathBelow path names) G.listing with
    | none => rfl
    | some layout =>
      have hfile : n.file = fileReference (entryPath (pathBelow path names) layout) := by
        unfold outer? wrapper? findings at houter
        rw [layoutPath?_findings, hlayout] at houter
        exact (Option.some.inj houter).symm
      rw [hfile, referenceRole?_of_mem_liveFiles (mem_liveFiles_layout_iff.2 hlayout)] at hrole
      cases hrole
  refine ⟨names, G, hG, mem_placeholders_iff.2 ⟨G, hG, hnone, by simp [houter]⟩, ?_, ?_⟩
  · rw [outer?_of_effectiveLayout?_eq_none hnone] at houter
    simp only [Option.ite_none_right_eq_some, Option.some.injEq] at houter
    exact houter.2.symm
  · rw [nodes_of_outer?_eq_some houter, hchildren]

/-- A directory that is not barren has an entry that shows an authored file. -/
theorem Lawful.exists_role_ne_none (h : F.Lawful) (cache : LayoutCache) (start : String)
    (hlive : ¬ F.IsBarren ignored path) :
    ∃ q ∈ Entry.preorderAll (convert (F.nodes ignored (cache.referenceFor start) path)),
      q.role? ≠ none := by
  simp only [IsBarren, not_forall] at hlive
  obtain ⟨⟨names, listing⟩, hd, hfiles⟩ := hlive
  obtain ⟨⟨role, name⟩, hfile⟩ := List.exists_mem_of_ne_nil _ hfiles
  obtain ⟨p, -, hshowing, -⟩ := h.exists_showing_eq cache start
    (mem_flatMap_liveIn_iff.2 ⟨listing, hd, hfile⟩)
  obtain ⟨hplaced, hreference⟩ := List.mem_filter.1 (hshowing ▸ List.mem_singleton_self p)
  refine ⟨p.entry, ?_, ?_⟩
  · rw [← Entry.map_entry_placedAll]
    exact List.mem_map_of_mem hplaced
  · have hrole := referenceRole?_of_mem_liveFiles hfile
    rw [pathBelow_append] at hreference
    rw [Entry.role?, of_decide_eq_true hreference, pathBelow_cons, pathBelow_nil, hrole]
    simp

end

end Folder

/-! ### Listings of a run -/

namespace Options

variable (o : Options)

/-- The directory that `folders` lead to was listed. -/
def Lists (events : List Event) (folders : List String) : Prop :=
  (listingOf? events (o.directoryPath folders)).isSome = true

/-- The directory that `folders` lead to was listed, and no directory at or below it with a live
file. -/
structure ListsBarren (ignored : IgnoreSet) (events : List Event) (folders : List String) :
    Prop where
  isName : ∀ n ∈ folders, IsName n
  lists : o.Lists events folders
  nothing : ∀ B role name, folders <+: B → (∀ n ∈ B, IsName n) →
    ¬ o.ListsLive ignored events B role name

variable {o}

/-- A directory listed below a barren one is barren. -/
theorem ListsBarren.of_prefix {ignored : IgnoreSet} {events : List Event} {D B : List String}
    (h : o.ListsBarren ignored events D) (hB : D <+: B) (hnames : ∀ n ∈ B, IsName n)
    (hlists : o.Lists events B) : o.ListsBarren ignored events B :=
  ⟨hnames, hlists, fun C role name hC => h.nothing C role name (hB.trans hC)⟩

end Options

namespace Folder.Lawful

variable {o : Options} {ignored : IgnoreSet} {events : List Event} {F G : Folder}
  {D : List String}

section

variable (h : F.Lawful) (hlistings : F.ListedIn o events)

include h hlistings

omit h in
/-- The directories that were listed are those that names lead to. -/
theorem exists_leads_of_lists (hD : ∀ n ∈ D, IsName n) (hlists : o.Lists events D) :
    ∃ G, F.Leads D G := by
  obtain ⟨listing, hlisting⟩ := Option.isSome_iff_exists.1 hlists
  obtain ⟨G, hG, -⟩ := exists_leads_of_mem_folders ((hlistings D hD listing).1 hlisting)
  exact ⟨G, hG⟩

theorem lists_of_leads (hG : F.Leads D G) : o.Lists events D :=
  Option.isSome_iff_exists.2 ⟨_, hlistings.listingOf?_eq h hG.mem_folders⟩

/-- A directory was seen barren if and only if it was listed barren. -/
theorem isBarren_iff (hG : F.Leads D G) :
    G.IsBarren ignored (pathBelow (startDirectory o.routes) D) ↔
      o.ListsBarren ignored events D := by
  constructor
  · intro hbarren
    refine ⟨h.names.of_mem_folders hG.mem_folders, h.lists_of_leads hlistings hG, ?_⟩
    rintro _ role name ⟨more, rfl⟩ hB ⟨listing, hlisting, hlive⟩
    obtain ⟨H, hH, rfl⟩ := exists_leads_of_mem_folders ((hlistings _ hB listing).1 hlisting)
    obtain ⟨K, hK, hH⟩ := hH.split
    -- names lead to one directory, so it is the barren one that leads further
    obtain rfl := h.leads_unique hG hK
    have hnone := hbarren _ hH.mem_folders
    rw [← pathBelow_append] at hnone
    simp [hnone] at hlive
  · intro hbarren d hd
    have hseen := hG.append_mem_folders hd
    have hB := h.names.of_mem_folders hseen
    rw [← pathBelow_append]
    refine List.eq_nil_iff_forall_not_mem.2 fun file hfile => ?_
    exact hbarren.nothing _ file.1 file.2 (List.prefix_append _ _) hB
      ⟨d.2, hlistings.listingOf?_eq h hseen, hfile⟩

/-- An entry with a placeholder is that of a directory which was given one. That directory is
barren, or something authored is inside the entry. -/
theorem placeholder_around {tree : List Node}
    (htree : tree = F.nodes ignored (o.cache.referenceFor (startDirectory o.routes))
      (startDirectory o.routes)) {e : Entry} (he : e ∈ Entry.preorderAll (convert tree))
    (hrole : e.role? = none) :
    ∃ D ∈ (F.exhibits ignored (o.cache.referenceFor (startDirectory o.routes))
        (startDirectory o.routes)).filterMap Exhibit.placeholder?,
      e.file = o.cache.reference ("/".intercalate D) ∧
      (o.ListsBarren ignored events D ∨ ∃ q ∈ Entry.preorderAll e.children, q.role? ≠ none) := by
  have horigin := all_origin_nodes F ignored (o.cache.referenceFor (startDirectory o.routes))
    (startDirectory o.routes)
  rw [htree] at he
  obtain ⟨n, hn, hlayout, hfile, hinside⟩ := exists_isLayout_of_role?_eq_none he hrole
  rw [Entry.role?, hfile] at hrole
  obtain ⟨D, G, hG, hplaceholder, hreference, hnodes⟩ :=
    (horigin n hn).exists_placeholder hlayout hrole
  have hnames := h.names.of_mem_folders hG.mem_folders
  rw [o.cache.referenceFor_pathBelow _ hnames] at hreference
  refine ⟨D, hplaceholder, hfile.trans hreference, ?_⟩
  rw [← h.isBarren_iff hlistings hG, or_iff_not_imp_left]
  intro hlive
  obtain ⟨q, hq, hauthored⟩ := (h.of_leads hG).exists_role_ne_none o.cache
    (startDirectory o.routes) hlive
  rw [hnodes, convert_layout, Entry.preorderAll_cons, Entry.preorder_eq, Entry.preorderAll_nil,
    List.append_nil, List.mem_cons] at hq
  rcases hq with rfl | hq
  · exact absurd hrole hauthored
  · exact ⟨q, hinside hq, hauthored⟩

/-- A barren directory is given a placeholder if and only if a directory that is not private was
listed in some barren one. -/
theorem exists_barren_placeholder_iff :
    (∃ D ∈ (F.exhibits ignored (o.cache.referenceFor (startDirectory o.routes))
        (startDirectory o.routes)).filterMap Exhibit.placeholder?,
      o.ListsBarren ignored events D) ↔
    ∃ B name, o.ListsBarren ignored events B ∧ IsName name ∧ isPrivate name = false ∧
      o.Lists events (B ++ [name]) := by
  constructor
  · rintro ⟨D, hD, hbarren⟩
    obtain ⟨G, hG, hnone, houter⟩ := mem_placeholders_iff.1 hD
    obtain ⟨file, hfile⟩ := Option.isSome_iff_exists.1 houter
    have hnodes := nodes_of_outer?_eq_some hfile
    obtain ⟨names, name, H, hH, hname⟩ :=
      ((h.isBarren_iff hlistings hG).2 hbarren).exists_leads_of_nodes_ne_nil
        (by rw [hnodes]; exact List.cons_ne_nil _ _)
    obtain ⟨K, hK, -⟩ := hH.split
    have hlists := h.lists_of_leads hlistings (hG.trans hK)
    have hbelow := h.lists_of_leads hlistings (hG.trans hH)
    have hnames := h.names.of_mem_folders (hG.trans hH).mem_folders
    rw [← List.append_assoc, List.forall_mem_append] at hnames
    rw [← List.append_assoc] at hbelow
    exact ⟨D ++ names, name, hbarren.of_prefix (List.prefix_append _ _) hnames.1 hlists,
      hnames.2 name List.mem_cons_self, hname, hbelow⟩
  · rintro ⟨B, name, hbarren, hisName, hname, hlists⟩
    have hnames : ∀ n ∈ B ++ [name], IsName n := by
      simpa [or_imp, forall_and] using ⟨hbarren.isName, hisName⟩
    obtain ⟨H, hH⟩ := exists_leads_of_lists hlistings hnames hlists
    obtain ⟨G, hG, hH⟩ := hH.split
    have hG' := (h.isBarren_iff hlistings hG).2 hbarren
    cases hH with
    | into hdirectory _ =>
      obtain ⟨groups, K, hopens, houter⟩ := hG'.exists_opens
        (o.cache.referenceFor (startDirectory o.routes)) hdirectory hname
      have hK := hG.trans hopens.leads
      have hnone := (hG'.of_leads hopens.leads).effectiveLayout?
      rw [← pathBelow_append] at hnone houter
      exact ⟨B ++ groups, mem_placeholders_iff.2 ⟨K, hK, hnone, houter⟩,
        hbarren.of_prefix (List.prefix_append _ _) (h.names.of_mem_folders hK.mem_folders)
          (h.lists_of_leads hlistings hK)⟩

end

end Folder.Lawful

/-- **Placeholders are put around something authored, or around barren directories**, in every run
of a build that returns a tree, on a storage that lists every entry once and by its name. Every
entry with a placeholder is that of a directory which was given one, and has an authored file inside
unless that directory is barren. Barren directories are given placeholders if and only if one of
them holds a directory that is not private. -/
theorem Job.Run.placeholders_around {σ : Type} {storage : Storage (StateM σ)} {o : Options}
    {depth : Nat} {s s' : σ} {events : List Event} {job : Job (List Node)} {tree : List Node}
    (hrun : Job.Run storage (buildTree o depth) s events job s')
    (hresult : job.result? = some (.ok tree))
    (hlawful : ∀ path listing, Event.listed path listing ∈ events → LawfulListing listing) :
    ∃ ignored authored directories, IgnoreSet.ofTexts o.ignored = .ok ignored ∧
      EntryFiles o ignored events (convert tree) authored directories ∧
      (∀ e ∈ Entry.preorderAll (convert tree), e.role? = none →
        ∃ D ∈ directories, e.file = o.cache.reference ("/".intercalate D) ∧
          (o.ListsBarren ignored events D ∨
            ∃ q ∈ Entry.preorderAll e.children, q.role? ≠ none)) ∧
      ((∃ D ∈ directories, o.ListsBarren ignored events D) ↔
        ∃ B name, o.ListsBarren ignored events B ∧ IsName name ∧ isPrivate name = false ∧
          o.Lists events (B ++ [name])) := by
  obtain ⟨ignored, F, hignored, hF, htree, hlistings⟩ := hrun.exists_lawful_folder hresult hlawful
  exact ⟨ignored, _, _, hignored, htree ▸ hF.entryFiles hlistings,
    fun e he hrole => hF.placeholder_around hlistings htree he hrole,
    hF.exists_barren_placeholder_iff hlistings⟩

/-! ### An example -/

namespace Memory

/-- A directory that holds nothing but another one with a picture in it. -/
def pictures : Memory :=
  .ofFiles [(⟨"app/routes/docs/assets/logo.svg"⟩, "")]

/-- The route tree of this file. -/
def picturesTree : List Node :=
  [.layout ".react-router/layouts/root.layout.tsx" [.route "docs" false
    [.layout ".react-router/layouts/docs.layout.tsx" [.route "assets" false []]]]]

theorem buildTree_pictures : (buildTree pictures {}).1 = .ok picturesTree := by
  decide +kernel

theorem convert_picturesTree : convert picturesTree =
    [.layout ".react-router/layouts/root.layout.tsx"
      [.route "docs" ".react-router/layouts/docs.layout.tsx" []]] := by
  simp [picturesTree, Node.layout, Node.route, Node.isLayout, Partition.directory, Partition.split,
    Partition.add, convert, convertEach, convertNode, resolve, hoist, notFoundRoute?]

end Memory

/-- The placeholders of the pictures are those of barren directories. -/
theorem Job.Run.placeholders_around_pictures : ∃ events job m',
    Job.Run Memory.storage (buildTree {} (Memory.pictures.scanDepth {})) Memory.pictures events job
        m' ∧
      job.result? = some (.ok Memory.picturesTree) ∧
      ∃ ignored authored directories, IgnoreSet.ofTexts [] = .ok ignored ∧
        EntryFiles {} ignored events (convert Memory.picturesTree) authored directories ∧
        ((∃ D ∈ directories, Options.ListsBarren {} ignored events D) ↔
          ∃ B name, Options.ListsBarren {} ignored events B ∧ IsName name ∧
            isPrivate name = false ∧ Options.Lists {} events (B ++ [name])) := by
  obtain ⟨events, job, hrun, hresult⟩ := Job.exists_run_sequential Memory.storage
    (buildTree {} (Memory.pictures.scanDepth {})) Memory.pictures
  have hbuilt := hresult.trans (congrArg some Memory.buildTree_pictures)
  obtain ⟨ignored, authored, directories, hignored, hfiles, -, hiff⟩ :=
    Job.Run.placeholders_around hrun hbuilt fun _ _ hlisted =>
      hrun.lawful_listed (Memory.reachable_ofFiles _) hlisted
  exact ⟨events, job, _, hrun, hbuilt, ignored, authored, directories, hignored, hfiles, hiff⟩

/-- Nothing authored is inside the entries made for the pictures. -/
theorem Memory.barren_entry : ∃ tree, (Memory.buildTree Memory.pictures {}).1 = .ok tree ∧
    (Memory.compile Memory.pictures {}).1 = .ok (convert tree) ∧
    ¬ ∀ e ∈ Entry.preorderAll (convert tree), e.role? = none →
      ∃ q ∈ Entry.preorderAll e.children, q.role? ≠ none := by
  refine ⟨picturesTree, buildTree_pictures, ?_, fun h => ?_⟩
  · rw [compile_eq, buildTree_pictures]
    rfl
  · obtain ⟨q, hq, -⟩ := h (.route "docs" ".react-router/layouts/docs.layout.tsx" [])
      (by simp [convert_picturesTree, Entry.preorder_eq, Entry.layout, Entry.route])
      (by decide +kernel)
    simp [Entry.route] at hq

end FileRoutes
