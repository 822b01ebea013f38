import FileRoutes.Proofs.Layouts
import FileRoutes.Proofs.Origins

/-!
# The scope of a layout

The **scope** of an authored layout is where the index pages inside its entry were found. Normally
that is the directory of the layout and all below it. But a directory with no layout of its own
takes the first one that stands among its nodes, if private directories bring any: the entry of the
directory has the file of that layout, and its scope is what stays in the directory. Dynamic
directories do not, unless the directory is dynamic itself.

Main result: `Job.Run.scopes_kept`, on every interleaved run of a build on any storage that lists
entries once and by their names.
-/

namespace FileRoutes

namespace Folder

/-! ### The file around a directory -/

section

variable {ignored : IgnoreSet} {reference : String → String} {path file : String} {F : Folder}

/-- Around a directory is its effective layout or a placeholder. -/
theorem of_outer?_eq_some (h : F.outer? ignored reference path = some file) :
    file = reference path ∨ ∃ name, effectiveLayout? ignored path F.listing = some name ∧
      file = fileReference (entryPath path name) := by
  unfold outer? wrapper? findings at h
  rw [layoutPath?_findings] at h
  cases hlayout : effectiveLayout? ignored path F.listing with
  | some name => exact .inr ⟨name, rfl, by simpa [hlayout] using h.symm⟩
  | none =>
    simp only [hlayout, Option.map_none, Option.ite_none_right_eq_some, Option.some.injEq] at h
    exact .inl h.2.symm

/-- A directory with nothing around it has no effective layout. -/
theorem effectiveLayout?_of_outer?_eq_none (h : F.outer? ignored reference path = none) :
    effectiveLayout? ignored path F.listing = none := by
  unfold outer? wrapper? findings at h
  rw [layoutPath?_findings] at h
  cases hlayout : effectiveLayout? ignored path F.listing with
  | some name => simp [hlayout] at h
  | none => rfl

end

/-! ### Directories that open into others -/

section

variable (ignored : IgnoreSet) (reference : String → String)

/-- The nodes of the directory that `groups` lead to are among those of the one at `path`: all on
the way are private, and there is nothing around any of them but the last. -/
inductive Opens : String → Folder → List String → Folder → Prop
  | here (path : String) (F : Folder) : Opens path F [] F
  | into {path name : String} {F G H : Folder} {groups : List String}
    (hG : (name, G) ∈ F.directories) (hname : isPrivate name = true)
    (houter : F.outer? ignored reference path = none)
    (h : Opens (entryPath path name) G groups H) : Opens path F (name :: groups) H

end

variable {ignored : IgnoreSet} {reference : String → String} {path : String} {F G H : Folder}
  {groups : List String} {n : Node}

theorem Opens.leads (h : Opens ignored reference path F groups H) : F.Leads groups H := by
  induction h with
  | here path F => exact .here F
  | into hG _ _ _ ih => exact .into hG ih

theorem Opens.isPrivate (h : Opens ignored reference path F groups H) :
    ∀ group ∈ groups, isPrivate group = true := by
  induction h with
  | here path F => simp
  | into _ hname _ _ ih => exact List.forall_mem_cons.2 ⟨hname, ih⟩

/-- There is nothing around a directory on the way. -/
theorem Opens.exists_outer?_eq_none (h : Opens ignored reference path F groups H)
    {above : List String} (hbegins : above <+: groups) (hne : above ≠ groups) :
    ∃ K, F.Leads above K ∧ K.outer? ignored reference (pathBelow path above) = none := by
  induction h generalizing above with
  | here path F => exact absurd (List.prefix_nil.1 hbegins) hne
  | @into path name F G H groups hG _ houter _ ih =>
    cases above with
    | nil => exact ⟨F, .here F, houter⟩
    | cons first above =>
      obtain ⟨rfl, hmore⟩ := List.cons_prefix_cons.1 hbegins
      obtain ⟨K, hK, hnone⟩ := ih hmore (by simpa using hne)
      exact ⟨K, .into hG hK, hnone⟩

/-- **A layout among the nodes of a directory is around one that it opens into.** -/
theorem exists_opens_of_isLayout (hn : n ∈ F.nodes ignored reference path)
    (hlayout : n.isLayout = true) :
    ∃ groups H, Opens ignored reference path F groups H ∧
      H.outer? ignored reference (pathBelow path groups) = some n.file := by
  induction path, F using directories_induction with | h path F ih =>
  cases houter : F.outer? ignored reference path with
  | some file =>
    rw [nodes_of_outer?_eq_some houter] at hn
    obtain rfl := List.mem_singleton.1 hn
    exact ⟨[], F, .here path F, houter⟩
  | none =>
    rw [nodes_of_outer?_eq_none houter] at hn
    rcases mem_found_iff.1 ((Node.sortSiblings_perm _).mem_iff.1 hn) with
      ⟨page, -, rfl⟩ | ⟨⟨name, G⟩, hG, hn⟩
    · simp [isLayout_pageNode] at hlayout
    · -- only a private directory has its nodes there, any other stands for them itself
      unfold Scan.nodesOfDirectory at hn
      split at hn
      · next hname =>
        obtain ⟨groups, H, hopens, hfile⟩ := ih _ hG hn
        exact ⟨name :: groups, H, .into hG hname houter hopens, hfile⟩
      · obtain rfl := List.mem_singleton.1 hn
        cases hlayout

end Folder

/-! ### Scopes -/

/-- The directory that `D` leads to takes the layout of the one that `A` leads to for its own: all
directories from there to `A` are private, while it is not, and `bare` holds of it and of all
others before `A`. -/
structure TakesLayout (bare : List String → Prop) (D A : List String) : Prop where
  notPrivate : ∃ above name, D = above ++ [name] ∧ isPrivate name = false
  groups : ∃ groups, A = D ++ groups ∧ groups ≠ [] ∧ ∀ group ∈ groups, isPrivate group = true
  bare : ∀ B, D <+: B → B <+: A → B ≠ A → bare B

theorem TakesLayout.imp {bare other : List String → Prop} {D A : List String}
    (h : TakesLayout bare D A) (himp : ∀ B, bare B → other B) : TakesLayout other D A :=
  ⟨h.notPrivate, h.groups, fun B hD hA hne => himp B (h.bare B hD hA hne)⟩

/-- What is in the directory that `B` leads to stays in the entry of the one that `D` leads to: it
is that directory or below it, and not in a dynamic directory there, unless the directory is dynamic
itself. -/
def StaysIn (D B : List String) : Prop :=
  D <+: B ∧ ∀ name, D ++ [name] <+: B → isPrivate name = false →
    (folderSegment name).2 = true → ∃ last ∈ D.getLast?, (folderSegment last).2 = true

namespace Folder

variable {ignored : IgnoreSet} {reference : String → String} {cache : LayoutCache}
  {start path file : String} {F G H : Folder} {A D : List String} {layout : String}

/-- The directory that `B` leads to was seen and has no effective layout. -/
def Bare (ignored : IgnoreSet) (path : String) (F : Folder) (B : List String) : Prop :=
  ∃ listing, (B, listing) ∈ F.folders ∧
    effectiveLayout? ignored (pathBelow path B) listing = none

/-- The file is that of a page which was seen in a directory in `scope`. -/
def PageIn (ignored : IgnoreSet) (path : String) (F : Folder) (scope : List String → Prop)
    (file : String) : Prop :=
  ∃ B name, scope B ∧ (B, Convention.page, name) ∈ F.folders.flatMap (liveIn ignored path) ∧
    file = fileReference (pathBelow path (B ++ [name]))

/-- The index pages among nodes that stem from a directory are pages in it or below. -/
theorem pageIn_of_mem_indexFiles {nodes : List Node} (hG : F.Leads D G)
    (h : Node.All (Origin ignored reference (pathBelow path D) G) nodes)
    (hfile : file ∈ Node.indexFiles nodes) : F.PageIn ignored path (D <+: ·) file := by
  obtain ⟨n, hn, rfl⟩ := List.mem_map.1 hfile
  obtain ⟨hmem, hindex⟩ := List.mem_filter.1 hn
  obtain ⟨names, H, name, hH, hlive, hreference⟩ := (h n hmem).of_isIndexPage hindex
  refine ⟨D ++ names, name, List.prefix_append _ _, mem_flatMap_liveIn_iff.2
    ⟨H.listing, (hG.trans hH).mem_folders, ?_⟩, ?_⟩
  · rwa [pathBelow_append]
  · rwa [List.append_assoc, pathBelow_append]

/-- What is in another directory than a dynamic one stays in the entry of a directory. -/
theorem staysIn_of_prefix {name : String} {B : List String} (hB : D ++ [name] <+: B)
    (h : isPrivate name = false → (folderSegment name).2 = true →
      ∃ last ∈ D.getLast?, (folderSegment last).2 = true) : StaysIn D B := by
  refine ⟨(List.prefix_append _ _).trans hB, fun other hother hprivate hdynamic => ?_⟩
  have hsame : D ++ [other] = D ++ [name] :=
    (List.prefix_of_prefix_length_le hother hB (by simp)).eq_of_length (by simp)
  obtain rfl : other = name := by simpa using hsame
  exact h hprivate hdynamic

theorem PageIn.imp {scope other : List String → Prop} (h : F.PageIn ignored path scope file)
    (himp : ∀ B, scope B → other B) : F.PageIn ignored path other file := by
  obtain ⟨B, name, hB, hlive, hfile⟩ := h
  exact ⟨B, name, himp B hB, hlive, hfile⟩

/-- The index pages of the children that stay inside the entry of a directory are pages that stay
in it. -/
theorem pageIn_staysIn {above : List String} {name : String} {d : Node}
    (hG : F.Leads (above ++ [name]) G)
    (hd : d = .folder name (G.nodes ignored reference (pathBelow path (above ++ [name]))))
    (houter : G.outer? ignored reference (pathBelow path (above ++ [name])) = none)
    (hfile : file ∈ Node.indexFiles (d.children.filter d.keeps)) :
    F.PageIn ignored path (StaysIn (above ++ [name])) file := by
  obtain ⟨c, hc, hfile⟩ := Node.mem_indexFiles_iff.1 hfile
  obtain ⟨hc, hkept⟩ := List.mem_filter.1 hc
  have hdynamic : d.isDynamic = (folderSegment name).2 := by rw [hd]; rfl
  have hfound : c ∈ G.found ignored reference (pathBelow path (above ++ [name])) := by
    rw [hd] at hc
    rw [← (Node.sortSiblings_perm _).mem_iff, ← nodes_of_outer?_eq_none houter]
    exact hc
  rcases mem_found_iff.1 hfound with ⟨page, hpage, rfl⟩ | ⟨⟨inner, H⟩, hH, hinner⟩
  · obtain ⟨hrole, rfl⟩ := mem_indexFiles_pageNode hfile
    refine ⟨above ++ [name], page.2, ⟨List.prefix_rfl, fun other hother => ?_⟩,
      mem_flatMap_liveIn_iff.2 ⟨G.listing, hG.mem_folders, ?_⟩, ?_⟩
    · simpa using hother.length_le
    · rw [← hrole]
      exact List.mem_append_right _ hpage
    · rw [pathBelow_append _ (above ++ [name]), pathBelow_cons, pathBelow_nil]
  · have horigin := all_origin_nodes H ignored reference
      (pathBelow path (above ++ [name] ++ [inner]))
    have hinside : ∀ {file}, file ∈ Node.indexFiles (H.nodes ignored reference
        (pathBelow path (above ++ [name] ++ [inner]))) →
        F.PageIn ignored path (above ++ [name] ++ [inner] <+: ·) file :=
      pageIn_of_mem_indexFiles (hG.trans (.into hH (.here H))) horigin
    rw [pathBelow_append _ (above ++ [name]), pathBelow_cons, pathBelow_nil] at hinside
    unfold Scan.nodesOfDirectory at hinner
    split at hinner
    · next hprivate =>
      refine (hinside (Node.mem_indexFiles_iff.2 ⟨c, hinner, hfile⟩)).imp fun B hB =>
        staysIn_of_prefix hB fun hnot => ?_
      simp [hprivate] at hnot
    · obtain rfl := List.mem_singleton.1 hinner
      rw [Node.indexFiles_folder] at hfile
      refine (hinside hfile).imp fun B hB => staysIn_of_prefix hB fun _ hinner => ?_
      -- the dynamic directory stays inside, so the one around it is dynamic, too
      have hd : d.isDynamic = true := by
        simpa [Node.keeps, Node.folder, Node.route, Node.isRoute, hinner] using hkept
      exact ⟨name, by simp, hdynamic ▸ hd⟩

/-- An authored layout is around its own directory only. -/
theorem Lawful.eq_of_outer?_eq_some (h : F.Lawful) (hA : ∀ n ∈ A, IsName n)
    (hname : IsName layout) (hrole : Convention.ofFileName? layout = some .layout)
    (hG : F.Leads D G) (houter : G.outer? ignored (cache.referenceFor start) (pathBelow path D) =
      some (fileReference (pathBelow path (A ++ [layout])))) : D = A := by
  rcases of_outer?_eq_some houter with hplaceholder | ⟨other, heffective, hown⟩
  · rw [pathBelow_append] at hplaceholder
    exact absurd hplaceholder.symm (cache.referenceFor_ne start _ _ hname (by simp [hrole]))
  · obtain ⟨e, he, rfl, -⟩ := mem_of_effectiveLayout? heffective
    have hsame : fileReference (pathBelow path (D ++ [e.name])) =
        fileReference (pathBelow path (A ++ [layout])) := by
      rw [pathBelow_append path D]
      exact hown.symm
    have hseen := hG.mem_folders
    exact (fileReference_inj (h.names.of_mem_folders hseen) hA ((h _ hseen).isName e he) hname
      hsame).1

/-- The file of a page is not that of an authored layout. -/
theorem Lawful.ne_of_pageIn (h : F.Lawful) (hA : ∀ n ∈ A, IsName n) (hname : IsName layout)
    (hrole : Convention.ofFileName? layout = some .layout) {scope : List String → Prop}
    (hpage : F.PageIn ignored path scope file) :
    file ≠ fileReference (pathBelow path (A ++ [layout])) := by
  obtain ⟨B, name, -, hlive, rfl⟩ := hpage
  obtain ⟨listing, hB, hfile⟩ := mem_flatMap_liveIn_iff.1 hlive
  obtain ⟨e, he, rfl, hpage⟩ := mem_of_mem_liveFiles hfile
  obtain ⟨-, -, hother⟩ := liveRole?_eq_some_iff.1 hpage
  intro hsame
  obtain ⟨-, rfl⟩ :=
    fileReference_inj (h.names.of_mem_folders hB) hA ((h _ hB).isName e he) hname hsame
  simp [hrole] at hother

/-- A directory that opens into another one takes the layout of that for its own. -/
theorem Opens.takesLayout {above groups : List String} {name : String}
    (hG : F.Leads (above ++ [name]) G) (hname : FileRoutes.isPrivate name = false)
    (h : Opens ignored reference (pathBelow path (above ++ [name])) G groups H)
    (hne : groups ≠ []) :
    TakesLayout (F.Bare ignored path) (above ++ [name]) (above ++ [name] ++ groups) := by
  refine ⟨⟨above, name, rfl, hname⟩, ⟨groups, rfl, hne, h.isPrivate⟩, fun B hD hB hother => ?_⟩
  obtain ⟨between, rfl⟩ := hD
  obtain ⟨K, hK, hnone⟩ := h.exists_outer?_eq_none ((List.prefix_append_right_inj _).1 hB)
    (by simpa using hother)
  refine ⟨K.listing, (hG.trans hK).mem_folders, ?_⟩
  rw [pathBelow_append]
  exact effectiveLayout?_of_outer?_eq_none hnone

/-- **The scope of an authored layout** is its own directory, unless its entry has a path and stands
for a directory that takes the layout for its own. -/
theorem Lawful.scope (h : F.Lawful) (hA : ∀ n ∈ A, IsName n) (hname : IsName layout)
    (hrole : Convention.ofFileName? layout = some .layout) {e : Entry}
    (he : e ∈ Entry.preorderAll (convert (F.nodes ignored (cache.referenceFor start) path)))
    (hfile : e.file = fileReference (pathBelow path (A ++ [layout]))) :
    (∀ file ∈ Entry.indexFiles e.children, F.PageIn ignored path (A <+: ·) file) ∨
      e.path.isSome = true ∧ ∃ D, TakesLayout (F.Bare ignored path) D A ∧
        ∀ file ∈ Entry.indexFiles e.children, F.PageIn ignored path (StaysIn D) file := by
  cases (stemFrom_convert _).each e he with
  | leaf hleaf => exact .inl (by simp [hleaf, Entry.indexFiles])
  | @layout n hn hlayout hsame _ hpages =>
    obtain ⟨names, G, hG, houter, hchildren⟩ :=
      (all_origin_nodes _ _ _ _ n hn).of_isLayout hlayout
    rw [← hsame, hfile] at houter
    obtain rfl := h.eq_of_outer?_eq_some hA hname hrole hG houter
    have hinside := (Node.all_perm_iff (Node.sortSiblings_perm _)).2
      (all_origin_found G ignored (cache.referenceFor start) (pathBelow path names))
    rw [← hchildren] at hinside
    exact .inl fun file hmem => pageIn_of_mem_indexFiles hG hinside (hpages hmem)
  | @directory d n hd hroute hn hsign hsame hpath hpages =>
    obtain ⟨above, name, G, hG, hnotPrivate, hfolder⟩ :=
      (all_origin_nodes _ _ _ _ d hd).of_isRoute hroute
    have hinside : ∀ file ∈ Node.indexFiles d.children,
        F.PageIn ignored path (above ++ [name] <+: ·) file := by
      rw [hfolder]
      exact fun _ => pageIn_of_mem_indexFiles hG (all_origin_nodes _ _ _ _)
    rcases hsign with hlayout | hindex
    · rw [hfolder] at hn
      obtain ⟨groups, H, hopens, houter⟩ := exists_opens_of_isLayout hn hlayout
      rw [← hsame, hfile, ← pathBelow_append] at houter
      obtain rfl := h.eq_of_outer?_eq_some hA hname hrole (hG.trans hopens.leads) houter
      cases hopens with
      | here =>
        rw [List.append_nil]
        exact .inl fun file hmem => hinside file (Node.indexFiles_subset
          (Node.preorderAll_subset (List.filter_subset_self _)) (hpages hmem))
      | into hK hprivate hnone hbelow =>
        have htakes := (Opens.into hK hprivate hnone hbelow).takesLayout hG hnotPrivate (by simp)
        exact .inr ⟨hpath, above ++ [name], htakes, fun file hmem =>
          pageIn_staysIn hG hfolder hnone (hpages hmem)⟩
    · have hpage := hinside n.file (List.mem_map.2
        ⟨n, List.mem_filter.2 ⟨Node.mem_preorderAll_of_mem hn, hindex⟩, rfl⟩)
      exact absurd (hsame.symm.trans hfile) (h.ne_of_pageIn hA hname hrole hpage)

end Folder

/-- Every index page inside the entry has the file of a page that was found in a directory in
`scope`. -/
def Entry.HasScope (o : Options) (ignored : IgnoreSet) (events : List Event) (e : Entry)
    (scope : List String → Prop) : Prop :=
  ∀ q ∈ preorderAll e.children, q.isIndex = true →
    ∃ B name, scope B ∧ o.ListsLive ignored events B .page name ∧ q.file = o.referenceOf B name

/-- **The scope of an authored layout is its own directory**, in every run of a build that returns a
tree, on a storage that lists every entry once and by its name. Only where the entry of the layout
has a path, this may stand for a directory that takes the layout for its own; then the scope is what
stays in that directory. -/
theorem Job.Run.scopes_kept {σ : Type} {storage : Storage (StateM σ)} {o : Options} {depth : Nat}
    {s s' : σ} {events : List Event} {job : Job (List Node)} {tree : List Node}
    (hrun : Job.Run storage (buildTree o depth) s events job s')
    (hresult : job.result? = some (.ok tree))
    (hlawful : ∀ path listing, Event.listed path listing ∈ events → LawfulListing listing) :
    ∃ ignored, IgnoreSet.ofTexts o.ignored = .ok ignored ∧
      ∀ e ∈ Entry.preorderAll (convert tree), ∀ A layout, (∀ name ∈ A, IsName name) →
        IsName layout → Convention.ofFileName? layout = some .layout →
        e.file = o.referenceOf A layout →
        e.HasScope o ignored events (A <+: ·) ∨
          e.path.isSome = true ∧ ∃ D, TakesLayout (o.LacksLayout ignored events) D A ∧
            e.HasScope o ignored events (StaysIn D) := by
  obtain ⟨ignored, F, hignored, hF, rfl, hlistings⟩ := hrun.exists_lawful_folder hresult hlawful
  refine ⟨ignored, hignored, fun e he A layout hA hname hrole hfile => ?_⟩
  have hlacks : ∀ B, F.Bare ignored (startDirectory o.routes) B →
      o.LacksLayout ignored events B := by
    rintro B ⟨listing, hd, hnone⟩
    exact ⟨listing, (hlistings B (hF.names.of_mem_folders hd) listing).2 hd, hnone⟩
  have hscope : ∀ scope, (∀ file ∈ Entry.indexFiles e.children,
      F.PageIn ignored (startDirectory o.routes) scope file) →
      e.HasScope o ignored events scope := by
    intro scope hpages q hq hindex
    obtain ⟨B, name, hB, hlive, hreference⟩ :=
      hpages q.file (List.mem_map.2 ⟨q, List.mem_filter.2 ⟨hq, hindex⟩, rfl⟩)
    obtain ⟨listing, hd, hlists⟩ := Folder.mem_flatMap_liveIn_iff.1 hlive
    have hlisting := (hlistings B (hF.names.of_mem_folders hd) listing).2 hd
    exact ⟨B, name, hB, ⟨listing, hlisting, hlists⟩, hreference⟩
  rcases hF.scope hA hname hrole he hfile with hown | ⟨hpath, D, htakes, hstays⟩
  · exact .inl (hscope _ hown)
  · exact .inr ⟨hpath, D, htakes.imp hlacks, hscope _ hstays⟩

/-! ### An example -/

namespace Memory

/-- A shop without a layout of its own: in it are a private directory with a layout, and another
directory. -/
def shop : Memory :=
  .ofFiles [(⟨"app/routes/layout.tsx"⟩, ""), (⟨"app/routes/shop/_members/layout.tsx"⟩, ""),
    (⟨"app/routes/shop/_members/page.tsx"⟩, ""), (⟨"app/routes/shop/about/page.tsx"⟩, "")]

/-- The route tree of these files. -/
def shopTree : List Node :=
  [.layout "./routes/layout.tsx" [.route "shop" false
    [.route "about" false
      [.layout ".react-router/layouts/shop.about.layout.tsx"
        [.indexPage "./routes/shop/about/page.tsx"]],
    .layout "./routes/shop/_members/layout.tsx"
      [.indexPage "./routes/shop/_members/page.tsx"]]]]

/-- The entry of the shop. -/
def shopEntry : Entry :=
  .route "shop" "./routes/shop/_members/layout.tsx"
    [.index "./routes/shop/_members/page.tsx",
      .route "about" ".react-router/layouts/shop.about.layout.tsx"
        [.index "./routes/shop/about/page.tsx"]]

theorem convert_shopTree : convert shopTree = [.layout "./routes/layout.tsx" [shopEntry]] := by
  simp [shopTree, shopEntry, Node.layout, Node.route, Node.indexPage, Node.isLayout, Node.isRoute,
    Node.isIndexPage, Partition.directory, Partition.split, Partition.add, convert, convertEach,
    convertNode, resolve, hoist, notFoundRoute?]

theorem shopEntry_mem : shopEntry ∈ Entry.preorderAll (convert shopTree) := by
  simp [convert_shopTree, Entry.preorder_eq, Entry.layout]

end Memory

/-- The layout of the members of the shop has a scope. -/
theorem Job.Run.scopes_kept_shop : ∃ events job m',
    Job.Run Memory.storage (buildTree {} 4) Memory.shop events job m' ∧
      job.result? = some (.ok Memory.shopTree) ∧
      ∃ ignored, IgnoreSet.ofTexts [] = .ok ignored ∧
        (Memory.shopEntry.HasScope {} ignored events (["shop", "_members"] <+: ·) ∨
          Memory.shopEntry.path.isSome = true ∧
            ∃ D, TakesLayout (Options.LacksLayout {} ignored events) D ["shop", "_members"] ∧
              Memory.shopEntry.HasScope {} ignored events (StaysIn D)) := by
  obtain ⟨events, job, hrun, hresult⟩ :=
    Job.exists_run_sequential Memory.storage (buildTree {} 4) Memory.shop
  have htree : (((buildTree {} 4).run Memory.storage).run Memory.shop).1 = .ok Memory.shopTree := by
    decide +kernel
  have hbuilt := hresult.trans (congrArg some htree)
  obtain ⟨ignored, hignored, hscopes⟩ := Job.Run.scopes_kept hrun hbuilt fun _ _ hlisted =>
    hrun.lawful_listed (Memory.reachable_ofFiles _) hlisted
  exact ⟨events, job, _, hrun, hbuilt, ignored, hignored,
    hscopes _ Memory.shopEntry_mem ["shop", "_members"] "layout.tsx" (by decide) (by decide)
      (by decide +kernel) (by decide +kernel)⟩

/-- The page of another directory in the shop is nested under the layout of its members, though it
stands beside no private directory. -/
theorem Memory.not_own_scope : ∃ entries, (Memory.compile Memory.shop {}).1 = .ok entries ∧
    ¬ ∀ e ∈ Entry.preorderAll entries, ∀ A layout, (∀ n ∈ A, IsName n) → IsName layout →
      Convention.ofFileName? layout = some .layout → e.file = Options.referenceOf {} A layout →
      ∀ q ∈ Entry.preorderAll e.children, q.isIndex = true →
        ∃ B name, (∀ n ∈ B, IsName n) ∧ IsName name ∧ q.file = Options.referenceOf {} B name ∧
          (A <+: B ∨ ∃ group, isPrivate group = true ∧ B ++ [group] <+: A) := by
  have htree : (Memory.buildTree Memory.shop {}).1 = .ok Memory.shopTree := by decide +kernel
  rw [compile_eq]
  refine ⟨_, congrArg (Except.map convert) htree, fun h => ?_⟩
  obtain ⟨B, name, hB, hname, hfile, hscope⟩ :=
    h _ shopEntry_mem ["shop", "_members"] "layout.tsx" (by decide) (by decide)
      (by decide +kernel) (by decide +kernel) (.index "./routes/shop/about/page.tsx")
      (by simp [shopEntry, Entry.preorder_eq, Entry.route, Entry.index]) rfl
  have hreference : Options.referenceOf {} ["shop", "about"] "page.tsx" =
      "./routes/shop/about/page.tsx" := by decide +kernel
  obtain ⟨rfl, -⟩ := fileReference_inj (by decide) hB (by decide) hname (hreference.trans hfile)
  rcases hscope with hinside | ⟨group, -, hbeside⟩
  · revert hinside
    decide
  · simp at hbeside

end FileRoutes
